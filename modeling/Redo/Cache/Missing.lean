import Redo.Cache.Schedule

/-! # Recorded dependencies that are missing

The check for missing dependencies goes by the rows of the last build, before the recipe has
said what it needs now. What has gone since ends the attempt, requested or not.
-/
namespace Redo.Cache
open State Override

section Provided

variable {calls : Calls} {sf : File}

/-- Every recorded dependency that the check looks at is there, or is generated and its build
succeeds. -/
inductive Provided (calls : Calls) (sf : File) : List (Char × File) → World → World → Prop
  | nil (w : World) : Provided calls sf [] w w
  | skipped {p : Char × File} {rest : List (Char × File)} {w w' : World}
      (hskip : skips sf p = true) (htail : Provided calls sf rest w w') :
      Provided calls sf (p :: rest) w w'
  | present {p : Char × File} {rest : List (Char × File)} {w w' : World}
      (hskip : skips sf p = false) (hexists : w.disk.pathExists p.2.name = true)
      (htail : Provided calls sf rest w w') : Provided calls sf (p :: rest) w w'
  | built {p : Char × File} {rest : List (Char × File)} {w w₁ w' : World}
      (hskip : skips sf p = false) (hexists : w.disk.pathExists p.2.name = false)
      (hgen : p.2.isGenerated = true) (hbuild : calls.buildOne p.2.id w = some (0, w₁))
      (htail : Provided calls sf rest w₁ w') : Provided calls sf (p :: rest) w w'

theorem buildMissing_of_provided {rows : List (Char × File)} {w w' : World}
    (h : Provided calls sf rows w w') : buildMissing calls sf rows w = some (.none, w') := by
  induction h with
  | nil w => rfl
  | skipped hskip _ ih =>
    rw [buildMissing, if_pos hskip]
    exact ih
  | present hskip hexists _ ih =>
    rw [buildMissing, if_neg (by simp [hskip]), if_pos hexists]
    exact ih
  | built hskip hexists hgen hbuild _ ih =>
    rw [buildMissing, if_neg (by simp [hskip]), if_neg (by simp [hexists]), if_pos hgen, hbuild]
    exact ih

theorem provided_of_buildMissing {rows : List (Char × File)} {w w' : World}
    (h : buildMissing calls sf rows w = some (.none, w')) : Provided calls sf rows w w' := by
  induction rows generalizing w with
  | nil =>
    cases h
    exact .nil _
  | cons p rest ih =>
    rw [buildMissing] at h
    by_cases hskip : skips sf p = true
    · rw [if_pos hskip] at h
      exact .skipped hskip (ih h)
    rw [if_neg hskip] at h
    rw [Bool.not_eq_true] at hskip
    by_cases hexists : w.disk.pathExists p.2.name = true
    · rw [if_pos hexists] at h
      exact .present hskip hexists (ih h)
    rw [if_neg hexists] at h
    rw [Bool.not_eq_true] at hexists
    by_cases hgen : p.2.isGenerated = true
    · rw [if_pos hgen] at h
      cases hbuild : calls.buildOne p.2.id w with
      | none =>
        rw [hbuild] at h
        cases h
      | some r =>
        obtain ⟨rv, w₁⟩ := r
        rw [hbuild] at h
        by_cases hrv : rv = 0
        · subst hrv
          exact .built hskip hexists hgen hbuild (ih h)
        · simp [hrv] at h
    · simp [hgen] at h

theorem buildMissing_iff {rows : List (Char × File)} {w w' : World} :
    buildMissing calls sf rows w = some (.none, w') ↔ Provided calls sf rows w w' :=
  ⟨provided_of_buildMissing, buildMissing_of_provided⟩

end Provided

namespace Request

variable {calls : Calls} {q : Request} {w : World}

/-- Where the recipe starts without the cache, the cache path is all that can come before it. -/
theorem scheduleBuildOne_of_recipe
    (hoff : (q.scheduleBuildOne false calls w).map (·.1) = some .recipe) (cacheOn : Bool) :
    q.scheduleBuildOne cacheOn calls w =
      if cacheOn && q.sf.csum.isNone then q.viaCache calls w (q.prepare w).2
      else some (.recipe, (q.prepare w).2) := by
  have hcsum : (q.target w).csum = q.sf.csum := by
    rw [target, persistNewTargetIntent]
    split <;> rfl
  unfold scheduleBuildOne at hoff ⊢
  by_cases hover : overridden (w.disk.readStamp q.sf.name) q.sf = true
  · simp [hover] at hoff
  by_cases hstatic : (w.disk.pathExists q.sf.name && !q.sf.isGenerated) = true
  · simp [hover, hstatic] at hoff
  by_cases hpool : (q.hasRule w && !q.poolFree) = true
  · simp [hover, hstatic, hpool] at hoff
  simp only [hover, hstatic, hpool, if_false, Bool.false_eq_true] at hoff ⊢
  cases hfound : (q.prepare w).1 with
  | true => simp [hcsum]
  | false =>
    rw [hfound] at hoff
    by_cases hpresent : w.disk.pathExists q.sf.name = true <;> simp [hpresent] at hoff

/-- The cache path ends in the recipe or in a hit exactly when nothing recorded is missing. -/
theorem viaCache_iff (w₀ : World) :
    (q.viaCache calls w₀ w).map (·.1) = some .recipe ∨
        (q.viaCache calls w₀ w).map (·.1) = some .cacheHit ↔
      ∃ w', Provided calls (q.target w₀) (q.recorded w₀) w w' := by
  unfold viaCache
  simp only [← buildMissing_iff]
  cases hmissing : buildMissing calls (q.target w₀) (q.recorded w₀) w with
  | none => simp
  | some r =>
    obtain ⟨missing, w'⟩ := r
    cases missing with
    | source name => simp
    | failed name => simp
    | none =>
      cases hkey : computeActionKey w'.disk q.sf.name (q.recorded w₀) with
      | skipAlways => simp [hkey]
      | eligible key => by_cases hrestore : calls.restore key w' = true <;> simp [hkey, hrestore]

/-- Where the recipe would be started without the cache, the cache path starts it or takes a hit
exactly when the target has a checksum or no recorded dependency is missing. -/
theorem scheduleBuildOne_cache_iff (calls : Calls) (q : Request) (w : World)
    (hoff : (q.scheduleBuildOne false calls w).map (·.1) = some .recipe) :
    (q.scheduleBuildOne true calls w).map (·.1) = some .recipe ∨
        (q.scheduleBuildOne true calls w).map (·.1) = some .cacheHit ↔
      q.sf.csum.isSome = true ∨
        ∃ w', Provided calls (q.target w) (q.recorded w) (q.prepare w).2 w' := by
  rw [scheduleBuildOne_of_recipe hoff true]
  cases hcsum : q.sf.csum with
  | some csum => simp
  | none => simpa using viaCache_iff w

end Request

/-- `f` was built from `a.h`, which may have been deleted since; its rule has been edited. -/
def edited (kept : Bool) : Request × World :=
  let f : File :=
    { id := 1, name := "f", isGenerated := true, changedRunid := some 1, stamp := some "1.0-2-3" }
  let header : File := { id := 2, name := "a.h", changedRunid := some 1, stamp := some "1.0-7-8" }
  let rule : File := { id := 3, name := "f.do", changedRunid := some 1, stamp := some "1.0-9-9" }
  let readStamp (name : String) : Stamp :=
    if name = "f" then "1.0-2-3" else if name = "f.do" then "2.0-9-9"
    else if kept && name = "a.h" then "1.0-7-8" else STAMP_MISSING
  ({ R := 2, sf := f, candidates := [rule], poolFree := true },
    { db := { files := [f, header, rule], deps := [⟨1, 3, 'm', false⟩, ⟨1, 2, 'm', false⟩] },
      disk := ⟨readStamp, fun name => readStamp name ≠ STAMP_MISSING⟩ })

/-- A store without entries, in a project where no nested build succeeds. -/
def emptyStore : Calls := { buildOne := fun _ w => some (1, w), restore := fun _ _ => false }

theorem kept_header_builds :
    ((edited true).1.scheduleBuildOne true emptyStore (edited true).2).map (·.1) =
        some .recipe ∨
      ((edited true).1.scheduleBuildOne true emptyStore (edited true).2).map (·.1) =
        some .cacheHit :=
  (Request.scheduleBuildOne_cache_iff emptyStore (edited true).1 (edited true).2 (by decide)).mpr
    (Or.inr ⟨_, buildMissing_iff.mp rfl⟩)

/-- The rule no longer asks for the header; `f` fails all the same. -/
theorem deleted_header_vetoes : ¬∀ (calls : Calls) (q : Request) (w : World),
    (q.scheduleBuildOne false calls w).map (·.1) = some .recipe →
      (q.scheduleBuildOne true calls w).map (·.1) = some .recipe ∨
        (q.scheduleBuildOne true calls w).map (·.1) = some .cacheHit := by
  intro h
  have hfails : ((edited false).1.scheduleBuildOne true emptyStore (edited false).2).map (·.1) =
      some (.missingDependency "a.h") := by decide
  rcases h emptyStore (edited false).1 (edited false).2 (by decide) with hrecipe | hhit
  · rw [hfails] at hrecipe
    cases hrecipe
  · rw [hfails] at hhit
    cases hhit

end Redo.Cache
