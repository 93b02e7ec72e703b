import Redo.Completion.Failure
import Redo.Dirtiness.Blocked
import Redo.Dirtiness.Fresh

/-! # Files of which no walk is certain that they are out of date

A walk that comes to a checksum does not know whether what is below it matters. Where nothing above
the checksums has changed, it ends clean or with a list of the files to be built first, and the file
that it has started from is not on the list.
-/
namespace Redo.Dirtiness
open State Library Relation Completion

section Definitions
variable (disk : Disk) (R : RunId) (db : Db)

/-- Up to date but for what is behind checksums. -/
inductive Steady : RunId → File → Prop where
  | checked {mx : RunId} {f : File} (notFailed : f.failedRunid = none)
      (changed : f.changedRunid.isSome) (notAfter : f.changedRunid.getD 0 ≤ mx)
      (mark : f.isChecked R = true) : Steady mx f
  | summed {mx : RunId} {f : File} (notFailed : f.failedRunid = none)
      (changed : f.changedRunid.isSome) (notAfter : f.changedRunid.getD 0 ≤ mx)
      (stamp : f.stamp.isSome) (csum : f.csum.isSome) : Steady mx f
  | walked {mx : RunId} {f : File} (notFailed : f.failedRunid = none)
      (changed : f.changedRunid.isSome) (notAfter : f.changedRunid.getD 0 ≤ mx)
      (stamp : f.stamp = some (disk.readStamp f.name))
      (absent : ∀ g, ('c', g) ∈ db.depsOf R f → disk.pathExists g.name = false)
      (deps : ∀ g, ('m', g) ∈ db.depsOf R f → Steady f.lastSeen g) : Steady mx f

/-- A snapshot read in the course of a walk, of a row that was read as `f₀` at its start. -/
structure ReadAgain (f₀ f : File) : Prop where
  id : f.id = f₀.id
  traced : Traced disk R db (fun _ => False) f.id f
  read : f.fromRow R = f
  start : db.byId R f₀.id = some f₀

end Definitions

variable {disk : Disk} {R : RunId} {db : Db} {preflight : List FileId} {f₀ f : File} {mx : RunId}

theorem Fresh.steady (h : Fresh disk R db mx f) : Steady disk R db mx f := by
  induction h with
  | checked notFailed changed notAfter mark => exact .checked notFailed changed notAfter mark
  | walked notFailed changed notAfter stamp absent _ ih =>
    exact .walked notFailed changed notAfter stamp absent ih

namespace Steady

theorem notFailed (h : Steady disk R db mx f) : f.failedRunid = none := by
  cases h <;> assumption

theorem changed (h : Steady disk R db mx f) : f.changedRunid.isSome = true := by
  cases h <;> assumption

theorem notAfter (h : Steady disk R db mx f) : f.changedRunid.getD 0 ≤ mx := by
  cases h <;> assumption

theorem bound {mx' : RunId} (h : Steady disk R db mx f) (hmx : f.changedRunid.getD 0 ≤ mx') :
    Steady disk R db mx' f := by
  cases h with
  | checked notFailed changed _ mark => exact .checked notFailed changed hmx mark
  | summed notFailed changed _ stamp csum => exact .summed notFailed changed hmx stamp csum
  | walked notFailed changed _ stamp absent deps =>
    exact .walked notFailed changed hmx stamp absent deps

end Steady

namespace ReadAgain

theorem touched (h : ReadAgain disk R db f₀ f) : Touched disk R (fun _ => False) f.id f₀ f := by
  obtain ⟨r, hr, ht⟩ := h.traced
  have hstart := h.start
  rw [← h.id, Db.byId, hr] at hstart
  obtain rfl := Option.some.inj hstart
  have hfailed : (r.fromRow R).failedRunid = r.failedRunid := by
    unfold File.fromRow
    split <;> rfl
  have hcsum : (r.fromRow R).csum = r.csum := by
    unfold File.fromRow
    split <;> rfl
  exact
    { name := by simpa using ht.name
      override := by simpa using ht.override
      stamp := by simpa using ht.stamp
      csum := ht.csum.trans hcsum.symm
      failed := ht.failed.trans hfailed.symm
      changed := .inl (by rw [← ht.fromRow_changed, h.read])
      checked := by simpa using ht.checked
      generated := by simpa using ht.generated }

theorem changed (h : ReadAgain disk R db f₀ f) : f.changedRunid = f₀.changedRunid := by
  obtain ⟨r, hr, ht⟩ := h.traced
  have hstart := h.start
  rw [← h.id, Db.byId, hr] at hstart
  rw [← Option.some.inj hstart, ← ht.fromRow_changed, h.read]

/-- The dependencies, read while the walk is under way. -/
theorem deps (h : ReadAgain disk R db f₀ f) {db' : Db}
    (hs : Along db (Traced disk R db fun _ => False) db') :
    ∀ p ∈ db'.depsOf R f, ∃ g₀, (p.1, g₀) ∈ db.depsOf R f₀ ∧ ReadAgain disk R db g₀ p.2 := by
  rintro ⟨m, g⟩ hp
  obtain ⟨hov, hgen, d, hd, ht, hm, hsrc⟩ := Db.mem_depsOf.mp hp
  obtain ⟨r, hr, rfl⟩ := Option.map_eq_some_iff.mp hsrc
  obtain ⟨r₀, hr₀, htouched⟩ := hs.rows d.source r hr
  have hsrc₀ : db.byId R d.source = some (r₀.fromRow R) := by
    rw [Db.byId, hr₀]
    rfl
  have hgen₀ : f₀.isGenerated = true := by
    rcases h.touched.generated with hg | ⟨hg, -⟩
    · rw [← hg, hgen]
    · rw [hgen] at hg
      cases hg
  have hid₀ : (r₀.fromRow R).id = d.source := Db.byId_id hsrc₀
  have hid : (r.fromRow R).id = d.source := Db.byId_id hsrc
  refine ⟨r₀.fromRow R, Db.mem_depsOf.mpr ⟨h.touched.override.symm.trans hov, hgen₀, d, ?_, ?_, hm,
    hsrc₀⟩, hid.trans hid₀.symm, ?_, File.fromRow_fromRow R r, ?_⟩
  · rwa [← hs.deps]
  · rw [ht, h.id]
  · rw [hid]
    exact ⟨r₀, hr₀, htouched.fromRow⟩
  · rwa [hid₀]

end ReadAgain

theorem depLoop_ne_dirty_of_csum {walk : File → RunId → WalkState → Walked}
    (hcsum : f.csum.isSome = true) (deps : List (Char × File)) (mustBuild : List File)
    (s : WalkState) : (depLoop walk disk f deps mustBuild s).1 ≠ .ok .dirty := by
  induction deps generalizing mustBuild s with
  | nil =>
    rw [depLoop]
    cases mustBuild <;> simp
  | cons p rest ih =>
    rw [depLoop]
    split
    · simp
    · exact ih _ _
    · exact ih _ _
    · simp [Option.isNone_eq_false_iff.mpr hcsum]

/-- The loop is certain only where the answer for one of the dependencies is. -/
theorem depLoop_ne_dirty {P : FileId → File → Prop} {T G : FileId → Prop} {path : List FileId}
    {walk : File → RunId → WalkState → Walked} (hw : Obeys db T P G path walk)
    {deps : List (Char × File)} (hdeps : ∀ p ∈ deps, P p.2.id p.2 ∧ (p.1 = 'm' → T p.2.id))
    (hnot : ∀ p ∈ deps, ∀ s, Along db P s.db → (depDirty walk disk f p s).1 ≠ .ok .dirty)
    (mustBuild : List File) {s : WalkState} (hs : Along db P s.db) :
    (depLoop walk disk f deps mustBuild s).1 ≠ .ok .dirty := by
  induction deps generalizing mustBuild s with
  | nil =>
    rw [depLoop]
    cases mustBuild <;> simp
  | cons p rest ih =>
    have ih' := fun mb {s} => @ih (fun q hq => hdeps q (List.mem_cons_of_mem p hq))
      (fun q hq => hnot q (List.mem_cons_of_mem p hq)) mb s
    obtain ⟨hp, hT⟩ := hdeps p List.mem_cons_self
    have halong := (depDirty_rule disk hw f hp hT hs).1
    have hanswer := hnot p List.mem_cons_self s hs
    rw [depLoop]
    generalize depDirty walk disk f p s = out at halong hanswer ⊢
    rcases out with ⟨_ | r, s'⟩
    · simp
    cases r with
    | clean => exact ih' mustBuild halong
    | dirty => exact absurd rfl hanswer
    | mustBuild v => exact ih' (mustBuild ++ v) halong

/-- What the loop asks for is asked for by the walks below it, unless the answer for one of the
dependencies is certain. -/
theorem depLoop_mustBuild {S : WalkState → Prop} {Q : FileId → Prop}
    {walk : File → RunId → WalkState → Walked} {deps : List (Char × File)}
    (hkeep : ∀ p ∈ deps, ∀ s, S s → S (depDirty walk disk f p s).2)
    (hdirty : ∀ p ∈ deps, ∀ s, S s → (depDirty walk disk f p s).1 = .ok .dirty → Q f.id)
    (hmust : ∀ p ∈ deps, ∀ s v, S s → (depDirty walk disk f p s).1 = .ok (.mustBuild v) →
      ∀ g ∈ v, Q g.id)
    {mustBuild : List File} (hmb : ∀ g ∈ mustBuild, Q g.id) {s : WalkState} (hs : S s)
    {v : List File} (h : (depLoop walk disk f deps mustBuild s).1 = .ok (.mustBuild v)) :
    ∀ g ∈ v, Q g.id := by
  induction deps generalizing mustBuild s with
  | nil =>
    rw [depLoop] at h
    cases mustBuild with
    | nil => cases h
    | cons g gs =>
      cases h
      exact hmb
  | cons p rest ih =>
    have ih' := fun {mb} (hmb : ∀ g ∈ mb, Q g.id) {s} (hs : S s) =>
      @ih (fun q hq => hkeep q (List.mem_cons_of_mem p hq))
        (fun q hq => hdirty q (List.mem_cons_of_mem p hq))
        (fun q hq => hmust q (List.mem_cons_of_mem p hq)) mb hmb s hs
    have hkept := hkeep p List.mem_cons_self s hs
    have hcertain := hdirty p List.mem_cons_self s hs
    have hasked := fun v => hmust p List.mem_cons_self s v hs
    rw [depLoop] at h
    generalize depDirty walk disk f p s = out at hkept hcertain hasked h
    rcases out with ⟨_ | r, s'⟩
    · cases h
    cases r with
    | clean => exact ih' hmb hkept h
    | dirty =>
      cases hc : f.csum with
      | none => simp [hc] at h
      | some c =>
        simp only [hc, Option.isNone_some, Bool.false_eq_true, if_false, Except.ok.injEq,
          DirtyResult.mustBuild.injEq] at h
        subst h
        intro g hg
        rw [List.mem_singleton.mp hg]
        exact hcertain rfl
    | mustBuild w =>
      refine ih' (fun g hg => ?_) hkept h
      rcases List.mem_append.mp hg with hg | hg
      · exact hmb g hg
      · exact hasked w rfl g hg

theorem forgetVanished_id (newstamp : Stamp) (f : File) (s : WalkState) :
    (forgetVanished R newstamp f s).1.id = f.id := by
  unfold forgetVanished
  split
  · exact refresh_id _ _ _
  · rfl

/-- A walk asks for nothing that is on its path. -/
theorem isdirty_mustBuild_not_mem {c : Closures} {fuel : ℕ} {path : List FileId} {s : WalkState}
    {v : List File} (h : (isdirty c disk R fuel f mx path s).result = .ok (.mustBuild v)) :
    ∀ g ∈ v, g.id ∉ path := by
  induction fuel generalizing f mx path s v with
  | zero => simp [isdirty] at h
  | succ fuel ih =>
    rw [isdirty] at h
    split at h
    · cases h
    rename_i hpath
    have hnot : f.id ∉ path := by simpa using hpath
    split_ifs at h with hfailed hnone hlate hchecked hnost hmismatch
    · cases h
    · cases h
    · cases h
    · cases h
    · cases h
    · have hid := forgetVanished_id (R := R) (disk.readStamp f.name) f s
      generalize forgetVanished R (disk.readStamp f.name) f s = out at h hid
      simp only [Except.ok.injEq] at h
      split at h
      · cases h
        intro g hg
        rw [List.mem_singleton.mp hg, hid]
        exact hnot
      · cases h
    · have hloop : ∀ v, (depLoop (fun f2 mx s => isdirty c disk R fuel f2 mx (path ++ [f.id]) s)
          disk f (s.db.depsOf R f) [] s).1 = .ok (.mustBuild v) → ∀ g ∈ v, g.id ∉ path := by
        intro v hv
        refine depLoop_mustBuild (S := fun _ => True) (Q := (· ∉ path)) (fun _ _ _ _ => trivial)
          (fun _ _ _ _ _ => hnot) (fun p _ s v _ hv g hg => ?_) (by simp) trivial hv
        unfold depDirty at hv
        split_ifs at hv with hc hexists hm
        · cases hv
        · cases hv
        · exact fun hmem => ih hv g hg (List.mem_append_left _ hmem)
        · cases hv
      generalize depLoop _ disk f (s.db.depsOf R f) [] s = out at hloop h
      rcases out with ⟨_ | r, s'⟩
      · cases h
      cases r with
      | clean => cases h
      | dirty => cases h
      | mustBuild w => exact hloop v h

/-- No answer for a dependency is certain where the walk is not. -/
theorem ReadAgain.depDirty_ne_dirty (h : ReadAgain disk R db f₀ f) {db' : Db}
    (hs : Along db (Traced disk R db fun _ => False) db')
    (habsent : ∀ g, ('c', g) ∈ db.depsOf R f₀ → disk.pathExists g.name = false)
    (hdeps : ∀ g, ('m', g) ∈ db.depsOf R f₀ → Steady disk R db f.lastSeen g)
    {walk : File → RunId → WalkState → Walked}
    (hw : ∀ {g g₀ s}, Steady disk R db f.lastSeen g₀ → ReadAgain disk R db g₀ g →
      Along db (Traced disk R db fun _ => False) s.db →
        (walk g f.lastSeen s).result ≠ .ok .dirty)
    (p : Char × File) (hp : p ∈ db'.depsOf R f) {s : WalkState}
    (hs' : Along db (Traced disk R db fun _ => False) s.db) :
    (depDirty walk disk f p s).1 ≠ .ok .dirty := by
  obtain ⟨g, hg, hagain⟩ := h.deps hs p hp
  obtain ⟨m, f2⟩ := p
  unfold depDirty
  split_ifs with hc hexists hm
  · obtain rfl : m = 'c' := hc
    rw [show disk.pathExists f2.name = false from hagain.touched.name ▸ habsent g hg] at hexists
    cases hexists
  · simp
  · obtain rfl : m = 'm' := hm
    exact hw (hdeps g hg) hagain hs'
  · simp

theorem along_self (disk : Disk) (R : RunId) (db : Db) :
    Along db (Traced disk R db fun _ => False) db :=
  ⟨rfl, fun _ => rfl, fun x r hr => ⟨r, hr, Touched.refl disk R _ x r⟩⟩

theorem ReadAgain.self (disk : Disk) (hf : db.byId R f.id = some f) : ReadAgain disk R db f f := by
  obtain ⟨r, hr, hsnap⟩ := Option.map_eq_some_iff.mp hf
  have htouched := (Touched.refl disk R (fun _ => False) f.id r).fromRow
  rw [hsnap] at htouched
  refine ⟨rfl, ⟨r, hr, htouched⟩, ?_, hf⟩
  rw [← hsnap]
  exact File.fromRow_fromRow R r

theorem noBlocked : Blocked disk R db fun _ => False := fun _ _ hN => hN.elim

namespace Steady

/-- The induction is on the budget. The rows change on the way, but only by marks and where a target
has vanished, and such a target has a checksum. -/
theorem isdirty_ne_dirty {fuel : ℕ} {path : List FileId} {s : WalkState} {root : FileId}
    (h : Steady disk R db mx f₀) (hread : ReadAgain disk R db f₀ f)
    (hs : Along db (Traced disk R db fun _ => False) s.db) (hroot : f.id = root ∨ root ∈ path) :
    (isdirty (builderClosures R preflight) disk R fuel f mx path s).result ≠ .ok .dirty := by
  induction fuel generalizing f₀ f mx path s with
  | zero => simp [isdirty]
  | succ fuel ih =>
    have ht := hread.touched
    have hfailed : f.failedRunid = none := ht.failed.trans h.notFailed
    have hchanged : f.changedRunid.isSome = true := by
      rw [hread.changed]
      exact h.changed
    have hnotAfter : f.changedRunid.getD 0 ≤ mx := by
      rw [hread.changed]
      exact h.notAfter
    have hstamp : f.stamp.isSome = true ∨ f.isChecked R = true := by
      cases h with
      | checked _ _ _ mark => exact .inr (ht.isChecked mark)
      | summed _ _ _ stamp _ => exact .inl (by rwa [ht.stamp])
      | walked _ _ _ stamp _ _ => exact .inl (by rw [ht.stamp, stamp]; rfl)
    rw [isdirty]
    split
    · simp
    rw [if_neg (by simp [hfailed]), if_neg (by simpa [Option.isSome_iff_ne_none] using hchanged),
      if_neg (not_lt.mpr hnotAfter)]
    split
    · simp
    rename_i hopen
    simp only [builderClosures, Bool.not_eq_true, Bool.or_eq_false_iff] at hopen
    have hsome : f.stamp.isSome = true := hstamp.resolve_right (by simp [hopen.1])
    rw [if_neg (by simpa [Option.isSome_iff_ne_none] using hsome)]
    have hrule : WalkRule disk R preflight db root (fun _ => True)
        (Traced disk R db fun _ => False) (fun _ => ¬False) :=
      noBlocked.walkRule (fun _ _ => not_false) root
    by_cases hmismatch : f.stamp = some (disk.readStamp f.name)
    · rw [if_neg (not_not.mpr hmismatch)]
      have hloop : (depLoop (fun f2 mx s => isdirty (builderClosures R preflight) disk R fuel f2 mx
          (path ++ [f.id]) s) disk f (s.db.depsOf R f) [] s).1 ≠ .ok .dirty := by
        cases h with
        | checked _ _ _ mark => simp [ht.isChecked mark] at hopen
        | summed _ _ _ _ csum => exact depLoop_ne_dirty_of_csum (by rwa [ht.csum]) _ _ _
        | walked _ _ _ _ absent deps =>
          have hmem : root ∈ path ++ [f.id] := by
            rcases hroot with rfl | hmem
            · simp
            · exact List.mem_append_left _ hmem
          have hseen : f.lastSeen = f₀.lastSeen := by
            have hchecked : f.checkedRunid = f₀.checkedRunid :=
              ht.checked.resolve_right fun hc => by simp [File.isChecked, hc.1] at hopen
            rw [File.lastSeen, File.lastSeen, hread.changed, hchecked]
          have hobeys : Obeys db (fun _ => True) (Traced disk R db fun _ => False) (fun _ => ¬False)
              (path ++ [f.id]) fun f2 mx2 s2 =>
                isdirty (builderClosures R preflight) disk R fuel f2 mx2 (path ++ [f.id]) s2 :=
            fun f2 mx2 s2 hs2 hT2 hf2 =>
              isdirty_rule hrule fuel _ f2 mx2 s2 hs2 hT2 hf2 (.inr hmem)
          refine depLoop_ne_dirty hobeys (depsOf_rule hrule hs trivial) (fun p hp s2 hs2 => ?_) [] hs
          refine hread.depDirty_ne_dirty hs absent (hseen ▸ deps) (fun hg hagain hs2 => ?_) p hp hs2
          exact ih hg hagain hs2 (.inr hmem)
      generalize depLoop _ disk f (s.db.depsOf R f) [] s = out at hloop ⊢
      rcases out with ⟨_ | r, s'⟩
      · simp
      cases r with
      | clean => simp
      | dirty => exact absurd rfl hloop
      | mustBuild v => simp
    · rw [if_pos hmismatch]
      cases h with
      | checked _ _ _ mark => simp [ht.isChecked mark] at hopen
      | summed _ _ _ _ csum =>
        obtain ⟨-, -, r, hr, htraced⟩ :=
          forgetVanished_rule hrule hs hread.traced hfailed hopen.1 hmismatch
        obtain ⟨r', hr', hold⟩ := hread.traced
        rw [hr] at hr'
        cases hr'
        have hcsum : (forgetVanished R (disk.readStamp f.name) f s).1.csum.isSome = true := by
          rw [htraced.csum, ← hold.csum, ht.csum]
          exact csum
        simp [hcsum]
      | walked _ _ _ stamp _ _ =>
        rw [ht.stamp, ht.name] at hmismatch
        exact absurd stamp hmismatch

theorem not_dirty (h : Steady disk R db mx f) (hf : db.byId R f.id = some f) :
    (isdirtyDefault preflight disk R db f mx).result ≠ .ok .dirty :=
  h.isdirty_ne_dirty (.self disk hf) (along_self disk R db) (.inl rfl)

/-- A walk that starts where nothing is certain does not ask for the file itself. -/
theorem mustBuild_ne (hf : db.byId R f.id = some f) (hstamp : f.stamp = some (disk.readStamp f.name))
    (habsent : ∀ g, ('c', g) ∈ db.depsOf R f → disk.pathExists g.name = false)
    (hdeps : ∀ g, ('m', g) ∈ db.depsOf R f → Steady disk R db f.lastSeen g) {v : List File}
    (h : (isdirtyDefault preflight disk R db f mx).result = .ok (.mustBuild v)) :
    ∀ g ∈ v, g.id ≠ f.id := by
  have hrule : WalkRule disk R preflight db f.id (fun _ => True)
      (Traced disk R db fun _ => False) (fun _ => ¬False) :=
    noBlocked.walkRule (fun _ _ => not_false) f.id
  have hstart := along_self disk R db
  have hread := ReadAgain.self disk hf
  have hobeys : Obeys db (fun _ => True) (Traced disk R db fun _ => False) (fun _ => ¬False)
      [f.id] fun f2 mx2 s2 =>
        isdirty (builderClosures R preflight) disk R db.files.length f2 mx2 [f.id] s2 :=
    fun f2 mx2 s2 hs2 hT2 hf2 => isdirty_rule hrule _ _ f2 mx2 s2 hs2 hT2 hf2 (.inr (by simp))
  have hloop : ∀ v, (depLoop (fun f2 mx s => isdirty (builderClosures R preflight) disk R
      db.files.length f2 mx [f.id] s) disk f (db.depsOf R f) [] { db }).1 = .ok (.mustBuild v) →
        ∀ g ∈ v, g.id ≠ f.id := by
    intro v hv
    refine depLoop_mustBuild (S := fun s => Along db (Traced disk R db fun _ => False) s.db)
      (Q := (· ≠ f.id)) (fun p hp s hs => ?_) (fun p hp s hs hcertain => ?_)
      (fun p hp s v hs hv g hg => ?_) (by simp) hstart hv
    · have hp' := depsOf_rule hrule (s := { db }) hstart (f := f) trivial p hp
      exact (depDirty_rule disk hobeys f hp'.1 hp'.2 hs).1
    · refine absurd hcertain ?_
      refine hread.depDirty_ne_dirty hstart habsent hdeps (fun hg hagain hs2 => ?_) p hp hs
      exact hg.isdirty_ne_dirty hagain hs2 (.inr (List.mem_singleton.mpr rfl))
    · unfold depDirty at hv
      split_ifs at hv with hc hexists hm
      · cases hv
      · cases hv
      · exact fun heq => isdirty_mustBuild_not_mem hv g hg (by simp [heq])
      · cases hv
  rw [isdirtyDefault, budget, isdirty] at h
  simp only [List.contains_nil, List.nil_append, Bool.false_eq_true, if_false] at h
  split_ifs at h with hfailed hnone hlate hchecked hnost hmismatch
  · cases h
  · cases h
  · cases h
  · cases h
  · cases h
  · exact absurd hstamp hmismatch
  · exact absurd hstamp hmismatch
  · generalize depLoop _ disk f (db.depsOf R f) [] { db } = out at hloop h
    rcases out with ⟨_ | r, s'⟩
    · cases h
    cases r with
    | clean => cases h
    | dirty => cases h
    | mustBuild w => exact hloop v h

end Steady

end Redo.Dirtiness
