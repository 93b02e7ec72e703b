import Redo.Dirtiness.Verdict

/-! # The writing walk follows the pure one

While `isdirty` runs, rows and snapshots drift away from what they were at its
start. Only two drifts occur: an up-to-date file is marked checked, and a vanished
target is turned into a source. Neither changes an answer, so the walk gives the
verdict of the table it started on.
-/
namespace Redo.Dirtiness
open State Library Relation

variable (c : Closures) (disk : Disk) (R : RunId) (db₀ : Db)

/-- A snapshot taken during the walk, against the snapshot `f₀` at its start. -/
inductive Drift (f₀ : File) : File → Prop where
  | same : Drift f₀ f₀
  | checked {mx : RunId} (h : UpToDate disk R db₀ mx f₀)
      (remembered : ∀ s, c.isChecked s (f₀.setChecked R) = true) : Drift f₀ (f₀.setChecked R)
  | forgotten (h : Vanished disk f₀) : Drift f₀ { f₀ with isGenerated := false }

/-- A row during the walk: untouched, or overwritten by a drifted snapshot. -/
inductive RowDrift (r₀ : File) : File → Prop where
  | same : RowDrift r₀ r₀
  | checked {mx : RunId} (h : UpToDate disk R db₀ mx (r₀.fromRow R))
      (remembered : ∀ s, c.isChecked s ((r₀.fromRow R).setChecked R) = true) :
      RowDrift r₀ ((r₀.fromRow R).setChecked R)
  | forgotten (h : Vanished disk (r₀.fromRow R)) :
      RowDrift r₀ { r₀.fromRow R with isGenerated := false }

/-- Found clean from somewhere. -/
def Settled (id : FileId) : Prop :=
  ∃ f mx, db₀.byId R id = some f ∧ UpToDate disk R db₀ mx f

/-- The state of a walk that started on `db₀`. -/
structure Evolved (s : WalkState) : Prop where
  deps : s.db.deps = db₀.deps
  size : s.db.files.length = db₀.files.length
  rows : ∀ id, Option.Rel (RowDrift c disk R db₀) (db₀.lookup id) (s.db.lookup id)
  cache : ∀ id ∈ s.cache, Settled disk R db₀ id

/-- What the comparison needs of a pair of closures. -/
structure Closures.Sound : Prop where
  isChecked : ∀ {s f₀ f}, Evolved c disk R db₀ s → db₀.byId R f₀.id = some f₀ →
    Drift c disk R db₀ f₀ f → c.isChecked s f = true → ∃ mx, UpToDate disk R db₀ mx f₀
  setChecked : ∀ {s f₀ f mx}, Evolved c disk R db₀ s → db₀.byId R f₀.id = some f₀ →
    UpToDate disk R db₀ mx f₀ → Drift c disk R db₀ f₀ f →
      Evolved c disk R db₀ (c.setChecked s f).2 ∧ Drift c disk R db₀ f₀ (c.setChecked s f).1

variable {c disk R db₀}

namespace Drift
variable {f₀ f : File}

@[simp] theorem id_eq (h : Drift c disk R db₀ f₀ f) : f.id = f₀.id := by cases h <;> rfl
@[simp] theorem name_eq (h : Drift c disk R db₀ f₀ f) : f.name = f₀.name := by cases h <;> rfl
@[simp] theorem csum_eq (h : Drift c disk R db₀ f₀ f) : f.csum = f₀.csum := by cases h <;> rfl
@[simp] theorem stamp_eq (h : Drift c disk R db₀ f₀ f) : f.stamp = f₀.stamp := by cases h <;> rfl

@[simp] theorem changedRunid_eq (h : Drift c disk R db₀ f₀ f) :
    f.changedRunid = f₀.changedRunid := by cases h <;> rfl

@[simp] theorem failedRunid_eq (h : Drift c disk R db₀ f₀ f) :
    f.failedRunid = f₀.failedRunid := by cases h <;> rfl

@[simp] theorem isOverride_eq (h : Drift c disk R db₀ f₀ f) :
    f.isOverride = f₀.isOverride := by cases h <;> rfl

/-- Past the stamp test, a file that the closures do not remember has not drifted. -/
theorem eq_of_stamp (h : Drift c disk R db₀ f₀ f) {s : WalkState} (hc : c.isChecked s f ≠ true)
    (hs : f₀.stamp = some (disk.readStamp f₀.name)) : f = f₀ := by
  cases h with
  | same => rfl
  | checked _ remembered => exact absurd (remembered s) hc
  | forgotten hv => exact absurd hs hv.mismatch

end Drift

/-- Reading a drifted row gives a drifted snapshot. -/
theorem RowDrift.drift {r₀ r : File} (h : RowDrift c disk R db₀ r₀ r) :
    Drift c disk R db₀ (r₀.fromRow R) (r.fromRow R) := by
  cases h with
  | same => exact .same
  | checked hu remembered =>
    rw [File.fromRow_with R r₀ ((r₀.fromRow R).setChecked R) (File.fromRow_name R r₀) rfl]
    exact .checked hu remembered
  | forgotten hv =>
    rw [File.fromRow_with R r₀ { r₀.fromRow R with isGenerated := false }
      (File.fromRow_name R r₀) rfl]
    exact .forgotten hv

theorem Drift.rowDrift {r₀ f : File} (h : Drift c disk R db₀ (r₀.fromRow R) f)
    (hf : f ≠ r₀.fromRow R) : RowDrift c disk R db₀ r₀ f := by
  cases h with
  | same => exact absurd rfl hf
  | checked hu remembered => exact .checked hu remembered
  | forgotten hv => exact .forgotten hv

namespace Evolved
variable {s : WalkState}

theorem start : Evolved c disk R db₀ { db := db₀ } where
  deps := rfl
  size := rfl
  rows id := by
    cases db₀.lookup id with
    | none => exact .none
    | some r => exact .some .same
  cache id h := by cases h

theorem byId (h : Evolved c disk R db₀ s) (id : FileId) :
    Option.Rel (Drift c disk R db₀) (db₀.byId R id) (s.db.byId R id) := by
  have hr := h.rows id
  unfold Db.byId
  cases h₀ : db₀.lookup id with
  | none =>
    rw [h₀] at hr
    cases h₁ : s.db.lookup id with
    | none => exact .none
    | some r => rw [h₁] at hr; cases hr
  | some r₀ =>
    rw [h₀] at hr
    cases h₁ : s.db.lookup id with
    | none => rw [h₁] at hr; cases hr
    | some r =>
      rw [h₁] at hr
      cases hr with
      | some hd => exact .some hd.drift

/-- Saving a drifted snapshot of a row that really drifted. -/
theorem save (h : Evolved c disk R db₀ s) {f₀ f : File} (hf₀ : db₀.byId R f₀.id = some f₀)
    (hd : Drift c disk R db₀ f₀ f) (hne : f ≠ f₀) :
    Evolved c disk R db₀ { s with db := s.db.save f } where
  deps := h.deps
  size := by rw [Db.save_length, h.size]
  rows id := by
    rw [Db.lookup_save]
    have hr := h.rows id
    by_cases hid : id = f.id
    · rw [if_pos hid]
      obtain ⟨r₀, hr₀, rfl⟩ := Option.map_eq_some_iff.mp hf₀
      rw [← hd.id_eq, ← hid] at hr₀
      rw [hr₀] at hr ⊢
      cases h₁ : s.db.lookup id with
      | none => rw [h₁] at hr; cases hr
      | some r =>
        rw [h₁] at hr
        cases hr with
        | some hrd =>
          have hname : r.name = f.name := by
            have hn := hrd.drift.name_eq
            simp only [File.fromRow_name] at hn
            rw [hn, hd.name_eq, File.fromRow_name]
          simp only [Option.map_some, hname]
          exact .some (hd.rowDrift hne)
    · rw [if_neg hid]
      exact hr
  cache := h.cache

/-- The dependencies of a file that has not drifted are drifted snapshots. -/
theorem depsOf (h : Evolved c disk R db₀ s) (f : File) :
    List.Forall₂ (fun p₀ p => p.1 = p₀.1 ∧ Drift c disk R db₀ p₀.2 p.2)
      (db₀.depsOf R f) (s.db.depsOf R f) := by
  unfold Db.depsOf
  rw [h.deps]
  split
  · exact .nil
  · induction db₀.deps with
    | nil => exact .nil
    | cons d ds ih =>
      rw [List.filterMap_cons, List.filterMap_cons]
      split_ifs with ht
      · have hr := h.byId d.source
        cases h₀ : db₀.byId R d.source with
        | none =>
          rw [h₀] at hr
          cases h₁ : s.db.byId R d.source with
          | none => exact ih
          | some g => rw [h₁] at hr; cases hr
        | some g₀ =>
          rw [h₀] at hr
          cases h₁ : s.db.byId R d.source with
          | none => rw [h₁] at hr; cases hr
          | some g =>
            rw [h₁] at hr
            cases hr with
            | some hd => exact .cons ⟨rfl, hd⟩ ih
      · exact ih

end Evolved

/-- A vanished target is saved as a source; a second visit finds it so. -/
theorem forgetVanished_drift {s : WalkState} {f₀ f : File} (h : Evolved c disk R db₀ s)
    (hf₀ : db₀.byId R f₀.id = some f₀) (hd : Drift c disk R db₀ f₀ f)
    (hfail : f₀.failedRunid = none) (hs : f₀.stamp ≠ some (disk.readStamp f₀.name)) :
    Evolved c disk R db₀ (forgetVanished R (disk.readStamp f.name) f s).2 ∧
      Drift c disk R db₀ f₀ (forgetVanished R (disk.readStamp f.name) f s).1 := by
  unfold forgetVanished
  split
  · rename_i hv
    obtain ⟨hmiss, hstamp, hgen⟩ := hv
    have hsame : f = f₀ := by
      cases hd with
      | same => rfl
      | checked hu _ =>
        cases hu with
        | intro _ _ _ hst => exact absurd hst hs
      | forgotten _ => cases hgen
    subst hsame
    have hvan : Vanished disk f := ⟨hgen, hfail, hstamp, hs, hmiss⟩
    have hf : ({ f with isGenerated := false, failedRunid := none } : File) =
        { f with isGenerated := false } := by rw [hfail]
    have hdr : Drift c disk R db₀ f { f with isGenerated := false } := .forgotten hvan
    have hne : ({ f with isGenerated := false } : File) ≠ f := by
      intro he
      rw [← he] at hgen
      cases hgen
    have hev := h.save hf₀ hdr hne
    rw [hf]
    refine ⟨hev, ?_⟩
    have hb := hev.byId f.id
    rw [hf₀] at hb
    simp only [Db.refresh]
    cases hq : (s.db.save { f with isGenerated := false }).byId R f.id with
    | none => exact hdr
    | some g =>
      rw [hq] at hb
      cases hb with
      | some hg => exact hg
  · exact ⟨h, hd⟩

variable (c disk R db₀) in
/-- What a call leaves behind, against the verdict on the starting table. -/
structure Follows (out : Except WalkError DirtyResult × WalkState)
    (v : Except WalkError Verdict) : Prop where
  verdict : out.1.map DirtyResult.verdict = v
  evolved : Evolved c disk R db₀ out.2
  files : ∀ l, out.1 = .ok (.mustBuild l) → ∀ g ∈ l,
    ∃ g₀, db₀.byId R g₀.id = some g₀ ∧ Drift c disk R db₀ g₀ g

theorem Follows.answer {s : WalkState} (h : Evolved c disk R db₀ s) (b : Bool) :
    Follows c disk R db₀ (.ok (if b then .dirty else .clean), s)
      (.ok (if b then .dirty else .clean)) where
  verdict := by cases b <;> rfl
  evolved := h
  files l hl := by cases b <;> cases hl

/-- Asking for `f` itself, hidden behind its checksum or not. -/
theorem Follows.self {s : WalkState} (h : Evolved c disk R db₀ s) {f₀ f : File}
    (hf₀ : db₀.byId R f₀.id = some f₀) (hd : Drift c disk R db₀ f₀ f) (b : Bool) :
    Follows c disk R db₀ (.ok (if b then .dirty else .mustBuild [f]), s)
      (.ok (if b then .dirty else .mustBuild [f₀.id])) where
  verdict := by
    cases b
    · simp [Except.map, DirtyResult.verdict, hd.id_eq]
    · rfl
  evolved := h
  files l hl := by
    cases b
    · cases hl
      intro g hg
      rw [List.mem_singleton.mp hg]
      exact ⟨f₀, hf₀, hd⟩
    · cases hl

variable {walk : File → RunId → WalkState → Walked}
  {walk₀ : File → RunId → Except WalkError Verdict} {f : File}

/-- The two walks agree below a dependency `g₀` of `f`. -/
theorem depDirty_follows {s : WalkState} {m : Char} {g₀ g : File}
    (h : Evolved c disk R db₀ s) (hd : Drift c disk R db₀ g₀ g)
    (hw : m = 'm' → Follows c disk R db₀ (walk g f.lastSeen s).out (walk₀ g₀ f.lastSeen)) :
    Follows c disk R db₀ (depDirty walk disk f (m, g) s) (depVerdict disk walk₀ f (m, g₀)) := by
  simp only [depDirty, depVerdict, hd.name_eq]
  split_ifs with hc he hm
  · exact .answer h true
  · exact .answer h false
  · exact hw hm
  · exact .answer h false

/-- The induction is on the dependencies still to visit, with the files collected so far. -/
theorem depLoop_follows {deps₀ deps : List (Char × File)} (hf : db₀.byId R f.id = some f)
    (hdeps : List.Forall₂ (fun p₀ p => p.1 = p₀.1 ∧ Drift c disk R db₀ p₀.2 p.2) deps₀ deps)
    (hw : ∀ p₀ ∈ deps₀, p₀.1 = 'm' → ∀ g s, Drift c disk R db₀ p₀.2 g → Evolved c disk R db₀ s →
      Follows c disk R db₀ (walk g f.lastSeen s).out (walk₀ p₀.2 f.lastSeen))
    {mustBuild : List File} (hmb : ∀ g ∈ mustBuild,
      ∃ g₀, db₀.byId R g₀.id = some g₀ ∧ Drift c disk R db₀ g₀ g)
    {s : WalkState} (hs : Evolved c disk R db₀ s) :
    Follows c disk R db₀ (depLoop walk disk f deps mustBuild s)
      (verdictLoop disk walk₀ f deps₀ (mustBuild.map (·.id))) := by
  induction hdeps generalizing mustBuild s with
  | nil =>
    rw [depLoop, verdictLoop]
    cases mustBuild with
    | nil => exact .answer hs false
    | cons g l =>
      refine ⟨rfl, hs, fun l' hl => ?_⟩
      cases hl
      exact hmb
  | @cons p₀ p deps₀ deps hp _ ih =>
    obtain ⟨m, g⟩ := p
    obtain ⟨m₀, g₀⟩ := p₀
    obtain ⟨rfl, hd⟩ : m = m₀ ∧ Drift c disk R db₀ g₀ g := hp
    have hstep : Follows c disk R db₀ (depDirty walk disk f (m, g) s)
        (depVerdict disk walk₀ f (m, g₀)) :=
      depDirty_follows hs hd fun hm => hw _ List.mem_cons_self hm g s hd hs
    have hrest : ∀ {mb : List File} {s' : WalkState},
        (∀ x ∈ mb, ∃ x₀, db₀.byId R x₀.id = some x₀ ∧ Drift c disk R db₀ x₀ x) →
        Evolved c disk R db₀ s' → Follows c disk R db₀ (depLoop walk disk f deps mb s')
          (verdictLoop disk walk₀ f deps₀ (mb.map (·.id))) :=
      fun hmb hs => ih (fun q hq => hw q (List.mem_cons_of_mem _ hq)) hmb hs
    rw [depLoop, verdictLoop]
    generalize depDirty walk disk f (m, g) s = out at hstep ⊢
    obtain ⟨hv, hev, hfs⟩ := hstep
    rw [← hv]
    rcases out with ⟨_ | r, s'⟩
    · exact ⟨rfl, hev, fun l hl => by cases hl⟩
    cases r with
    | clean => exact hrest hmb hev
    | dirty => exact .self hev hf .same f.csum.isNone
    | mustBuild v =>
      simp only [Except.map, DirtyResult.verdict, ← List.map_append]
      refine hrest (fun x hx => ?_) hev
      rcases List.mem_append.mp hx with hx | hx
      · exact hmb x hx
      · exact hfs v rfl x hx

/-- The walk gives the verdict of the table it started on, and leaves the tables evolved.
The tests are taken in the order of the source; memory is asked fifth, when the
first four already hold of an up-to-date file. -/
theorem isdirty_follows (hc : c.Sound disk R db₀) {fuel : ℕ} {f₀ f : File} {mx : RunId}
    {path : List FileId} {s : WalkState} (hs : Evolved c disk R db₀ s)
    (hf₀ : db₀.byId R f₀.id = some f₀) (hd : Drift c disk R db₀ f₀ f)
    (hroom : Room (db₀.files.map (·.id)) fuel path) (hl : LeadsTo (Edge R db₀) path f₀.id) :
    Follows c disk R db₀ (isdirty c disk R fuel f mx path s).out
        (verdict disk R db₀ fuel f₀ mx path) ∧
      Drift c disk R db₀ f₀ (isdirty c disk R fuel f mx path s).file := by
  induction fuel generalizing f₀ f mx path s with
  | zero => exact hroom.pos.elim
  | succ fuel ih =>
    rw [verdict, isdirty]
    simp only [hd.id_eq, hd.failedRunid_eq, hd.changedRunid_eq, hd.stamp_eq]
    by_cases hpath : path.contains f₀.id = true
    · rw [if_pos hpath, if_pos hpath]
      exact ⟨⟨rfl, hs, fun l hl => by cases hl⟩, hd⟩
    rw [if_neg hpath, if_neg hpath]
    by_cases hfail : f₀.failedRunid.isSome = true
    · rw [if_pos hfail, if_pos hfail]
      exact ⟨.answer hs true, hd⟩
    rw [if_neg hfail, if_neg hfail]
    by_cases hch : f₀.changedRunid.isNone = true
    · rw [if_pos hch, if_pos hch]
      exact ⟨.answer hs true, hd⟩
    rw [if_neg hch, if_neg hch]
    by_cases hmx : f₀.changedRunid.getD 0 > mx
    · rw [if_pos hmx, if_pos hmx]
      exact ⟨.answer hs true, hd⟩
    rw [if_neg hmx, if_neg hmx]
    by_cases hchk : c.isChecked s f = true
    · obtain ⟨mx', hu⟩ := hc.isChecked hs hf₀ hd hchk
      have hv := (hu.weaken (not_lt.mp hmx)).verdict_eq hroom hl hf₀
      rw [verdict, if_neg hpath, if_neg hfail, if_neg hch, if_neg hmx] at hv
      rw [if_pos hchk, hv]
      exact ⟨.answer hs false, hd⟩
    rw [if_neg hchk]
    by_cases hst : f₀.stamp.isNone = true
    · rw [if_pos hst, if_pos hst]
      exact ⟨.answer hs true, hd⟩
    rw [if_neg hst, if_neg hst]
    by_cases hmis : f₀.stamp ≠ some (disk.readStamp f₀.name)
    · have hg := forgetVanished_drift hs hf₀ hd (by simpa using hfail) hmis
      rw [if_pos hmis, hd.name_eq, if_pos hmis]
      rw [hd.name_eq] at hg
      refine ⟨?_, hg.2⟩
      have hself := Follows.self hg.1 hf₀ hg.2 f₀.csum.isNone
      cases hcs : f₀.csum with
      | none => simpa [Walked.out, hg.2.csum_eq, hcs] using hself
      | some x => simpa [Walked.out, hg.2.csum_eq, hcs] using hself
    obtain rfl := hd.eq_of_stamp hchk (not_not.mp hmis)
    rw [if_neg hmis, if_neg hmis]
    have hmem : f.id ∈ db₀.files.map (·.id) := Db.id_mem_of_byId hf₀
    have hloop : Follows c disk R db₀
        (depLoop (fun g mx s => isdirty c disk R fuel g mx (path ++ [f.id]) s) disk f
          (s.db.depsOf R f) [] s)
        (verdictLoop disk (fun g mx => verdict disk R db₀ fuel g mx (path ++ [f.id])) f
          (db₀.depsOf R f) []) := by
      refine depLoop_follows hf₀ (hs.depsOf f) (fun p₀ hp hm g s' hg hs' => ?_)
        (fun x hx => by cases hx) hs
      obtain ⟨m, g₀⟩ := p₀
      obtain rfl : m = 'm' := hm
      have he : Edge R db₀ f.id g₀.id := ⟨f, g₀, hf₀, hp, rfl⟩
      exact (ih hs' (Db.byId_of_mem_depsOf hp) hg (hroom.step (by simpa using hpath) hmem)
        (hl.step he)).1
    have hmeets : ∀ v, verdictLoop disk (fun g mx => verdict disk R db₀ fuel g mx (path ++ [f.id]))
        f (db₀.depsOf R f) [] = .ok v → LoopMeets disk R db₀ f (db₀.depsOf R f) [] v :=
      fun v hv => verdictLoop_meets (fun p _ v hv => verdict_meets hv) hv
    generalize depLoop (fun g mx s => isdirty c disk R fuel g mx (path ++ [f.id]) s) disk f
      (s.db.depsOf R f) [] s = out at hloop ⊢
    obtain ⟨hv, hev, hfs⟩ := hloop
    rcases out with ⟨_ | r, s'⟩
    · exact ⟨⟨hv, hev, hfs⟩, .same⟩
    cases r with
    | dirty => exact ⟨⟨hv, hev, hfs⟩, .same⟩
    | mustBuild v => exact ⟨⟨hv, hev, hfs⟩, .same⟩
    | clean =>
      have hu : UpToDate disk R db₀ mx f :=
        upToDate_iff.mpr ⟨by simpa using hfail, by simpa [Option.isSome_iff_ne_none] using hch,
          not_lt.mp hmx, not_not.mp hmis, (hmeets .clean hv.symm).2⟩
      have hset := hc.setChecked hev hf₀ hu .same
      exact ⟨⟨hv, hset.1, fun l hl => by cases hl⟩, hset.2⟩

end Redo.Dirtiness
