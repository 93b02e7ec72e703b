import Redo.Dirtiness.Simulation

/-! # What `isdirty` computes

The builder's closures keep the comparison with the pure walk going, so
`isdirty_default` decides between up to date, hard-dirty and "build these
checksummed files first", and rewrites rows in two ways only.
-/
namespace Redo.Dirtiness
open State Library Relation

variable {disk : Disk} {R : RunId} {db : Db}

/-- What is asked for lies below `f` and hides behind a checksum. -/
theorem verdictLoop_mustBuild {P : FileId → Prop}
    {walk : File → RunId → Except WalkError Verdict} {f : File} {deps : List (Char × File)}
    (hf : f.csum.isSome → P f.id)
    (hw : ∀ p ∈ deps, p.1 = 'm' → ∀ v, walk p.2 f.lastSeen = .ok (.mustBuild v) → ∀ id ∈ v, P id)
    {mustBuild ids : List FileId} (hmb : ∀ id ∈ mustBuild, P id)
    (h : verdictLoop disk walk f deps mustBuild = .ok (.mustBuild ids)) : ∀ id ∈ ids, P id := by
  induction deps generalizing mustBuild with
  | nil =>
    rw [verdictLoop] at h
    split at h
    · cases h
    · cases h
      exact hmb
  | cons p rest ih =>
    have ih' := fun {mb} => @ih (fun q hq => hw q (List.mem_cons_of_mem p hq)) mb
    rw [verdictLoop] at h
    split at h
    · cases h
    · exact ih' hmb h
    · rename_i v hv
      refine ih' (fun id hid => ?_) h
      rcases List.mem_append.mp hid with hid | hid
      · exact hmb id hid
      · have hm : p.1 = 'm' := by
          rw [depVerdict] at hv
          split_ifs at hv with hc he hm
          · cases hv
          · cases hv
          · exact hm
          · cases hv
        have hc : p.1 ≠ 'c' := by
          rw [hm]
          decide
        rw [depVerdict, if_neg hc, if_pos hm] at hv
        exact hw p List.mem_cons_self hm v hv id hid
    · cases hc : f.csum with
      | none =>
        rw [hc] at h
        cases h
      | some x =>
        rw [hc] at h
        cases h
        intro id hid
        rw [List.mem_singleton.mp hid]
        exact hf (by simp [hc])

theorem verdict_mustBuild {fuel : ℕ} {f : File} {mx : RunId} {path ids : List FileId}
    (hf : db.byId R f.id = some f) (h : verdict disk R db fuel f mx path = .ok (.mustBuild ids)) :
    ∀ id ∈ ids, ∃ g, db.byId R id = some g ∧ g.csum.isSome ∧
      ReflTransGen (Edge R db) f.id id := by
  induction fuel generalizing f mx path ids with
  | zero => cases h
  | succ fuel ih =>
    rw [verdict] at h
    split_ifs at h with h1 h2 h3 h4 h5 h6 h7
    · cases h
    · cases h
    · cases h
    · cases h
    · cases h
      intro id hid
      rw [List.mem_singleton.mp hid]
      exact ⟨f, hf, h7, .refl⟩
    · cases h
    · refine verdictLoop_mustBuild (fun hc => ⟨f, hf, hc, .refl⟩) (fun p hp hm v hv id hid => ?_)
        (fun id hid => by cases hid) h
      obtain ⟨m, g⟩ := p
      obtain rfl : m = 'm' := hm
      obtain ⟨x, hx, hc, hr⟩ := ih (Db.byId_of_mem_depsOf hp) hv id hid
      exact ⟨x, hx, hc, .head ⟨f, g, hf, hp, rfl⟩ hr⟩

/-- No row is marked checked in this run. -/
def NoneChecked (R : RunId) (db : Db) : Prop := ∀ r ∈ db.files, r.isChecked R = false

theorem NoneChecked.byId (h : NoneChecked R db) {id : FileId} {f : File}
    (hf : db.byId R id = some f) : f.isChecked R = false := by
  obtain ⟨r, hr, rfl⟩ := Option.map_eq_some_iff.mp hf
  rw [File.isChecked, File.fromRow_checkedRunid]
  exact h r (List.mem_of_find?_eq_some hr)

theorem isChecked_setChecked (R : RunId) (f : File) : (f.setChecked R).isChecked R = true := by
  simp [File.isChecked, File.setChecked]

theorem Drift.setChecked_eq {c : Closures} {f₀ f : File} {mx : RunId} (h : Drift c disk R db f₀ f)
    (hu : UpToDate disk R db mx f₀) : f.setChecked R = f₀.setChecked R := by
  cases h with
  | same => rfl
  | checked _ _ => rfl
  | forgotten hv => exact absurd hv hu.not_vanished

/-- The builder remembers in the rows, and trusts the preflight set. -/
theorem builderClosures_sound {preflight : List FileId} (h : NoneChecked R db)
    (hp : ∀ id ∈ preflight, Settled disk R db id) :
    (builderClosures R preflight).Sound disk R db where
  isChecked {s f₀ f} _ hf₀ hd hc := by
    simp only [builderClosures, Bool.or_eq_true, List.contains_iff_mem] at hc
    rcases hc with hc | hc
    · cases hd with
      | same => simp [h.byId hf₀] at hc
      | checked hu _ => exact ⟨_, hu⟩
      | forgotten _ =>
        have hf := h.byId hf₀
        rw [File.isChecked] at hf hc
        simp [hf] at hc
    · rw [hd.id_eq] at hc
      obtain ⟨g, mx, hg, hu⟩ := hp _ hc
      obtain rfl : f₀ = g := Option.some.inj (hf₀.symm.trans hg)
      exact ⟨mx, hu⟩
  setChecked {s f₀ f mx} hs hf₀ hu hd := by
    have hd' : Drift (builderClosures R preflight) disk R db f₀ (f₀.setChecked R) :=
      .checked hu fun s => by simp [builderClosures, isChecked_setChecked]
    have hne : f₀.setChecked R ≠ f₀ := by
      intro he
      have hc := isChecked_setChecked R f₀
      rw [he, h.byId hf₀] at hc
      cases hc
    simp only [builderClosures, hd.setChecked_eq hu]
    exact ⟨hs.save hf₀ hd' hne, hd'⟩

/-- The two ways in which the walk may rewrite a row; writing it back also
writes the changed mark that `fromRow` gives to `//ALWAYS`. -/
inductive RowChange (disk : Disk) (R : RunId) (db : Db) (r : File) : File → Prop where
  | same : RowChange disk R db r r
  | checked {mx : RunId} (h : UpToDate disk R db mx (r.fromRow R)) :
      RowChange disk R db r { r.fromRow R with checkedRunid := some R }
  | forgotten (h : Vanished disk (r.fromRow R)) :
      RowChange disk R db r { r.fromRow R with isGenerated := false }

theorem RowDrift.rowChange {c : Closures} {r₀ r : File} (h : RowDrift c disk R db r₀ r) :
    RowChange disk R db r₀ r := by
  cases h with
  | same => exact .same
  | checked hu _ => exact .checked hu
  | forgotten hv => exact .forgotten hv

theorem Evolved.rowChange {c : Closures} {s : WalkState} (h : Evolved c disk R db s) (id : FileId) :
    Option.Rel (RowChange disk R db) (db.lookup id) (s.db.lookup id) := by
  have hr := h.rows id
  generalize db.lookup id = a at hr ⊢
  generalize s.db.lookup id = b at hr ⊢
  cases hr with
  | none => exact .none
  | some hd => exact .some hd.rowChange

theorem Room.budget (db : Db) : Room (db.files.map (·.id)) (budget db) [] := by
  simpa [Dirtiness.budget] using Room.start (db.files.map (·.id))

theorem isdirtyDefault_follows {preflight : List FileId} (h : NoneChecked R db)
    (hp : ∀ id ∈ preflight, Settled disk R db id) {f : File} (hf : db.byId R f.id = some f)
    (mx : RunId) :
    Follows (builderClosures R preflight) disk R db
      (isdirtyDefault preflight disk R db f mx).out (verdict disk R db (budget db) f mx []) :=
  (isdirty_follows (builderClosures_sound h hp) .start hf .same (Room.budget db)
    (leadsTo_nil f.id)).1

/-- The three answers of `isdirty_default`, and all that it writes. -/
theorem isdirtyDefault_spec (disk : Disk) (R : RunId) (db : Db) (f : File) (mx : RunId)
    (hf : db.byId R f.id = some f) (hacyclic : AcyclicFrom R db f.id)
    (hchecked : NoneChecked R db) :
    let w := isdirtyDefault [] disk R db f mx
    (w.result = .ok .clean ↔ UpToDate disk R db mx f) ∧
    (w.result = .ok .dirty ↔ HardDirty disk R db mx f) ∧
    (¬UpToDate disk R db mx f → ¬HardDirty disk R db mx f →
      ∃ l, w.result = .ok (.mustBuild l) ∧ l ≠ [] ∧
        ∀ g ∈ l, g.csum.isSome ∧ ReflTransGen (Edge R db) f.id g.id) ∧
    (∀ id, Option.Rel (RowChange disk R db) (db.lookup id) (w.state.db.lookup id)) ∧
    w.state.db.deps = db.deps := by
  intro w
  have hw : Follows (builderClosures R []) disk R db w.out
      (verdict disk R db (budget db) f mx []) :=
    isdirtyDefault_follows hchecked (fun id hid => by cases hid) hf mx
  obtain ⟨v, hv⟩ : ∃ v, verdict disk R db (budget db) f mx [] = .ok v :=
    verdict_total (Room.budget db) hacyclic (leadsTo_nil f.id) hf
  have hm : Meets disk R db mx f v := verdict_meets hv
  obtain ⟨r, hr, rfl⟩ : ∃ r, w.result = .ok r ∧ r.verdict = v := by
    have hres : w.result.map DirtyResult.verdict = .ok v := hw.verdict.trans hv
    cases hr : w.result with
    | error e => rw [hr] at hres; cases hres
    | ok r => rw [hr] at hres; exact ⟨r, rfl, Except.ok.inj hres⟩
  rw [hr]
  refine ⟨?_, ?_, ?_, hw.evolved.rowChange, hw.evolved.deps⟩
  · cases r with
    | clean => exact iff_of_true rfl hm
    | dirty => exact iff_of_false (by simp) fun hu => hu.not_hardDirty hm
    | mustBuild l => exact iff_of_false (by simp) hm.1
  · cases r with
    | clean => exact iff_of_false (by simp) (UpToDate.not_hardDirty hm)
    | dirty => exact iff_of_true rfl hm
    | mustBuild l => exact iff_of_false (by simp) hm.2.1
  · intro hu hh
    cases r with
    | clean => exact absurd hm hu
    | dirty => exact absurd hm hh
    | mustBuild l =>
      refine ⟨l, rfl, fun hl => hm.2.2 (by rw [hl]; rfl), fun g hg => ?_⟩
      obtain ⟨g₀, hg₀, hd⟩ := hw.files l hr g hg
      have hid : g.id ∈ l.map (·.id) := List.mem_map_of_mem hg
      obtain ⟨x, hx, hc, hreach⟩ := verdict_mustBuild hf hv g.id hid
      rw [hd.id_eq, hg₀] at hx
      obtain rfl := Option.some.inj hx
      exact ⟨by rw [hd.csum_eq]; exact hc, hreach⟩

/-- A target over two others that share one source, all built in run 3. -/
def diamondDb : Db where
  files := [
    { id := 1, name := "top", isGenerated := true, changedRunid := some 3, stamp := some "9" },
    { id := 2, name := "left", isGenerated := true, changedRunid := some 3, stamp := some "9" },
    { id := 3, name := "right", isGenerated := true, changedRunid := some 3, stamp := some "9" },
    { id := 4, name := "in", changedRunid := some 2, stamp := some "9" }]
  deps := [⟨1, 2, 'm', false⟩, ⟨1, 3, 'm', false⟩, ⟨2, 4, 'm', false⟩, ⟨3, 4, 'm', false⟩]

def diamondTop : File :=
  { id := 1, name := "top", isGenerated := true, changedRunid := some 3, stamp := some "9" }

/-- Every file still has the stamp of run 3. -/
def quietDisk : Disk := ⟨fun _ => "9", fun _ => true⟩

theorem isdirtyDefault_spec_diamond :
    (isdirtyDefault [] quietDisk 5 diamondDb diamondTop 5).result = .ok .clean ∧
      UpToDate quietDisk 5 diamondDb 5 diamondTop := by
  have hclean : (isdirtyDefault [] quietDisk 5 diamondDb diamondTop 5).result = .ok .clean := rfl
  have hspec := isdirtyDefault_spec quietDisk 5 diamondDb diamondTop 5 (by decide)
    (acyclicFrom_of_lt (by decide) _) (by unfold NoneChecked; decide)
  exact ⟨hclean, hspec.1.mp hclean⟩

end Redo.Dirtiness
