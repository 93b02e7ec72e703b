import Redo.Dirtiness.Preservation

/-! # Files that no walk finds clean

A file is overdue if it was neither built nor checked in this run and depends on a file that
counts as changed in this run, or on an overdue one. Whatever the walk writes, overdue files
stay overdue.
-/
namespace Redo.Dirtiness
open State

/-- Every snapshot of the row counts as changed in the run. -/
def ChangedNow (R : RunId) (r : File) : Prop := r.name = ALWAYS ∨ R ≤ r.changedRunid.getD 0

/-- The files of `N` are targets that are overdue. -/
structure Overdue (R : RunId) (db : Db) (N : FileId → Prop) : Prop where
  target : ∀ {x r}, N x → db.lookup x = some r →
    r.name ≠ ALWAYS ∧ r.isGenerated = true ∧ r.isOverride = false
  old : ∀ {x r}, N x → db.lookup x = some r → r.lastSeen < R
  dep : ∀ {x}, N x → ∃ d ∈ db.deps, d.target = x ∧ d.mode = 'm' ∧
    ∃ s, db.lookup d.source = some s ∧ (ChangedNow R s ∨ N d.source)

/-- What the walk leaves of a row: what counts as changed does so still, and an overdue row is
as old as before, and still a target's unless it is at odds with the file. -/
structure OverdueRow (disk : Disk) (R : RunId) (db₀ : Db) (N : FileId → Prop) (x : FileId)
    (r : File) : Prop where
  name : ∃ r₀, db₀.lookup x = some r₀ ∧ r.name = r₀.name
  changed : ∀ r₀, db₀.lookup x = some r₀ → ChangedNow R r₀ → ChangedNow R r
  old : N x → r.lastSeen < R
  target : N x → r.name ≠ ALWAYS ∧ r.isOverride = false ∧
    (r.isGenerated = true ∨ r.stamp ≠ some (disk.readStamp r.name))

variable {disk : Disk} {R : RunId} {db : Db} {N : FileId → Prop}

theorem ChangedNow.le {r : File} (h : ChangedNow R r) (hr : r.fromRow R = r) :
    R ≤ r.changedRunid.getD 0 := by
  rcases h with h | h
  · by_contra hlt
    have hold : r.changedRunid.all (· < R) := by
      cases hc : r.changedRunid with
      | none => rfl
      | some c => simpa [hc] using hlt
    rw [File.fromRow, if_pos ⟨h, hold⟩] at hr
    rw [← hr] at hlt
    exact hlt (le_refl R)
  · exact h

theorem ChangedNow.fromRow {r : File} (h : ChangedNow R r) : ChangedNow R (r.fromRow R) := by
  rcases h with h | h
  · exact Or.inl ((r.fromRow_name R).trans h)
  · right
    rw [File.fromRow]
    split
    · exact le_refl R
    · exact h

theorem isChecked_of_lastSeen_lt {r : File} (h : r.lastSeen < R) : r.isChecked R = false := by
  have hlt : r.checkedRunid.getD 0 < R := lt_of_le_of_lt (le_max_right _ _) h
  cases hc : r.checkedRunid with
  | none => simp [File.isChecked, hc]
  | some c => simpa [File.isChecked, hc] using hlt

/-- To come clean out of an overdue file, the walk has to find a dependency of it old. -/
theorem Overdue.not_cleanBelow (h : Overdue R db N) {root : FileId} {f : File} (hf : N f.id)
    (hrow : OverdueRow disk R db N f.id f) :
    ¬CleanBelow disk R db root (OverdueRow disk R db N) (fun x => ¬N x) f := by
  intro hbelow
  obtain ⟨-, hov, hgen⟩ := hrow.target hf
  have hgen' : f.isGenerated = true := hgen.resolve_right fun hne => hne hbelow.stamp
  obtain ⟨d, hd, ht, hm, s, hs, hlate⟩ := h.dep hf
  obtain ⟨g, hg, -, hsnap, -, hnot, hle⟩ :=
    hbelow.clean hov hgen' d hd ht hm (by rw [hs]; rfl)
  have hlate' : ChangedNow R s := hlate.resolve_right hnot
  have hR := (hg.changed s hs hlate').le hsnap
  exact absurd (le_trans hR hle) (not_le.mpr (hrow.old hf))

theorem Overdue.walkRule (h : Overdue R db N) {preflight : List FileId}
    (hpre : ∀ x ∈ preflight, ¬N x) (root : FileId) :
    WalkRule disk R preflight db root (fun _ => True) (OverdueRow disk R db N)
      (fun x => ¬N x) where
  below _ _ _ _ := trivial
  fromRow {x r} hr :=
    { name := by simpa using hr.name
      changed := fun r₀ h₀ hc => (hr.changed r₀ h₀ hc).fromRow
      old := fun hx => by
        rw [File.fromRow_of_ne R r (hr.target hx).1]
        exact hr.old hx
      target := fun hx => by
        rw [File.fromRow_of_ne R r (hr.target hx).1]
        exact hr.target hx }
  saved {x f r} hf hr := by
    obtain ⟨r₀, h₀, hfn⟩ := hf.name
    obtain ⟨r₁, h₁, hrn⟩ := hr.name
    rw [h₀] at h₁
    cases h₁
    rwa [hrn, ← hfn]
  checked {f} _ hf _ _ hc hN := by
    rw [isChecked_of_lastSeen_lt (hf.old hN), Bool.false_or, List.contains_iff_mem] at hc
    exact hpre f.id hc hN
  clean {f} _ hf _ hbelow := by
    have hnot : ¬N f.id := fun hN => h.not_cleanBelow hN hf hbelow
    exact ⟨hnot, hf.name, hf.changed, fun hN => absurd hN hnot, fun hN => absurd hN hnot⟩
  forgotten {f} hf _ _ hstamp _ :=
    ⟨hf.name, hf.changed, hf.old, fun hN => ⟨(hf.target hN).1, (hf.target hN).2.1, Or.inr hstamp⟩⟩

theorem Overdue.rows (h : Overdue R db N) {x : FileId} {r : File} (hr : db.lookup x = some r) :
    OverdueRow disk R db N x r where
  name := ⟨r, hr, rfl⟩
  changed r₀ h₀ hc := by
    rw [hr] at h₀
    cases h₀
    exact hc
  old hx := h.old hx hr
  target hx := by
    obtain ⟨hname, hgen, hov⟩ := h.target hx hr
    exact ⟨hname, hov, Or.inl hgen⟩

/-- No walk finds an overdue file clean, and none makes it less overdue. -/
theorem Overdue.walk (h : Overdue R db N) {preflight : List FileId}
    (hpre : ∀ x ∈ preflight, ¬N x) {f : File} (hf : db.byId R f.id = some f) (mx : RunId) :
    RuleHolds db (OverdueRow disk R db N) (fun x => ¬N x) [] f mx
      (isdirtyDefault preflight disk R db f mx) :=
  isdirtyDefault_rule (h.walkRule hpre f.id) (fun _ _ hr => h.rows hr) trivial hf mx

theorem Overdue.not_clean (h : Overdue R db N) {preflight : List FileId}
    (hpre : ∀ x ∈ preflight, ¬N x) {f : File} (hf : db.byId R f.id = some f) (hN : N f.id)
    (mx : RunId) : (isdirtyDefault preflight disk R db f mx).result ≠ .ok .clean :=
  fun hclean => ((h.walk hpre hf mx).clean hclean).1 hN

end Redo.Dirtiness
