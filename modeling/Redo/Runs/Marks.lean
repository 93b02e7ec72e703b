import Redo.Dirtiness.Unsettled
import Redo.Runs.Events

/-! # Marks over whole runs

What every reachable project has in common: no mark is from a later run, a checked mark or a
checksum comes with a changed mark, and a dependency on `//ALWAYS` stays in the tables from the
call of `redo-always` to the next build.
-/
namespace Redo.Runs
open State Dirtiness Override Completion

theorem redoStamp_id (R : RunId) (csum : String) (f : File) : (redoStamp R csum f).id = f.id := by
  unfold redoStamp
  split <;> rfl

theorem redoStamp_name (R : RunId) (csum : String) (f : File) :
    (redoStamp R csum f).name = f.name := by
  unfold redoStamp
  split <;> rfl

/-- The marks of a row, or of a row that a builder holds. -/
structure Marks (c : Context) (x : FileId) (r : File) : Prop where
  changed : r.changedRunid.getD 0 ≤ c.R
  checked : r.checkedRunid.getD 0 ≤ c.R
  known : r.checkedRunid.isSome = true ∨ r.csum.isSome = true → r.changedRunid.isSome = true
  first : r.csum = none → r.isChecked c.R = true → c.foundClean x = true

/-- A row after a build of this run with code 0. -/
structure BuiltRow (R : RunId) (disk : Disk) (r : File) : Prop where
  notFailed : r.failedRunid = none
  changed : r.changedRunid.isSome = true
  stamp : r.stamp = some (disk.readStamp r.name)
  mark : r.isChecked R = true ∨ r.isChanged R = true

structure RowInv (c : Context) (x : FileId) (r : File) : Prop extends Marks c x r where
  name : r.name = ALWAYS ↔ x = ALWAYS_ID
  always : x = ALWAYS_ID → r.failedRunid = none ∧ r.isGenerated = false
  pending : c.calledAlways x = true → c.recorded x < c.R → r.isGenerated = true →
    r.isOverride = false → r.failedRunid.isSome = true ∨ r.lastSeen < c.R
  rebuilt : c.rebuilt x = true → BuiltRow c.R c.disk r

/-- The snapshot has the name of its row. -/
def Named (db : Db) (f : File) : Prop := ∀ r, db.lookup f.id = some r → r.name = f.name

structure HeldInv (c : Context) (db : Db) (x : FileId) (sf : File) : Prop extends Marks c x sf where
  id : sf.id = x
  notAlways : x ≠ ALWAYS_ID
  row : ∃ r, db.lookup x = some r ∧ r.name = sf.name
  notRebuilt : c.rebuilt x = false

def Declares (db : Db) (x : FileId) (P : Dep → Prop) : Prop :=
  ∃ d ∈ db.deps, d.target = x ∧ d.source = ALWAYS_ID ∧ d.mode = 'm' ∧ P d

structure Inv (c : Context) (db : Db) : Prop where
  positive : 0 < c.R
  absent : c.disk.readStamp ALWAYS = STAMP_MISSING
  always : (db.lookup ALWAYS_ID).isSome = true
  rows : ∀ {x r}, db.lookup x = some r → RowInv c x r
  held : ∀ {x sf}, c.building x = some sf → HeldInv c db x sf
  known : ∀ {x}, c.rebuilt x = true → (db.lookup x).isSome = true
  idle : ∀ {x}, c.building x = none → c.callsAlways x = false
  declared : ∀ {x}, c.calledAlways x = true → Declares db x fun _ => True
  current : ∀ {x}, c.callsAlways x = true → Declares db x (·.deleteMe = false)
  stamped : (∃ d ∈ db.deps, d.source = ALWAYS_ID) →
    ∀ r, db.lookup ALWAYS_ID = some r → r.stamp = some STAMP_MISSING

namespace Marks

variable {c : Context} {x : FileId} {f : File}

theorem lastSeen (h : Marks c x f) : f.lastSeen ≤ c.R := max_le h.changed h.checked

theorem setChanged (h : Marks c x f) : Marks c x (f.setChanged c.R) :=
  ⟨le_refl c.R, h.checked, fun _ => rfl, h.first⟩

theorem updateStamp (h : Marks c x f) (n : Stamp) : Marks c x (f.updateStamp c.R n) := by
  unfold File.updateStamp
  split
  · exact ⟨le_refl c.R, h.checked, fun _ => rfl, h.first⟩
  · exact h

theorem setFailed (h : Marks c x f) (n : Stamp) : Marks c x (f.setFailed c.R n) :=
  have hu := h.updateStamp n
  ⟨hu.changed, hu.checked, hu.known, hu.first⟩

theorem setStatic (h : Marks c x f) (n : Stamp) : Marks c x (f.setStatic c.R n) :=
  have hu := h.updateStamp n
  ⟨hu.changed, hu.checked, hu.known, hu.first⟩

theorem setOverride (h : Marks c x f) (n : Stamp) : Marks c x (f.setOverride c.R n) :=
  have hu := h.updateStamp n
  ⟨hu.changed, hu.checked, hu.known, hu.first⟩

theorem persist (h : Marks c x f) (present : Bool) :
    Marks c x (persistNewTargetIntent present f) := by
  unfold persistNewTargetIntent
  split
  · exact h
  · exact ⟨h.changed, h.checked, h.known, h.first⟩

theorem fromRow (h : Marks c x f) : Marks c x (f.fromRow c.R) := by
  unfold File.fromRow
  split
  · exact ⟨le_refl c.R, h.checked, fun _ => rfl, h.first⟩
  · exact h

theorem redoStamp (h : Marks c x f) (csum : String) : Marks c x (redoStamp c.R csum f) := by
  unfold Runs.redoStamp
  split
  · exact ⟨le_refl c.R, h.checked, fun _ => rfl, nofun⟩
  · rename_i hsame
    rw [ne_eq, not_not] at hsame
    refine ⟨h.changed, le_refl c.R, fun _ => h.known (Or.inr ?_), fun hnone => ?_⟩
    · rw [hsame]
      rfl
    · exact absurd (hsame.symm.trans hnone) (by simp)

theorem redoAlways (h : Marks c x f) : Marks c x (redoAlways c.R f) :=
  ⟨le_refl c.R, h.checked, fun _ => rfl, h.first⟩

theorem changed_of_marked (h : Marks c x f) (hm : Marked c.R f) :
    f.changedRunid.isSome = true := by
  rcases hm with hc | hc
  · apply h.known
    left
    cases hk : f.checkedRunid with
    | none => simp [File.isChecked, hk] at hc
    | some k => rfl
  · cases hk : f.changedRunid with
    | none => simp [File.isChanged, hk] at hc
    | some k => rfl

/-- A checksum may go where nothing was checked by it. -/
theorem dropCsum {g : File} (h : Marks c x f) (hchecked : g.checkedRunid = f.checkedRunid)
    (hchanged : g.changedRunid = f.changedRunid) (hnone : g.csum = none)
    (hf : f.csum = none ∨ f.isChecked c.R = false) : Marks c x g := by
  refine ⟨?_, ?_, ?_, ?_⟩
  · rw [hchanged]
    exact h.changed
  · rw [hchecked]
    exact h.checked
  · rw [hnone, hchecked, hchanged]
    exact fun hk => h.known (hk.imp_right nofun)
  · intro _ hc
    rw [File.isChecked, hchecked] at hc
    rcases hf with hcsum | hopen
    · exact h.first hcsum hc
    · exact absurd hc (by simpa [File.isChecked] using hopen)

/-- A hit is looked for only where there is no checksum. -/
theorem cacheHitRow (h : Marks c x f) (hcsum : f.csum = none) (n : Stamp) :
    Marks c x (cacheHitRow c.R n f) := by
  have hg : Marks c x { f with
      isGenerated := true, isOverride := false, failedRunid := none, csum := none } :=
    h.dropCsum rfl rfl rfl (Or.inl hcsum)
  exact hg.updateStamp n

theorem recordBuilt (h : Marks c x f) (n : Stamp) : Marks c x (recordBuilt c.R n f) := by
  by_cases hm : Marked c.R f
  · rw [recordBuilt_marked n hm]
    exact ⟨h.changed, h.checked, h.known, h.first⟩
  · rw [recordBuilt_unmarked n hm]
    have hopen : f.isChecked c.R = false := by
      simp only [Marked, not_or, Bool.not_eq_true] at hm
      exact hm.1
    have hg : Marks c x { f with csum := none } := h.dropCsum rfl rfl rfl (Or.inr hopen)
    exact ⟨le_refl c.R, hg.checked, fun _ => rfl, hg.first⟩

/-- What a walk writes keeps the marks in order; what it newly marks has been found clean. -/
theorem touched {c' : Context} {N : FileId → Prop} {r₀ r : File} (h : Marks c x r₀)
    (ht : Touched c.disk c.R N x r₀ r) (hR : c'.R = c.R)
    (hkept : c.foundClean x = true → c'.foundClean x = true)
    (hnew : r.isChecked c.R = true → r₀.isChecked c.R = false → c'.foundClean x = true) :
    Marks c' x r := by
  have hfrom := h.fromRow
  refine ⟨?_, ?_, ?_, ?_⟩
  · rw [hR]
    rcases ht.changed with heq | heq
    · rw [heq]
      exact h.changed
    · rw [heq]
      exact hfrom.changed
  · rw [hR]
    rcases ht.checked with heq | ⟨heq, -, -⟩
    · rw [heq]
      exact h.checked
    · rw [heq]
      exact le_refl c.R
  · rw [ht.csum]
    intro hk
    rcases ht.checked with heq | ⟨-, hs, -⟩
    · rw [heq] at hk
      exact ht.changed_isSome (h.known hk)
    · exact hs
  · rw [ht.csum, hR]
    intro hnone hchecked
    cases hold : r₀.isChecked c.R with
    | false => exact hnew hchecked hold
    | true => exact hkept (h.first hnone hold)

end Marks
end Redo.Runs
