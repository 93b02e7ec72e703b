import Redo.Dirtiness.Walk
import Redo.Library.Relations

/-! # What the dirtiness walk is meant to compute

`UpToDate` and `HardDirty` are the two certain answers, defined over a fixed
`Files`/`Deps` table and a fixed file system. No file is both, and an up-to-date
file reaches no cycle of 'm' dependencies.
-/
namespace Redo.Dirtiness
open State Library Relation

variable (disk : Disk) (R : RunId) (db : Db)

/-- A recorded 'm' dependency between two rows. -/
def Edge (a b : FileId) : Prop :=
  ∃ f g, db.byId R a = some f ∧ ('m', g) ∈ db.depsOf R f ∧ g.id = b

/-- No cycle of 'm' dependencies can be reached from this file. -/
def AcyclicFrom (a : FileId) : Prop := ∀ b, ReflTransGen (Edge R db) a b → ¬TransGen (Edge R db) b b

inductive UpToDate : RunId → File → Prop where
  | intro {mx : RunId} {f : File} (notFailed : f.failedRunid = none)
      (changed : f.changedRunid.isSome) (notAfter : f.changedRunid.getD 0 ≤ mx)
      (stamp : f.stamp = some (disk.readStamp f.name))
      (absent : ∀ g, ('c', g) ∈ db.depsOf R f → disk.pathExists g.name = false)
      (deps : ∀ g, ('m', g) ∈ db.depsOf R f → UpToDate f.lastSeen g) : UpToDate mx f

inductive HardDirty : RunId → File → Prop where
  | failed {mx : RunId} {f : File} (h : f.failedRunid.isSome) : HardDirty mx f
  | neverChanged {mx : RunId} {f : File} (h : f.changedRunid = none) : HardDirty mx f
  | changedAfter {mx : RunId} {f : File} (h : mx < f.changedRunid.getD 0) : HardDirty mx f
  | noStamp {mx : RunId} {f : File} (h : f.stamp = none) : HardDirty mx f
  | stampMismatch {mx : RunId} {f : File} (hc : f.csum = none)
      (h : f.stamp ≠ some (disk.readStamp f.name)) : HardDirty mx f
  | created {mx : RunId} {f g : File} (hc : f.csum = none) (hg : ('c', g) ∈ db.depsOf R f)
      (h : disk.pathExists g.name = true) : HardDirty mx f
  | dep {mx : RunId} {f g : File} (hc : f.csum = none) (hg : ('m', g) ∈ db.depsOf R f)
      (h : HardDirty f.lastSeen g) : HardDirty mx f

/-- A target whose file is gone although a stamp was recorded for it. -/
structure Vanished (f : File) : Prop where
  generated : f.isGenerated = true
  notFailed : f.failedRunid = none
  stamp : f.stamp.isSome
  mismatch : f.stamp ≠ some (disk.readStamp f.name)
  missing : disk.readStamp f.name = STAMP_MISSING

variable {disk R db}

theorem Edge.dep {a b : FileId} (h : Edge R db a b) :
    ∃ d ∈ db.deps, d.target = a ∧ d.source = b ∧ d.mode = 'm' := by
  obtain ⟨f, g, hf, hg, rfl⟩ := h
  obtain ⟨-, -, d, hd, ht, hm, hs⟩ := Db.mem_depsOf.mp hg
  exact ⟨d, hd, ht.trans (Db.byId_id hf), (Db.byId_id hs).symm, hm⟩

/-- A table whose dependencies all go up in the ids has no cycle. -/
theorem acyclicFrom_of_lt (h : ∀ d ∈ db.deps, d.target < d.source) (a : FileId) :
    AcyclicFrom R db a := by
  have hlt : ∀ {x y}, TransGen (Edge R db) x y → x < y := by
    intro x y hxy
    induction hxy with
    | single he =>
      obtain ⟨d, hd, rfl, rfl, -⟩ := he.dep
      exact h d hd
    | tail _ he ih =>
      obtain ⟨d, hd, rfl, rfl, -⟩ := he.dep
      exact Nat.lt_trans ih (h d hd)
  exact fun b _ hb => Nat.lt_irrefl b (hlt hb)

theorem UpToDate.not_hardDirty {mx : RunId} {f : File} (h : UpToDate disk R db mx f) :
    ¬HardDirty disk R db mx f := by
  induction h with
  | @intro mx f notFailed changed notAfter stamp absent deps ih =>
    intro hd
    cases hd with
    | failed h => simp [notFailed] at h
    | neverChanged h => simp [h] at changed
    | changedAfter h => exact absurd notAfter (not_le.mpr h)
    | noStamp h => simp [h] at stamp
    | stampMismatch _ h => exact h stamp
    | created _ hg h => simp [absent _ hg] at h
    | dep _ hg h => exact ih _ hg h

theorem UpToDate.weaken {mx mx' : RunId} {f : File} (h : UpToDate disk R db mx f)
    (hc : f.changedRunid.getD 0 ≤ mx') : UpToDate disk R db mx' f := by
  cases h with
  | intro notFailed changed _ stamp absent deps =>
    exact .intro notFailed changed hc stamp absent deps

theorem UpToDate.not_vanished {mx : RunId} {f : File} (h : UpToDate disk R db mx f) :
    ¬Vanished disk f := by
  cases h with
  | intro _ _ _ stamp _ _ => exact fun hv => hv.mismatch stamp

theorem UpToDate.acc {mx : RunId} {f : File} (h : UpToDate disk R db mx f)
    (hf : db.byId R f.id = some f) : Acc (Function.swap (Edge R db)) f.id := by
  induction h with
  | @intro mx f _ _ _ _ _ deps ih =>
    constructor
    rintro b ⟨f', g, hf', hg, rfl⟩
    obtain rfl : f = f' := Option.some.inj (hf.symm.trans hf')
    exact ih g hg (Db.byId_of_mem_depsOf hg)

theorem UpToDate.acyclic {mx : RunId} {f : File} (h : UpToDate disk R db mx f)
    (hf : db.byId R f.id = some f) : AcyclicFrom R db f.id := by
  intro b hb ht
  have ha : Acc (Function.swap (Edge R db)) b := by
    rcases reflTransGen_iff_eq_or_transGen.mp hb with rfl | hb
    · exact h.acc hf
    · exact (h.acc hf).inv_of_transGen (transGen_swap.mpr hb)
  exact not_transGen_of_acc ha (transGen_swap.mpr ht)

end Redo.Dirtiness
