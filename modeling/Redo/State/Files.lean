import Mathlib.Data.Int.Order.Basic
import Mathlib.Tactic.Common

/-! # The `Files` and `Deps` tables

One row of `Files` per path name, one row of `Deps` per (target, source) pair,
and the setters of a `File` snapshot. A snapshot is read from its row by
`fromRow` and written back whole by `Db.save`; nothing else ties the two.
-/
namespace Redo.State

abbrev FileId := ℕ
abbrev RunId := ℤ
abbrev Stamp := String

/-- The name of the row that `redo-always` depends on. -/
def ALWAYS : String := "//ALWAYS"
def STAMP_DIR : Stamp := "dir"
def STAMP_MISSING : Stamp := "0"

/-- A row of `Files`, and the snapshot of it that a process works on. -/
structure File where
  id : FileId
  name : String
  isGenerated : Bool := false
  isOverride : Bool := false
  checkedRunid : Option RunId := none
  changedRunid : Option RunId := none
  failedRunid : Option RunId := none
  stamp : Option Stamp := none
  csum : Option String := none
deriving DecidableEq, Repr

/-- A row of `Deps`. -/
structure Dep where
  target : FileId
  source : FileId
  mode : Char
  deleteMe : Bool := false
deriving DecidableEq, Repr

structure Db where
  files : List File := []
  deps : List Dep := []
deriving DecidableEq, Repr

/-- What a process sees of the file system: the stamp of a base-relative name
and whether the path exists (following symbolic links). -/
structure Disk where
  readStamp : String → Stamp
  pathExists : String → Bool

namespace File

/-- `//ALWAYS` counts as changed in the current run, whatever its row says. -/
def fromRow (runid : RunId) (r : File) : File :=
  if r.name = ALWAYS ∧ r.changedRunid.all (· < runid) then
    { r with changedRunid := some runid }
  else r

def setChecked (runid : RunId) (f : File) : File := { f with checkedRunid := some runid }

def setChanged (runid : RunId) (f : File) : File :=
  { f with changedRunid := some runid, failedRunid := none, isOverride := false }

/-- `update_stamp(false)`, given the stamp just read. -/
def updateStamp (runid : RunId) (newstamp : Stamp) (f : File) : File :=
  if f.stamp.getD "" ≠ newstamp then setChanged runid { f with stamp := some newstamp } else f

def setFailed (runid : RunId) (newstamp : Stamp) (f : File) : File :=
  let g := f.updateStamp runid newstamp
  { g with failedRunid := some runid, isGenerated := g.stamp ≠ some STAMP_MISSING }

/-- `set_static` of a file that exists; `update_stamp(true)` bails out on a missing one. -/
def setStatic (runid : RunId) (newstamp : Stamp) (f : File) : File :=
  { f.updateStamp runid newstamp with
    failedRunid := none, isOverride := false, isGenerated := false }

def setOverride (runid : RunId) (newstamp : Stamp) (f : File) : File :=
  { f.updateStamp runid newstamp with failedRunid := none, isOverride := true }

def isChecked (runid : RunId) (f : File) : Bool := f.checkedRunid.any (runid ≤ ·)
def isChanged (runid : RunId) (f : File) : Bool := f.changedRunid.any (runid ≤ ·)
def isFailed (runid : RunId) (f : File) : Bool := f.failedRunid.any (runid ≤ ·)

/-- The bound under which a file's dependencies must have changed for it to be clean. -/
def lastSeen (f : File) : RunId := max (f.changedRunid.getD 0) (f.checkedRunid.getD 0)

@[simp] theorem fromRow_id (R : RunId) (r : File) : (fromRow R r).id = r.id := by
  unfold fromRow; split <;> rfl

@[simp] theorem fromRow_name (R : RunId) (r : File) : (fromRow R r).name = r.name := by
  unfold fromRow; split <;> rfl

@[simp] theorem fromRow_checkedRunid (R : RunId) (r : File) :
    (fromRow R r).checkedRunid = r.checkedRunid := by
  unfold fromRow; split <;> rfl

@[simp] theorem fromRow_isGenerated (R : RunId) (r : File) :
    (fromRow R r).isGenerated = r.isGenerated := by
  unfold fromRow; split <;> rfl

@[simp] theorem fromRow_isOverride (R : RunId) (r : File) :
    (fromRow R r).isOverride = r.isOverride := by
  unfold fromRow; split <;> rfl

@[simp] theorem fromRow_stamp (R : RunId) (r : File) : (fromRow R r).stamp = r.stamp := by
  unfold fromRow; split <;> rfl

@[simp] theorem updateStamp_id (R : RunId) (n : Stamp) (f : File) :
    (f.updateStamp R n).id = f.id := by
  unfold updateStamp; split <;> rfl

@[simp] theorem updateStamp_name (R : RunId) (n : Stamp) (f : File) :
    (f.updateStamp R n).name = f.name := by
  unfold updateStamp; split <;> rfl

@[simp] theorem setFailed_id (R : RunId) (n : Stamp) (f : File) : (f.setFailed R n).id = f.id :=
  updateStamp_id R n f

@[simp] theorem setFailed_name (R : RunId) (n : Stamp) (f : File) :
    (f.setFailed R n).name = f.name :=
  updateStamp_name R n f

/-- After `update_stamp` there is a stamp. -/
theorem updateStamp_stamp {n : Stamp} (hn : n ≠ "") (R : RunId) (f : File) :
    (f.updateStamp R n).stamp = some n := by
  unfold updateStamp
  by_cases h : f.stamp.getD "" = n
  · rw [if_neg (not_not.mpr h)]
    cases hs : f.stamp with
    | none =>
      rw [hs] at h
      exact absurd h.symm hn
    | some m => simpa [hs] using h
  · rw [if_pos h]
    rfl

/-- Only the changed mark of `//ALWAYS` differs between a row and its snapshot. -/
theorem fromRow_of_ne (R : RunId) (r : File) (h : r.name ≠ ALWAYS) : fromRow R r = r := by
  simp [fromRow, h]

/-- Reading back a saved snapshot gives the snapshot, as long as the changed mark is kept. -/
theorem fromRow_with (R : RunId) (r g : File) (hn : g.name = r.name)
    (hc : g.changedRunid = (fromRow R r).changedRunid) : fromRow R g = g := by
  unfold fromRow at hc ⊢
  split at hc
  · simp only at hc
    rw [if_neg]
    simp [hc]
  · rename_i h
    rw [if_neg]
    rwa [hn, hc]

theorem fromRow_fromRow (R : RunId) (r : File) : (fromRow R r).fromRow R = fromRow R r :=
  fromRow_with R r (fromRow R r) (fromRow_name R r) rfl

/-- A save keeps the name of the row, so two snapshots of one row are saved alike only
if they are equal. -/
theorem eq_of_with_name {f g : File} {n : String} (hname : f.name = g.name)
    (h : ({ f with name := n } : File) = { g with name := n }) : f = g := by
  cases f
  cases g
  simp only [mk.injEq] at h hname ⊢
  exact ⟨h.1, hname, h.2.2⟩

end File

namespace Db

def lookup (db : Db) (id : FileId) : Option File := db.files.find? (·.id = id)

/-- The row with this id as a fresh snapshot. -/
def byId (db : Db) (R : RunId) (id : FileId) : Option File := (db.lookup id).map (File.fromRow R)

/-- `File::save`: every column of the row is overwritten from the snapshot. -/
def save (db : Db) (f : File) : Db :=
  { db with files := db.files.map fun r => if r.id = f.id then { f with name := r.name } else r }

def refresh (db : Db) (R : RunId) (f : File) : File := (db.byId R f.id).getD f

/-- `File::deps`: the join of `Deps` with `Files`; sources and overridden files have none. -/
def depsOf (db : Db) (R : RunId) (f : File) : List (Char × File) :=
  if f.isOverride ∨ ¬f.isGenerated then []
  else db.deps.filterMap fun d =>
    if d.target = f.id then (db.byId R d.source).map (d.mode, ·) else none

def zapDeps1 (db : Db) (id : FileId) : Db :=
  { db with deps := db.deps.map fun d => if d.target = id then { d with deleteMe := true } else d }

def zapDeps2 (db : Db) (id : FileId) : Db :=
  { db with deps := db.deps.filter fun d => ¬(d.target = id ∧ d.deleteMe) }

/-- `insert or replace` on the key (target, source). -/
def addDep (db : Db) (target : FileId) (mode : Char) (source : FileId) : Db :=
  { db with deps := db.deps.filter (fun d => ¬(d.target = target ∧ d.source = source)) ++
      [{ target, source, mode }] }

theorem lookup_id {db : Db} {id : FileId} {r : File} (h : db.lookup id = some r) : r.id = id := by
  simpa using List.find?_some h

theorem byId_id {db : Db} {R : RunId} {id : FileId} {f : File} (h : db.byId R id = some f) :
    f.id = id := by
  obtain ⟨r, hr, rfl⟩ := Option.map_eq_some_iff.mp h
  simpa using lookup_id hr

theorem id_mem_of_byId {db : Db} {R : RunId} {f : File} (h : db.byId R f.id = some f) :
    f.id ∈ db.files.map (·.id) := by
  obtain ⟨r, hr, -⟩ := Option.map_eq_some_iff.mp h
  exact List.mem_map.mpr ⟨r, List.mem_of_find?_eq_some hr, lookup_id hr⟩

theorem lookup_save (db : Db) (f : File) (id : FileId) :
    (db.save f).lookup id =
      if id = f.id then (db.lookup id).map fun r => { f with name := r.name } else db.lookup id := by
  unfold lookup save
  induction db.files with
  | nil => simp
  | cons r rs ih =>
    have hid : (if r.id = f.id then { f with name := r.name } else r).id = r.id := by
      split <;> simp_all
    rw [List.map_cons, List.find?_cons, List.find?_cons, hid, ih]
    by_cases hr : r.id = id
    · subst hr
      by_cases hf : r.id = f.id <;> simp [hf]
    · simp [hr]

theorem lookup_save_self {db : Db} {f r : File} {id : FileId} (hf : f.id = id)
    (h : db.lookup id = some r) : (db.save f).lookup id = some { f with name := r.name } := by
  rw [lookup_save, if_pos hf.symm, h]
  rfl

theorem lookup_save_of_ne {db : Db} {f : File} {id : FileId} (h : id ≠ f.id) :
    (db.save f).lookup id = db.lookup id := by
  rw [lookup_save, if_neg h]

@[simp] theorem save_deps (db : Db) (f : File) : (db.save f).deps = db.deps := rfl

@[simp] theorem save_length (db : Db) (f : File) : (db.save f).files.length = db.files.length := by
  simp [save]

theorem mem_depsOf {db : Db} {R : RunId} {f g : File} {m : Char} :
    (m, g) ∈ db.depsOf R f ↔ f.isOverride = false ∧ f.isGenerated = true ∧
      ∃ d ∈ db.deps, d.target = f.id ∧ d.mode = m ∧ db.byId R d.source = some g := by
  unfold depsOf
  split
  · rename_i h
    simp only [List.not_mem_nil, false_iff, not_and]
    intro ho hg
    simp [ho, hg] at h
  · rename_i h
    simp only [Bool.not_eq_true, not_or] at h
    simp only [List.mem_filterMap, h, true_and]
    constructor
    · rintro ⟨d, hd, hx⟩
      split at hx
      · rename_i ht
        obtain ⟨g', hg', he⟩ := Option.map_eq_some_iff.mp hx
        obtain ⟨rfl, rfl⟩ := Prod.mk.inj he
        exact ⟨d, hd, ht, rfl, hg'⟩
      · cases hx
    · rintro ⟨d, hd, ht, rfl, hs⟩
      exact ⟨d, hd, by simp [ht, hs]⟩

/-- Dependencies are rows of the table. -/
theorem byId_of_mem_depsOf {db : Db} {R : RunId} {f g : File} {m : Char}
    (h : (m, g) ∈ db.depsOf R f) : db.byId R g.id = some g := by
  obtain ⟨-, -, d, -, -, -, hs⟩ := mem_depsOf.mp h
  rwa [byId_id hs]

end Db
end Redo.State
