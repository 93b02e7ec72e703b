import Redo.Library.Upserts
import Redo.State.Files

/-! # Mark and sweep of dependencies

Before a build the rows of its target are marked, the build and its children write rows again, and
after it the marked ones go. Others write at the same time, to rows of their own.
-/
namespace Redo.State
open Library

/-- A statement of any process, on the two tables. -/
inductive Statement
  | byName (name : String)
  | save (f : File)
  | zapDeps1 (target : FileId)
  | zapDeps2 (target : FileId)
  | addDep (target : FileId) (mode : Char) (name : String)
deriving DecidableEq, Repr

namespace Db

def idOf (db : Db) (name : String) : Option FileId := (db.files.find? (·.name = name)).map (·.id)

/-- `insert or ignore into Files (name)`, which `File::by_name` leaves out for the empty name. -/
def insertName (db : Db) (name : String) : Db :=
  if name = "" ∨ (db.idOf name).isSome then db
  else { db with files := db.files ++ [{ id := (db.files.map (·.id)).foldl max 0 + 1, name }] }

/-- `add_dep` for a name that `File::by_name` has found its row for. Without one it is an error. -/
def addDepOf (db : Db) (target : FileId) (mode : Char) (name : String) : Db :=
  match db.idOf name with
  | some source => db.addDep target mode source
  | none => db

def step (db : Db) : Statement → Db
  | .byName name => db.insertName name
  | .save f => db.save f
  | .zapDeps1 target => db.zapDeps1 target
  | .zapDeps2 target => db.zapDeps2 target
  | .addDep target mode name => db.addDepOf target mode name

def run (db : Db) (l : List Statement) : Db := l.foldl step db

def rowsOf (db : Db) (target : FileId) : List Dep := db.deps.filter (·.target = target)

end Db

def Statement.zaps (target : FileId) : Statement → Bool
  | .zapDeps1 t => t = target
  | .zapDeps2 t => t = target
  | _ => false

/-- The row that a statement adds to the target. -/
def Statement.adds (db : Db) (target : FileId) : Statement → Option Dep
  | .addDep t mode name => if t = target then (db.idOf name).map fun source => { target, source, mode } else none
  | _ => none

/-- The rows that a run adds to the target, in their order. -/
def addedRows (target : FileId) : Db → List Statement → List Dep
  | _, [] => []
  | db, s :: l => (s.adds db target).toList ++ addedRows target (db.step s) l

variable {db : Db} {target u : FileId} {s : Statement} {l : List Statement}

theorem addDep_deps (db : Db) (target : FileId) (mode : Char) (source : FileId) :
    (db.addDep target mode source).deps =
      upsert (fun d : Dep => (d.target, d.source)) { target, source, mode } db.deps := by
  have hkey : ∀ d ∈ db.deps, decide (¬(d.target = target ∧ d.source = source)) =
      decide ((d.target, d.source) ≠ (target, source)) := by
    intro d _
    simp
  exact congrArg (· ++ _) (List.filter_congr hkey)

/-- Among the rows of one target the source is the key. -/
theorem rowsOf_addDep (db : Db) (target : FileId) (mode : Char) (source u : FileId) :
    (db.addDep target mode source).rowsOf u =
      if target = u then upsert Dep.source { target, source, mode } (db.rowsOf u) else db.rowsOf u := by
  rw [Db.rowsOf, addDep_deps]
  split_ifs with hu
  · subst hu
    have hnew : decide (({ target, source, mode } : Dep).target = target) = true := decide_eq_true rfl
    have hkey : ∀ d ∈ db.rowsOf target, decide ((d.target, d.source) ≠ (target, source)) =
        decide (d.source ≠ source) := by
      intro d hd
      have htarget : d.target = target := of_decide_eq_true (List.mem_filter.mp hd).2
      simp [htarget]
    exact (filter_upsert_pos (p := fun d : Dep => decide (d.target = target)) hnew).trans
      (congrArg (· ++ _) (List.filter_congr hkey))
  · refine filter_upsert_of_ne (decide_eq_false hu) fun d _ hd hkey => ?_
    exact hu ((congrArg Prod.fst hkey).symm.trans (of_decide_eq_true hd))

theorem rowsOf_zapDeps1 (h : target ≠ u) : (db.zapDeps1 target).rowsOf u = db.rowsOf u := by
  have hmark : ∀ d : Dep, (if d.target = target then { d with deleteMe := true } else d).target = d.target := by
    intro d
    split_ifs <;> rfl
  rw [Db.rowsOf, Db.zapDeps1, List.filter_map, Db.rowsOf]
  have hsame : ((fun d : Dep => decide (d.target = u)) ∘ fun d : Dep =>
      if d.target = target then { d with deleteMe := true } else d) = fun d => decide (d.target = u) := by
    ext d
    simp [hmark]
  rw [hsame]
  refine (List.map_congr_left fun d hd => ?_).trans (List.map_id _)
  have htarget : d.target = u := of_decide_eq_true (List.mem_filter.mp hd).2
  rw [if_neg fun he => h (he.symm.trans htarget)]
  rfl

theorem rowsOf_zapDeps2 (h : target ≠ u) : (db.zapDeps2 target).rowsOf u = db.rowsOf u := by
  rw [Db.rowsOf, Db.zapDeps2, List.filter_filter, Db.rowsOf]
  refine List.filter_congr fun d _ => ?_
  by_cases hd : d.target = u
  · simp [hd, Ne.symm h]
  · simp [hd]

theorem rowsOf_zapDeps2_self (db : Db) (target : FileId) :
    (db.zapDeps2 target).rowsOf target = (db.rowsOf target).filter (¬ ·.deleteMe) := by
  rw [Db.rowsOf, Db.zapDeps2, List.filter_filter, Db.rowsOf, List.filter_filter]
  refine List.filter_congr fun d _ => ?_
  by_cases hd : d.target = target <;> simp [hd]

/-- After the mark there is no row without it. -/
theorem rowsOf_zapDeps1_self (db : Db) (target : FileId) :
    ((db.zapDeps1 target).rowsOf target).filter (¬ ·.deleteMe) = [] := by
  refine List.filter_eq_nil_iff.mpr fun d hd => ?_
  obtain ⟨hmem, htarget⟩ := List.mem_filter.mp hd
  obtain ⟨d', -, rfl⟩ := List.mem_map.mp hmem
  by_cases hd' : d'.target = target
  · simp [hd']
  · simp [hd'] at htarget

theorem insertName_deps (db : Db) (name : String) : (db.insertName name).deps = db.deps := by
  unfold Db.insertName
  split_ifs <;> rfl

/-- What one statement does to the rows of a target that it does not zap. -/
theorem rowsOf_step (h : s.zaps u = false) :
    (db.step s).rowsOf u = upsertAll Dep.source (s.adds db u).toList (db.rowsOf u) := by
  cases s with
  | byName name => exact congrArg (List.filter _) (insertName_deps db name)
  | save f => rfl
  | zapDeps1 target => exact rowsOf_zapDeps1 (of_decide_eq_false h)
  | zapDeps2 target => exact rowsOf_zapDeps2 (of_decide_eq_false h)
  | addDep target mode name =>
    rw [Db.step, Db.addDepOf, Statement.adds]
    cases hid : db.idOf name with
    | none =>
      dsimp only [Option.map_none]
      rw [ite_self]
      rfl
    | some source =>
      dsimp only [Option.map_some]
      rw [rowsOf_addDep]
      split_ifs with hu
      · subst hu
        rfl
      · rfl

/-- In a run the rows of a target change by what is added to it alone. -/
theorem rowsOf_run (h : ∀ s ∈ l, s.zaps u = false) :
    (db.run l).rowsOf u = upsertAll Dep.source (addedRows u db l) (db.rowsOf u) := by
  induction l generalizing db with
  | nil => rfl
  | cons s l ih =>
    have hrest := @ih (db.step s) fun s' hs' => h s' (List.mem_cons_of_mem s hs')
    rw [rowsOf_step (h s List.mem_cons_self)] at hrest
    rw [addedRows, upsertAll, List.foldl_append]
    exact hrest

theorem added_deleteMe (target : FileId) (db : Db) (l : List Statement) :
    ∀ d ∈ addedRows target db l, d.deleteMe = false := by
  induction l generalizing db with
  | nil => exact fun d hd => absurd hd List.not_mem_nil
  | cons s l ih =>
    intro d hd
    rcases List.mem_append.mp hd with hd | hd
    · have hadds := Option.mem_toList.mp hd
      cases s with
      | addDep t mode name =>
        rw [Statement.adds] at hadds
        split_ifs at hadds
        obtain ⟨source, -, rfl⟩ := Option.map_eq_some_iff.mp hadds
        rfl
      | byName name => cases hadds
      | save f => cases hadds
      | zapDeps1 t => cases hadds
      | zapDeps2 t => cases hadds
    · exact ih (db.step s) d hd

/-- The whole span of a build: the mark, what anyone writes, and the sweep. -/
def Db.markAndSweep (db : Db) (target : FileId) (l : List Statement) : Db :=
  ((db.zapDeps1 target).run l).zapDeps2 target

/-- The rows of the target are those that were added, each as it was last. -/
theorem rowsOf_markAndSweep (h : ∀ s ∈ l, s.zaps target = false) :
    (db.markAndSweep target l).rowsOf target =
      upsertAll Dep.source (addedRows target (db.zapDeps1 target) l) [] := by
  have hlive : ∀ d ∈ addedRows target (db.zapDeps1 target) l, decide (¬ d.deleteMe) = true := by
    intro d hd
    simp [added_deleteMe target (db.zapDeps1 target) l d hd]
  rw [Db.markAndSweep, rowsOf_zapDeps2_self, rowsOf_run h, filter_upsertAll hlive, rowsOf_zapDeps1_self]

/-- The rows of the target are one for each file that was added, with the mode it was last added
with, and another target that is not zapped has its rows with what was added to it. -/
theorem markAndSweep_exact (h : ∀ s ∈ l, s.zaps target = false) :
    (∀ d, d ∈ (db.markAndSweep target l).rowsOf target ↔
      lastOf Dep.source (addedRows target (db.zapDeps1 target) l) d.source = some d) ∧
    (((db.markAndSweep target l).rowsOf target).map Dep.source).Nodup ∧
    ∀ u ≠ target, (∀ s ∈ l, s.zaps u = false) →
      (db.markAndSweep target l).rowsOf u =
        upsertAll Dep.source (addedRows u (db.zapDeps1 target) l) (db.rowsOf u) := by
  rw [rowsOf_markAndSweep h]
  refine ⟨fun d => mem_upsertAll_nil, keys_upsertAll List.nodup_nil, fun u hu hzap => ?_⟩
  rw [Db.markAndSweep, rowsOf_zapDeps2 hu.symm, rowsOf_run hzap, rowsOf_zapDeps1 hu.symm]

/-- The target 1 has the rows of 2 and 3, and 4 one of 2. Files 2 and 5 are added to 1, 2 twice. -/
def markedDb : Db where
  files := [{ id := 1, name := "t" }, { id := 2, name := "a" }, { id := 3, name := "b" }, { id := 4, name := "u" }]
  deps := [{ target := 1, source := 2, mode := 'm' }, { target := 1, source := 3, mode := 'm' },
    { target := 4, source := 2, mode := 'm' }]

def betweenZaps : List Statement :=
  [.addDep 1 'm' "a", .byName "new", .addDep 4 'c' "b", .zapDeps1 3, .addDep 1 'c' "new", .addDep 1 'c' "a"]

theorem markAndSweep_exact_marked :
    ({ target := 1, source := 2, mode := 'c' } : Dep) ∈ (markedDb.markAndSweep 1 betweenZaps).rowsOf 1 ∧
      (markedDb.markAndSweep 1 betweenZaps).rowsOf 4 =
        [{ target := 4, source := 2, mode := 'm' }, { target := 4, source := 3, mode := 'c' }] :=
  have hexact := @markAndSweep_exact markedDb 1 betweenZaps (by decide)
  ⟨(hexact.1 _).mpr (by decide +kernel),
    (hexact.2.2 4 (by decide) (by decide)).trans (by decide +kernel)⟩

end Redo.State
