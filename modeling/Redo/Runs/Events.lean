import Mathlib.Logic.Function.Basic
import Mathlib.Logic.Relation
import Redo.Cache.Schedule
import Redo.Completion.Commit
import Redo.Dirtiness.Walk

/-! # Runs, one event at a time

The processes of a run take turns at the tables; users and recipes change files in between. Next
to the tables a project keeps what its processes hold in memory, and what has happened so far that
the tables do not tell.
-/
namespace Redo.Runs
open State Dirtiness Override Completion

/-- The row that is there from the creation of the tables on. -/
abbrev ALWAYS_ID : FileId := 1

/-- All but the tables. -/
structure Context where
  R : RunId
  disk : Disk
  /-- The row that the builder of a target holds while it is being built. -/
  building : FileId → Option File := fun _ => none
  /-- Has the recipe called `redo-always` in the build under way? -/
  callsAlways : FileId → Bool := fun _ => false
  /-- Did it in the last build? -/
  calledAlways : FileId → Bool := fun _ => false
  /-- The run in which the last build was recorded, by `redo-stamp` or when it ended. -/
  recorded : FileId → RunId := fun _ => 0
  /-- Was the last attempt made in this run, and did it end with code 0? -/
  rebuilt : FileId → Bool := fun _ => false
  /-- Has a walk of this run found the file clean? -/
  foundClean : FileId → Bool := fun _ => false

structure Project extends Context where
  db : Db

inductive Event where
  /-- `ensure_runid` of a new toplevel command. -/
  | newRun (R : RunId)
  | edit (disk : Disk)
  /-- `by_name` of a name that has no row yet. -/
  | insert (id : FileId) (name : String)
  | isdirty (f : File) (maxChanged : RunId)
  /-- `build_one` or `schedule_build_one`, up to the start of the recipe. -/
  | attempt (q : Cache.Request)
  | cacheHit (id : FileId)
  /-- A dependency is missing for the key of the cache. -/
  | giveUp (id : FileId)
  /-- The recipe calls `redo-ifchange`. -/
  | ifchange (id source : FileId)
  | ifcreate (id source : FileId)
  | always (id : FileId)
  | stamp (id : FileId) (csum : String)
  /-- Completion, by `build_one` or as a scheduled job; what it has renamed is in place. -/
  | finish (i : Input) (scheduled : Bool) (disk : Disk)
  /-- The builder is killed or ends with an error. -/
  | die (id : FileId)

/-- What `redo-stamp` does to the row of the current target. -/
def redoStamp (R : RunId) (csum : String) (f : File) : File :=
  let g := { f with isGenerated := true, isOverride := false, failedRunid := none }
  if f.csum ≠ some csum then { g.setChanged R with csum := some csum } else g.setChecked R

/-- What `redo-always` does to the row of `//ALWAYS`. -/
def redoAlways (R : RunId) (r : File) : File :=
  { r with stamp := some STAMP_MISSING, isGenerated := false }.setChanged R

/-- The tables after a cache hit: the dependencies are declared again. -/
def hitDb (R : RunId) (newstamp : Stamp) (sf : File) (db : Db) : Db :=
  (((db.depsOf R sf).foldl (fun db p => db.addDep sf.id p.1 p.2.id) db).zapDeps2 sf.id).save
    (cacheHitRow R newstamp (db.refresh R sf))

/-- How a completion ends. -/
def outcome (i : Input) (scheduled : Bool) : Outcome := if scheduled then i.schedule else i.buildOne

theorem outcome_commits {i : Input} {scheduled : Bool} (h : (outcome i scheduled).ended ≠ .error) :
    i.Commits (outcome i scheduled) := by
  cases scheduled with
  | true => exact Input.schedule_commits
  | false => exact Input.buildOne_commits h

/-- Without the cache nothing is asked of the store. -/
def noCalls : Cache.Calls := { buildOne := fun _ _ => none, restore := fun _ _ => false }

namespace Project

def marked (R : RunId) (db : Db) (x : FileId) : Bool := (db.lookup x).any (·.isChecked R)

def world (s : Project) : Cache.World := ⟨s.db, s.disk⟩

/-- What an attempt comes to. What has been a source before is a new target. -/
def attemptedBy (s : Project) (q : Cache.Request) : Cache.Outcome × Cache.World → Project
  | (.recipe, w) =>
    { s with
      db := w.db
      building := Function.update s.building q.sf.id (some (q.target s.world))
      calledAlways := Function.update s.calledAlways q.sf.id
        (s.calledAlways q.sf.id && (s.disk.pathExists q.sf.name || q.sf.isGenerated))
      rebuilt := Function.update s.rebuilt q.sf.id false }
  | (_, w) => { s with db := w.db, rebuilt := Function.update s.rebuilt q.sf.id false }

end Project

/-- The builder of a target is done with it; `called` is whether the build called
`redo-always`. -/
def Context.ended (c : Context) (id : FileId) (called : Bool) : Context :=
  { c with
    building := Function.update c.building id none
    callsAlways := Function.update c.callsAlways id false
    calledAlways := Function.update c.calledAlways id called
    recorded := Function.update c.recorded id c.R }

def Event.apply (s : Project) : Event → Project
  | .newRun R => { s with R, rebuilt := fun _ => false, foundClean := fun _ => false }
  | .edit disk => { s with disk }
  | .insert id name => { s with db := { s.db with files := s.db.files ++ [{ id, name }] } }
  | .isdirty f maxChanged =>
    let db := (isdirtyDefault [] s.disk s.R s.db f maxChanged).state.db
    { s with
      db
      foundClean := fun x =>
        s.foundClean x || (Project.marked s.R db x && !Project.marked s.R s.db x) }
  | .attempt q =>
    match q.scheduleBuildOne false noCalls s.world with
    | none => s
    | some out => s.attemptedBy q out
  | .cacheHit id =>
    match s.building id with
    | none => s
    | some sf =>
      { s.toContext.ended id false with db := hitDb s.R (s.disk.readStamp sf.name) sf s.db }
  | .giveUp id =>
    match s.building id with
    | none => s
    | some sf =>
      { s with
        db := s.db.save (sf.setFailed s.R (s.disk.readStamp sf.name))
        building := Function.update s.building id none
        callsAlways := Function.update s.callsAlways id false }
  | .ifchange id source =>
    match s.db.byId s.R id with
    | none => s
    | some f => { s with db := (s.db.addDep id 'm' source).save f }
  | .ifcreate id source => { s with db := s.db.addDep id 'c' source }
  | .always id =>
    match s.db.byId s.R id, s.db.byId s.R ALWAYS_ID with
    | some f, some r =>
      { s with
        db := ((s.db.addDep id 'm' ALWAYS_ID).save f).save (redoAlways s.R r)
        callsAlways := Function.update s.callsAlways id true }
    | _, _ => s
  | .stamp id csum =>
    match s.db.byId s.R id with
    | none => s
    | some f =>
      { s with
        db := s.db.save (redoStamp s.R csum f)
        recorded := Function.update s.recorded id s.R }
  | .finish i scheduled disk =>
    { s.toContext.ended i.sf.id (s.callsAlways i.sf.id) with
      db := (outcome i scheduled).db
      disk
      rebuilt := Function.update s.rebuilt i.sf.id ((outcome i scheduled).ended = .code 0) }
  | .die id =>
    { s.toContext.ended id (s.calledAlways id || s.callsAlways id) with db := s.db }

/-- When an event can take place. Runs do not overlap, and what a user does between two of them
counts to the later one. No stamp is empty. -/
def Event.Fits (s : Project) : Event → Prop
  | .newRun R => (∀ x, s.building x = none) ∧ s.R < R
  | .edit _ => True
  | .insert id name => ∀ r ∈ s.db.files, r.id ≠ id ∧ r.name ≠ name
  | .isdirty f _ => s.db.byId s.R f.id = some f
  | .attempt q => q.R = s.R ∧ s.db.byId s.R q.sf.id = some q.sf ∧ s.building q.sf.id = none ∧
      q.poolFree = true ∧
      ∀ cand ∈ q.candidates, s.db.byId s.R cand.id = some cand ∧ cand.name ≠ ALWAYS
  | .cacheHit id => ∃ sf, s.building id = some sf ∧ (s.db.refresh s.R sf).csum = none ∧
      ∀ p ∈ s.db.depsOf s.R sf, p.2.name ≠ ALWAYS
  | .giveUp id => (s.building id).isSome
  | .ifchange id source => (s.building id).isSome ∧ (s.db.lookup source).isSome
  | .ifcreate id source => (s.building id).isSome ∧ (s.db.lookup source).isSome
  | .always id => (s.building id).isSome
  | .stamp id _ => (s.building id).isSome
  | .finish i scheduled disk => s.building i.sf.id = some i.sf ∧ i.R = s.R ∧ i.db = s.db ∧
      (outcome i scheduled).ended ≠ .error ∧
      i.calls.readStamp (outcome i scheduled).paths.target = disk.readStamp i.sf.name ∧
      disk.readStamp i.sf.name ≠ ""
  | .die id => (s.building id).isSome

/-- An empty project, with the tables just created. -/
structure Started (s : Project) : Prop where
  db : s.db = { files := [{ id := ALWAYS_ID, name := ALWAYS }] }
  positive : 0 < s.R
  building : s.building = fun _ => none
  callsAlways : s.callsAlways = fun _ => false
  calledAlways : s.calledAlways = fun _ => false
  rebuilt : s.rebuilt = fun _ => false
  foundClean : s.foundClean = fun _ => false

def Step (s s' : Project) : Prop := ∃ e : Event, e.Fits s ∧ s' = e.apply s

end Redo.Runs
