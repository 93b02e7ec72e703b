import Redo.State.Files

/-! # The dirtiness walk that writes to the tables

`isdirty` recurses along the recorded dependencies, keeps the path of ids it is
on to detect cycles, and takes its memory of clean files from two closures. The
builder's closures read and write `checked_runid`; those of `redo-ood` keep a set
of ids in memory. Both walks turn vanished targets back into sources on the way.
-/
namespace Redo.Dirtiness
open State

inductive DirtyResult where
  | clean
  | dirty
  | mustBuild (files : List File)
deriving DecidableEq, Repr

inductive WalkError where
  | cyclicDependency
  /-- Not in the source: the model's recursion bound, never reached from a full budget. -/
  | outOfFuel
deriving DecidableEq, Repr

/-- What a walk may change: the tables, and the set that `redo-ood` keeps in memory. -/
structure WalkState where
  db : Db
  cache : List FileId := []
deriving DecidableEq, Repr

/-- The closures `is_checked` and `set_checked`. -/
structure Closures where
  isChecked : WalkState → File → Bool
  setChecked : WalkState → File → File × WalkState

structure Walked where
  result : Except WalkError DirtyResult
  /-- The `&mut File` as the call leaves it. -/
  file : File
  state : WalkState

def Walked.out (w : Walked) : Except WalkError DirtyResult × WalkState := (w.result, w.state)

/-- The answer for one dependency of `f`. -/
def depDirty (walk : File → RunId → WalkState → Walked) (disk : Disk) (f : File)
    (p : Char × File) (s : WalkState) : Except WalkError DirtyResult × WalkState :=
  if p.1 = 'c' then (.ok (if disk.pathExists p.2.name then .dirty else .clean), s)
  else if p.1 = 'm' then (walk p.2 f.lastSeen s).out
  else (.ok .clean, s)

/-- The loop over the dependencies of `f`, with the files collected so far. -/
def depLoop (walk : File → RunId → WalkState → Walked) (disk : Disk) (f : File) :
    List (Char × File) → List File → WalkState → Except WalkError DirtyResult × WalkState
  | [], mustBuild, s =>
    (.ok (if mustBuild.isEmpty then .clean else .mustBuild mustBuild), s)
  | p :: rest, mustBuild, s =>
    match depDirty walk disk f p s with
    | (.error e, s) => (.error e, s)
    | (.ok .clean, s) => depLoop walk disk f rest mustBuild s
    | (.ok (.mustBuild v), s) => depLoop walk disk f rest (mustBuild ++ v) s
    | (.ok .dirty, s) => (.ok (if f.csum.isNone then .dirty else .mustBuild [f]), s)

/-- A target whose file has vanished is a source again (this reduces override warnings). -/
def forgetVanished (runid : RunId) (newstamp : Stamp) (f : File) (s : WalkState) :
    File × WalkState :=
  if newstamp = STAMP_MISSING ∧ f.stamp.isSome ∧ f.isGenerated then
    let f := { f with isGenerated := false, failedRunid := none }
    let db := s.db.save f
    (db.refresh runid f, { s with db })
  else (f, s)

def isdirty (c : Closures) (disk : Disk) (runid : RunId) :
    ℕ → File → RunId → List FileId → WalkState → Walked
  | 0, f, _, _, s => ⟨.error .outOfFuel, f, s⟩
  | fuel + 1, f, maxChanged, alreadyChecked, s =>
    if alreadyChecked.contains f.id then ⟨.error .cyclicDependency, f, s⟩
    else if f.failedRunid.isSome then ⟨.ok .dirty, f, s⟩
    else if f.changedRunid.isNone then ⟨.ok .dirty, f, s⟩
    else if f.changedRunid.getD 0 > maxChanged then ⟨.ok .dirty, f, s⟩
    else if c.isChecked s f then ⟨.ok .clean, f, s⟩
    else if f.stamp.isNone then ⟨.ok .dirty, f, s⟩
    else if f.stamp ≠ some (disk.readStamp f.name) then
      let (f, s) := forgetVanished runid (disk.readStamp f.name) f s
      ⟨.ok (if f.csum.isSome then .mustBuild [f] else .dirty), f, s⟩
    else
      match depLoop (fun f2 mx s => isdirty c disk runid fuel f2 mx (alreadyChecked ++ [f.id]) s)
          disk f (s.db.depsOf runid f) [] s with
      | (.ok .clean, s) =>
        let (f, s) := c.setChecked s f
        ⟨.ok .clean, f, s⟩
      | (result, s) => ⟨result, f, s⟩

/-- Room for every path without a repeated id. -/
def budget (db : Db) : ℕ := db.files.length + 1

/-- The builder's closures. `preflight` is the set installed by `install_preflight_checked`. -/
def builderClosures (runid : RunId) (preflight : List FileId) : Closures where
  isChecked _ f := f.isChecked runid || preflight.contains f.id
  setChecked s f :=
    let f := f.setChecked runid
    (f, { s with db := s.db.save f })

def isdirtyDefault (preflight : List FileId) (disk : Disk) (runid : RunId) (db : Db) (f : File)
    (maxChanged : RunId) : Walked :=
  isdirty (builderClosures runid preflight) disk runid (budget db) f maxChanged [] { db }

/-- The closures of `redo-ood`: a set of ids in memory. -/
def oodClosures : Closures where
  isChecked s f := s.cache.contains f.id
  setChecked s f := (f, { s with cache := s.cache.insert f.id })

end Redo.Dirtiness
