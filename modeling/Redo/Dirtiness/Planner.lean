import Redo.Dirtiness.Walk

/-! # The read-only walk of the build planner

`isdirty_readonly` mirrors `isdirty` but writes nothing: it remembers clean files,
stamps and dependency lists in a `PlanCache` that all the roots of a plan share.
-/
namespace Redo.Dirtiness
open State

structure PlanCache where
  checked : List FileId := []
  stamp : List (FileId × Stamp) := []
  deps : List (FileId × List (Char × File)) := []

namespace PlanCache

def readStampCached (disk : Disk) (f : File) (c : PlanCache) : Stamp × PlanCache :=
  match c.stamp.lookup f.id with
  | some s => (s, c)
  | none =>
    let s := disk.readStamp f.name
    (s, { c with stamp := (f.id, s) :: c.stamp })

def depsCached (db : Db) (runid : RunId) (f : File) (c : PlanCache) :
    List (Char × File) × PlanCache :=
  match c.deps.lookup f.id with
  | some v => (v, c)
  | none =>
    let v := db.depsOf runid f
    (v, { c with deps := (f.id, v) :: c.deps })

def setChecked (f : File) (c : PlanCache) : PlanCache :=
  { c with checked := c.checked.insert f.id }

end PlanCache

def depDirtyReadonly (walk : File → RunId → PlanCache → Except WalkError DirtyResult × PlanCache)
    (disk : Disk) (f : File) (p : Char × File) (c : PlanCache) :
    Except WalkError DirtyResult × PlanCache :=
  if p.1 = 'c' then (.ok (if disk.pathExists p.2.name then .dirty else .clean), c)
  else if p.1 = 'm' then walk p.2 f.lastSeen c
  else (.ok .clean, c)

def depLoopReadonly (walk : File → RunId → PlanCache → Except WalkError DirtyResult × PlanCache)
    (disk : Disk) (f : File) : List (Char × File) → List File → PlanCache →
      Except WalkError DirtyResult × PlanCache
  | [], mustBuild, c =>
    (.ok (if mustBuild.isEmpty then .clean else .mustBuild mustBuild), c)
  | p :: rest, mustBuild, c =>
    match depDirtyReadonly walk disk f p c with
    | (.error e, c) => (.error e, c)
    | (.ok .clean, c) => depLoopReadonly walk disk f rest mustBuild c
    | (.ok (.mustBuild v), c) => depLoopReadonly walk disk f rest (mustBuild ++ v) c
    | (.ok .dirty, c) => (.ok (if f.csum.isNone then .dirty else .mustBuild [f]), c)

def isdirtyReadonly (disk : Disk) (runid : RunId) (db : Db) :
    ℕ → File → RunId → List FileId → PlanCache → Except WalkError DirtyResult × PlanCache
  | 0, _, _, _, c => (.error .outOfFuel, c)
  | fuel + 1, f, maxChanged, alreadyChecked, c =>
    if alreadyChecked.contains f.id then (.error .cyclicDependency, c)
    else if f.failedRunid.isSome then (.ok .dirty, c)
    else if f.changedRunid.isNone then (.ok .dirty, c)
    else if f.changedRunid.getD 0 > maxChanged then (.ok .dirty, c)
    else if c.checked.contains f.id then (.ok .clean, c)
    else if f.stamp.isNone then (.ok .dirty, c)
    else
      let (newstamp, c) := c.readStampCached disk f
      if f.stamp ≠ some newstamp then
        -- Unlike `isdirty`, vanished targets are not converted back into sources here.
        (.ok (if f.csum.isSome then .mustBuild [f] else .dirty), c)
      else
        let (deps, c) := c.depsCached db runid f
        match depLoopReadonly (fun f2 mx c =>
            isdirtyReadonly disk runid db fuel f2 mx (alreadyChecked ++ [f.id]) c)
            disk f deps [] c with
        | (.ok .clean, c) => (.ok .clean, c.setChecked f)
        | (result, c) => (result, c)

end Redo.Dirtiness
