import Redo.Completion.Calls

/-! # The two completions

`build_one` and the completion closure of `schedule_build_one` are two
transcriptions of the same steps. The first leaves with an error where the second
goes on, and they nest the renaming differently.
-/
namespace Redo.Completion
open State

namespace Input

/-- `build_one`: the captured stdout goes to `$3`. An error leaves with `$3` as it is
by then; a `$3` that cannot be created is code 209. -/
def copyStdout (i : Input) : Except Paths (ℤ × Paths) :=
  match i.calls.createFile i.tmp with
  | none => .ok (209, i.paths)
  | some newf =>
    if i.calls.seek then
      let (buf, ok) := i.calls.readToEnd i.stdout
      if ok then
        let (written, ok) := i.calls.writeAll buf
        let p := { i.paths with tmp := some { newf with content := written } }
        if ok then .ok (0, p) else .error p
      else .error { i.paths with tmp := some newf }
    else .error { i.paths with tmp := some newf }

/-- `schedule_build_one`: the same copy, with the errors after the creation ignored. -/
def copyStdoutIgnoringErrors (i : Input) : ℤ × Paths :=
  match i.calls.createFile i.tmp with
  | none => (209, i.paths)
  | some newf =>
    let buf := (i.calls.readToEnd (if i.calls.seek then i.stdout else i.stdout.drop i.offset)).1
    (0, { i.paths with tmp := some { newf with content := (i.calls.writeAll buf).1 } })

/-- `build_one`, from the renaming on. After code 209 only the renaming itself is
skipped; the target is unlinked and the row recorded all the same. -/
def placeAndRecord (i : Input) (finalRv : ℤ) (p : Paths) : Outcome :=
  let (finalRv, p) :=
    if finalRv = 0 ∧ i.calls.existsTmp p.tmp then
      match i.calls.durableRename p with
      | some p => (finalRv, p)
      | none => (209, p)
    else (finalRv, i.calls.unlinkTargetBestEffort p)
  if finalRv = 0 ∧ ¬i.calls.refresh then i.abort p
  else
    let sf := if finalRv = 0 then i.db.refresh i.R i.sf else i.sf
    let sf := recordBuilt i.R (i.calls.readStamp p.target) sf
    i.finish finalRv sf (i.db.zapDeps2 sf.id) p

def buildOne (i : Input) : Outcome :=
  if ¬i.calls.lstatTarget ∨ ¬i.calls.statOut ∨ ¬i.calls.lstatTmp then i.abort i.paths
  else
    let finalRv := examine i.rv i.before i.target i.tmp i.outSize
    if finalRv = 0 then
      if i.outSize > 0 ∧ i.tmp.isNone then
        match i.copyStdout with
        | .error p => i.abort p
        | .ok (finalRv, p) => i.placeAndRecord finalRv p
      else i.placeAndRecord finalRv i.paths
    else i.recordFailure finalRv i.sf i.db i.paths

/-- The dependencies that a remote job declared, up to the first one that is rejected. -/
def applyRemoteDeps (id : FileId) : List (Char × Option FileId) → Db → ℤ × Db
  | [], db => (0, db)
  | (_, none) :: _, db => (209, db)
  | (mode, some source) :: rest, db => applyRemoteDeps id rest (db.addDep id mode source)

def applyRemote (i : Input) : ℤ × Db :=
  match i.remote with
  | .off => (0, i.db)
  | .unreadable => (209, i.db)
  | .deps l => applyRemoteDeps i.sf.id l i.db

/-- `schedule_build_one`, after a renaming or unlinking that went well. -/
def scheduleRecord (i : Input) (p : Paths) : Outcome :=
  if ¬i.calls.refresh then i.recordFailure 209 i.sf i.db p
  else
    let sf := recordBuilt i.R (i.calls.readStamp p.target) (i.db.refresh i.R i.sf)
    let (finalRv, db) := i.applyRemote
    i.finish finalRv sf (db.zapDeps2 sf.id) p

/-- `schedule_build_one`, from the renaming on. -/
def schedulePlace (i : Input) (p : Paths) : Outcome :=
  if i.calls.existsTmp p.tmp then
    match i.calls.durableRename p with
    | some p => i.scheduleRecord p
    | none => i.recordFailure 209 i.sf i.db p
  else i.scheduleRecord (i.calls.unlinkTargetBestEffort p)

/-- What `schedule_build_one` takes the outputs to be: an error counts as an absence. -/
def seenTarget (i : Input) : Option Node := if i.calls.lstatTarget then i.target else none
def seenSize (i : Input) : ℕ := if i.calls.statOut then i.outSize else 0
def seenTmp (i : Input) : Option Node := if i.calls.lstatTmp then i.tmp else none

def schedule (i : Input) : Outcome :=
  let finalRv := examine i.rv i.before i.seenTarget i.seenTmp i.seenSize
  if finalRv = 0 then
    let (finalRv, p) :=
      if i.seenSize > 0 ∧ i.seenTmp.isNone then i.copyStdoutIgnoringErrors else (0, i.paths)
    if finalRv = 0 then i.schedulePlace p else i.recordFailure finalRv i.sf i.db p
  else i.recordFailure finalRv i.sf i.db i.paths

end Input
end Redo.Completion
