import Redo.State.Nodes

/-! # What completion asks of the file system

When a recipe has ended, its outputs are examined, moved to the target and
recorded. Every call made on the way may fail; `Calls` lists their results, and
a call that succeeds does what the operating system does with the two paths.
-/
namespace Redo.Completion
open State

/-- The results of the calls: `false` is an error. A read or a write that fails
does so after the given number of bytes. -/
structure Calls where
  lstatTarget : Bool := true
  statOut : Bool := true
  lstatTmp : Bool := true
  create : Bool := true
  seek : Bool := true
  readErr : Option ℕ := none
  writeErr : Option ℕ := none
  statTmp : Bool := true
  rename : Bool := true
  unlinkTarget : Bool := true
  unlinkTmp : Bool := true
  /-- Reading the row back. -/
  refresh : Bool := true
  /-- The metadata of a newly written file. -/
  created : Metadata
  readStamp : Option Node → Stamp

/-- The two paths that completion works on. -/
structure Paths where
  target : Option Node
  tmp : Option Node
  /-- Has something been renamed over the target, or has it been unlinked? -/
  touched : Bool := false
deriving DecidableEq, Repr

namespace Calls

/-- A regular file just created. -/
def newFile (c : Calls) : Node := { toMetadata := { c.created with isDir := false } }

/-- `File::create`: truncates what is there, following links. -/
def createFile (c : Calls) (tmp : Option Node) : Option Node :=
  if c.create then
    match tmp with
    | none => some c.newFile
    | some n =>
      if n.isDir then none
      else if n.isLink then some { n with resolves := true, content := [] }
      else some c.newFile
  else none

def readToEnd (c : Calls) (rest : Bytes) : Bytes × Bool :=
  match c.readErr with
  | none => (rest, true)
  | some k => (rest.take k, false)

def writeAll (c : Calls) (buf : Bytes) : Bytes × Bool :=
  match c.writeErr with
  | none => (buf, true)
  | some k => (buf.take k, false)

/-- `Path::exists` of `$3`: an error counts as absence. -/
def existsTmp (c : Calls) (tmp : Option Node) : Bool := c.statTmp && tmp.any (·.resolves)

/-- A directory can only replace a directory, and be replaced by one. -/
def renameOk (c : Calls) (tmp target : Option Node) : Bool :=
  c.rename && tmp.any fun s => target.all fun t => s.isDir == t.isDir

def durableRename (c : Calls) (p : Paths) : Option Paths :=
  if c.renameOk p.tmp p.target then some ⟨p.tmp, none, true⟩ else none

/-- Directories are not unlinked. -/
def unlinkOk (ok : Bool) (n : Option Node) : Bool := ok && n.any fun n => !n.isDir

def unlinkTargetBestEffort (c : Calls) (p : Paths) : Paths :=
  if unlinkOk c.unlinkTarget p.target then { p with target := none, touched := true } else p

def unlinkTmpBestEffort (c : Calls) (p : Paths) : Paths :=
  if unlinkOk c.unlinkTmp p.tmp then { p with tmp := none } else p

end Calls

/-- `deps.out0` of a job that ran remotely; `none` marks a dependency that `add_dep` rejects. -/
inductive Remote where
  | off
  | unreadable
  | deps (l : List (Char × Option FileId))

/-- All that completion reads: the recipe's exit code, the paths before and after
the recipe, the captured stdout with the offset its writer left, the snapshot of
the row that the builder holds, and the tables as they are now. -/
structure Input where
  R : RunId
  rv : ℤ
  before : Option Metadata
  target : Option Node
  tmp : Option Node
  stdout : Bytes
  offset : ℕ
  sf : File
  db : Db
  strict : Bool := false
  strictFail : Bool := false
  /-- The verdict of `evaluate_strict_readtrace` on the recipe's trace. -/
  traceOk : List (Char × File) → Bool := fun _ => true
  remote : Remote := .off
  calls : Calls
  row : (db.lookup sf.id).isSome

/-- How completion ends: with a code, or with an `Err` that leaves the function at once. -/
inductive Ended where
  | code (rv : ℤ)
  | error
deriving DecidableEq, Repr

/-- What is left behind, with the tables as committed. -/
structure Outcome where
  ended : Ended
  paths : Paths
  db : Db
deriving DecidableEq

/-- Did the recipe write to `$1`? -/
def modifiedDirectly (before : Option Metadata) (after : Option Node) : Bool :=
  match after with
  | none => false
  | some a => (match before with
    | none => true
    | some b => b.mtime != a.mtime) && !a.isDir

/-- The exit code after looking at the outputs; 207 hides 206. -/
def examine (rv : ℤ) (before : Option Metadata) (afterT stTmp : Option Node) (outSize : ℕ) : ℤ :=
  if rv = 0 then
    if stTmp.isSome && outSize > 0 then 207
    else if modifiedDirectly before afterT then 206
    else rv
  else rv

/-- The row of a target just built. A file that `redo-stamp` has already checked or
changed in this run keeps its marks. -/
def recordBuilt (R : RunId) (newstamp : Stamp) (sf : File) : File :=
  let sf := { sf with isGenerated := true, isOverride := false }
  if sf.isChecked R || sf.isChanged R then { sf with stamp := some newstamp }
  else ({ sf with csum := none }.updateStamp R newstamp).setChanged R

namespace Input

def outSize (i : Input) : ℕ := i.stdout.length

/-- Under strict-fail, a build whose trace is missing or shows undeclared reads is refused. -/
def strictRefuses (i : Input) (declared : List (Char × File)) : Bool :=
  i.strict && i.strictFail && !i.traceOk declared

def paths (i : Input) : Paths := { target := i.target, tmp := i.tmp }

/-- The way out with a nonzero code. -/
def recordFailure (i : Input) (rv : ℤ) (sf : File) (db : Db) (p : Paths) : Outcome where
  ended := .code rv
  paths := i.calls.unlinkTmpBestEffort p
  db := (db.zapDeps2 sf.id).save (sf.setFailed i.R (i.calls.readStamp p.target))

/-- The strict check, and then the way out that the code asks for. -/
def finish (i : Input) (finalRv : ℤ) (sf : File) (db : Db) (p : Paths) : Outcome :=
  let finalRv := if i.strictRefuses (db.depsOf i.R sf) then 218 else finalRv
  if finalRv = 0 then ⟨.code 0, p, db.save sf⟩ else i.recordFailure finalRv sf db p

/-- An error leaves with nothing committed. -/
def abort (i : Input) (p : Paths) : Outcome := ⟨.error, p, i.db⟩

end Input
end Redo.Completion
