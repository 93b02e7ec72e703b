import Redo.Logs.MetaLines
import Redo.Processes.Cycles

/-! # The variables of a process

Nearly all that a redo process knows of the one above it is in its variables. Two of them are read
once and are then empty, so that the process itself has to remember them.
-/
namespace Redo.Processes
open State Remote Logs Paths

abbrev Vars := String → Option Text

namespace Vars

/-- `env::var(..).unwrap_or_default()` -/
def get (vars : Vars) (name : String) : Text := (vars name).getD []

def set (vars : Vars) (name : String) (value : Text) : Vars :=
  Function.update vars name (some value)

def remove (vars : Vars) (name : String) : Vars := Function.update vars name none

def getBool (vars : Vars) (name : String) : Bool := vars.get name ≠ []

end Vars

def atoi (t : Text) : ℤ := (parseI32 t).getD 0

/-- `i64::from_str`. -/
def parseI64 (t : Text) : Option ℤ :=
  if t.head? = some '-' then
    if t.tail.head? = some '+' then none
    else (parseUnsigned 9223372036854775809 t.tail).map fun n => -(n : ℤ)
  else (parseUnsigned 9223372036854775808 t).map fun n => (n : ℤ)

structure Env where
  base : Text
  pwd : Text
  target : Text
  depth : Text
  debug : ℤ
  debugLocks : Bool
  debugPids : Bool
  locksBroken : Bool
  verbose : ℤ
  xtrace : ℤ
  keepGoing : Bool
  log : ℤ
  logInode : Text
  color : ℤ
  pretty : ℤ
  shuffle : Bool
  startdir : Text
  runid : Option ℤ
  unlocked : Bool
  noOob : Bool
  strict : Bool
  strictFail : Bool

def Env.fromEnv (vars : Vars) : Env where
  base := ((vars "REDO_BASE").getD "NOT_DEFINED".toList).rdropWhile (· = '/')
  pwd := vars.get "REDO_PWD"
  target := vars.get "REDO_TARGET"
  depth := vars.get "REDO_DEPTH"
  debug := atoi (vars.get "REDO_DEBUG")
  debugLocks := vars.getBool "REDO_DEBUG_LOCKS"
  debugPids := vars.getBool "REDO_DEBUG_PIDS"
  locksBroken := vars.getBool "REDO_LOCKS_BROKEN"
  verbose := atoi (vars.get "REDO_VERBOSE")
  xtrace := atoi (vars.get "REDO_XTRACE")
  keepGoing := vars.getBool "REDO_KEEP_GOING"
  log := atoi ((vars "REDO_LOG").getD "1".toList)
  logInode := vars.get "REDO_LOG_INODE"
  color := atoi (vars.get "REDO_COLOR")
  pretty := atoi (vars.get "REDO_PRETTY")
  shuffle := vars.getBool "REDO_SHUFFLE"
  startdir := vars.get "REDO_STARTDIR"
  runid := (vars "REDO_RUNID").bind parseI64
  unlocked := vars.getBool "REDO_UNLOCKED"
  noOob := vars.getBool "REDO_NO_OOB"
  strict := vars.getBool "REDO_STRICT"
  strictFail := vars.getBool "REDO_STRICT_FAIL"

/-- The variables and the static ones. -/
structure Memory where
  vars : Vars
  unlockedLatch : Bool := false
  noOobLatch : Bool := false
  isToplevel : Bool := false

/-- What a new toplevel command finds around it. -/
structure Launch where
  /-- `current_exe`, and where links lead from there. -/
  exe : Text
  realExe : Text
  cwd : Text
  findBase : List Text → Text

/-- Where the other commands may be. -/
def Launch.tryNames (o : Launch) : List Text :=
  [o.exe, o.realExe].flatMap fun e =>
    match parent e with
    | some d => [push d "../lib/redo".toList, push d "../redo".toList, d]
    | none => []

/-- `PATH` with the commands of this redo in front. -/
def Launch.prependPath (o : Launch) (vars : Vars) : Vars :=
  let dirs := o.tryNames.eraseDups
  if vars.get "REDO_NO_PATH_PREPEND" = [] ∧ dirs ≠ [] then
    let old := vars.get "PATH"
    vars.set "PATH" ([':'].intercalate (if old = [] then dirs else dirs ++ [old]))
  else vars

namespace Memory

/-- `env::v` -/
def v (m : Memory) : Env :=
  let e := Env.fromEnv m.vars
  { e with unlocked := e.unlocked || m.unlockedLatch, noOob := e.noOob || m.noOobLatch }

/-- Outside of a `.do` script it is an error. -/
def inherit (m : Memory) : Option Memory :=
  if (m.vars "REDO").isNone then none
  else
    let e := Env.fromEnv m.vars
    some { m with
      vars := (m.vars.set "REDO_UNLOCKED" []).set "REDO_NO_OOB" []
      unlockedLatch := m.unlockedLatch || e.unlocked
      noOobLatch := m.noOobLatch || e.noOob }

/-- The first command of a tree makes itself known to the others. -/
def first (o : Launch) (m : Memory) : Memory :=
  if (m.vars "REDO").isNone then
    { m with isToplevel := true, vars := (o.prependPath m.vars).set "REDO" o.exe }
  else m

def based (o : Launch) (targets : List Text) (m : Memory) : Memory :=
  if (m.vars "REDO_BASE").isNone then
    { m with vars := (m.vars.set "REDO_BASE" (o.findBase targets)).set "REDO_STARTDIR" o.cwd }
  else m

def init (o : Launch) (targets : List Text) (m : Memory) : Option Memory :=
  ((m.first o).based o targets).inherit

def markLocksBroken (m : Memory) : Option Memory :=
  { m with vars := (m.vars.set "REDO_LOCKS_BROKEN" "1".toList).set "REDO_LOG" "0".toList }.inherit

/-- `ensure_runid`, with the id that the database gives to the new row. -/
def ensureRunid (id : ℕ) (m : Memory) : Option Memory :=
  if m.v.runid.isSome then some m
  else { m with vars := m.vars.set "REDO_RUNID" (Nat.toDigits 10 id) }.inherit

/-- The toplevel command finds out whether locks work. -/
def checkLocks (broken : Bool) (m : Memory) : Option Memory :=
  if m.isToplevel && broken then m.markLocksBroken else some m

/-- `state::init` as far as it is about variables; `lockBroken` is what `detect_broken_locks` finds,
before the tables are opened and when all is done. -/
def stateInit (o : Launch) (targets : List Text) (lockBroken : Bool × Bool) (id : ℕ)
    (m : Memory) : Option Memory := do
  let m ← m.init o targets
  let m ← m.checkLocks lockBroken.1
  let m ← m.ensureRunid id
  m.checkLocks lockBroken.2

end Memory

/-- What `exec_dofile_in_child` is called with, and what the system says to it. -/
structure Recipe where
  /-- From the start directory to the directory of the `.do` file. -/
  pwdRel : Text
  arg1 : Text
  lockFid : FileId
  /-- What `cycles::add` makes of `REDO_CYCLES`. -/
  cycles : Text
  /-- The file behind the standard error of the builder. -/
  curInode : ℕ
  /-- The new log file, when there could be one. -/
  newInode : Option ℕ

/-- `u64::from_str`. -/
def parseU64 (t : Text) : Option ℕ := parseUnsigned 18446744073709551616 t

/-- What the recipe is about. -/
def Recipe.naming (r : Recipe) (vars : Vars) : Vars :=
  let vars := vars.remove "CDPATH"
  let vars := vars.set "REDO_PWD" r.pwdRel
  let vars := vars.set "REDO_TARGET" r.arg1
  let vars := vars.set "REDO_DEPTH" ((Env.fromEnv vars).depth ++ [' ', ' '])
  vars.set "REDO_CYCLES" r.cycles

/-- Level 1 is not for the commands below. -/
def Vars.clamp (vars : Vars) (name : String) (level : ℤ) : Vars :=
  if level = 1 then vars.set name ['0'] else vars

/-- Where the standard error of the recipe goes. -/
def Recipe.logging (r : Recipe) (vars : Vars) : Vars :=
  let e := Env.fromEnv vars
  if e.log ≠ 0 then
    if e.logInode = [] ∨ (parseU64 e.logInode).all (· = r.curInode) then
      match r.newInode with
      | some inode => (vars.set "REDO_LOG" ['1']).set "REDO_LOG_INODE" (Nat.toDigits 10 inode)
      | none => vars
    else vars
  else (vars.remove "REDO_LOG_INODE").set "REDO_LOG" []

/-- The variables that the recipe starts with. -/
def Recipe.execVars (r : Recipe) (m : Memory) : Vars :=
  r.logging (((r.naming m.vars).clamp "REDO_XTRACE" m.v.xtrace).clamp "REDO_VERBOSE" m.v.verbose)

/-- What `redo` takes from its arguments. -/
structure RedoArgs where
  vars : Vars
  targets : List Text := []
  jobs : ℤ := 0
  status : Bool := true
  details : Bool := true
  pretty : Bool := true
  /-- 0 for never, 1 for the terminal, 2 for always. -/
  color : ℤ := 1
  debugLocks : Bool := false
  debugPids : Bool := false
  planOnly : Bool := false

/-- The options that are nothing but a variable. -/
def redoFlag (a : Text) : Option (String × Text) :=
  if a = "-d".toList ∨ a = "--debug".toList then some ("REDO_DEBUG", ['1'])
  else if a = "-v".toList ∨ a = "--verbose".toList then some ("REDO_VERBOSE", ['1'])
  else if a = "-x".toList ∨ a = "--xtrace".toList then some ("REDO_XTRACE", ['1'])
  else if a = "-k".toList ∨ a = "--keep-going".toList then some ("REDO_KEEP_GOING", ['1'])
  else if a = "--shuffle".toList then some ("REDO_SHUFFLE", ['1'])
  else if a = "--debug-locks".toList then some ("REDO_DEBUG_LOCKS", ['1'])
  else if a = "--debug-pids".toList then some ("REDO_DEBUG_PIDS", ['1'])
  else if a = "--no-log".toList then some ("REDO_LOG", ['0'])
  else none

/-- One argument, other than `-j`. -/
def RedoArgs.take (r : RedoArgs) (a : Text) : RedoArgs :=
  match redoFlag a with
  | some (name, value) =>
    { r with
      vars := r.vars.set name value
      debugLocks := r.debugLocks || name = "REDO_DEBUG_LOCKS"
      debugPids := r.debugPids || name = "REDO_DEBUG_PIDS" }
  | none =>
    if a = "--no-details".toList then { r with details := false }
    else if a = "--no-status".toList then { r with status := false }
    else if a = "--plan".toList then { r with planOnly := true }
    else if a = "--no-pretty".toList then { r with pretty := false }
    else if a = "--no-color".toList then { r with color := 0 }
    else if a = "--color".toList then { r with color := max (r.color + 1) 2 }
    else if "-j".toList.isPrefixOf a ∧ a.drop 2 ≠ [] then { r with jobs := atoi (a.drop 2) }
    else if "--jobs=".toList.isPrefixOf a then { r with jobs := atoi (a.drop 7) }
    else { r with targets := r.targets ++ [a] }

/-- Without `--version` among the arguments. -/
def RedoArgs.parse : RedoArgs → List Text → RedoArgs
  | r, [] => r
  | r, a :: rest =>
    if a = "-j".toList ∨ a = "--jobs".toList then
      match rest with
      | [] => { r with jobs := 0 }
      | n :: rest => RedoArgs.parse { r with jobs := atoi n } rest
    else RedoArgs.parse (r.take a) rest

def Vars.setDefint (vars : Vars) (name : String) (value : ℤ) : Vars :=
  if (vars name).isNone then vars.set name (printInt value) else vars

/-- The defaults for the output. -/
def RedoArgs.defaults (r : RedoArgs) : Vars :=
  let vars := r.vars.setDefint "REDO_LOG" (if r.vars "REDO_LOG" = some ['0'] then 0 else 1)
  let vars := vars.setDefint "REDO_PRETTY" (if r.pretty then 1 else 0)
  vars.setDefint "REDO_COLOR" r.color

/-- The two pipes: that of the tokens and that of those who cheat. -/
structure Jobserver where
  tokenfds : ℤ × ℤ
  cheatfds : ℤ × ℤ
  /-- `TOPLEVEL`: the number of jobs, where the jobserver has been started. -/
  toplevel : ℤ
deriving DecidableEq

/-- Two descriptors with a comma between them. -/
def parseFds (t : Text) : Option (ℤ × ℤ) := do
  let a ← (t.splitOn ',')[0]? >>= parseI32
  let b ← (t.splitOn ',')[1]? >>= parseI32
  pure (a, b)

def printFds (fds : ℤ × ℤ) : Text := printInt fds.1 ++ ',' :: printInt fds.2

def parseMakeflags (vars : Vars) : Option (ℤ × ℤ) := do
  let flags := ' ' :: vars.get "MAKEFLAGS" ++ [' ']
  let rest ← (textAfter " --jobserver-auth=".toList flags).or
    (textAfter " --jobserver-fds=".toList flags)
  let fds ← parseFds (rest.takeWhile (· ≠ ' '))
  if fds.1 ≤ 0 ∨ fds.2 ≤ 0 then none else some fds

/-- What `make_pipe` comes back with: `F_DUPFD` looks for descriptors from a number on. -/
structure Pipe (start : ℤ) where
  fds : ℤ × ℤ
  left : start ≤ fds.1 ∧ fds.1 < 2147483648
  right : start + 1 ≤ fds.2 ∧ fds.2 < 2147483648

/-- The descriptors that a new process has, and those that it gets for new pipes. -/
structure Descriptors where
  fdExists : ℤ → Bool
  tokenPipe : Pipe 100
  cheatPipe : Pipe 102

def Descriptors.cheatfds (d : Descriptors) (maxjobs : ℤ) (vars : Vars) : Option (ℤ × ℤ) :=
  if maxjobs ≠ 0 then none
  else (vars "REDO_CHEATFDS").bind fun t => (parseFds t).bind fun fds =>
    if 2 < fds.1 ∧ 2 < fds.2 ∧ d.fdExists fds.1 ∧ d.fdExists fds.2 then some fds else none

def makeflags (fds : ℤ × ℤ) : Text :=
  " -j --jobserver-auth=".toList ++ printFds fds ++ " --jobserver-fds=".toList ++ printFds fds

/-- `jobserver::setup`. The descriptors of the process above have to be there. -/
def Descriptors.setup (d : Descriptors) (maxjobs : ℤ) (vars : Vars) : Option (Jobserver × Vars) :=
  let inherited := parseMakeflags vars
  if inherited.any fun fds => !d.fdExists fds.1 || !d.fdExists fds.2 then none
  else
    let (cheatfds, vars) :=
      match d.cheatfds maxjobs vars with
      | some fds => (fds, vars)
      | none => (d.cheatPipe.fds, vars.set "REDO_CHEATFDS" (printFds d.cheatPipe.fds))
    match if maxjobs = 0 then inherited else none with
    | some tokenfds => some (⟨tokenfds, cheatfds, 0⟩, vars)
    | none =>
      some (⟨d.tokenPipe.fds, cheatfds, if 0 < maxjobs then maxjobs else 1⟩,
        vars.set "MAKEFLAGS" (makeflags d.tokenPipe.fds))

/-- What a process finds when it starts. -/
structure Outside extends Launch, Descriptors where
  lockBroken : Bool × Bool
  newRunid : ℕ
  newRunid_lt : newRunid < 9223372036854775808

namespace Outside

/-- `redo-ifchange`, up to the first look at a target. -/
def startIfchange (o : Outside) (targets : List Text) (vars : Vars) : Option (Memory × Jobserver) := do
  let m ← Memory.stateInit o.toLaunch targets o.lockBroken o.newRunid { vars }
  let (j, vars) ← o.toDescriptors.setup 0 m.vars
  pure ({ m with vars }, j)

/-- `redo`, up to its first target. -/
def startRedo (o : Outside) (args : List Text) (vars : Vars) : Option (Memory × Jobserver) := do
  let r := RedoArgs.parse { vars } args
  let m ← Memory.stateInit o.toLaunch r.targets o.lockBroken o.newRunid { vars := r.defaults }
  let jobs := if (m.isToplevel || 1 < r.jobs) && m.v.locksBroken && 1 < r.jobs then 1 else r.jobs
  let roots := ['\n'].intercalate (if r.targets = [] then ["all".toList] else r.targets)
  let m := if m.isToplevel && m.v.log ≠ 0 then
    { m with vars := m.vars.set "REDO_LOG_TOP_TARGETS" roots } else m
  let (j, vars) ← o.toDescriptors.setup jobs m.vars
  pure ({ m with vars }, j)

end Outside

end Redo.Processes
