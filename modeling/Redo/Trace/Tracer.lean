import Mathlib.Logic.Function.Basic
import Redo.Cache.ReadTrace

/-! # The tracer and the processes that it follows

The tracer sees the stops of the processes one by one. For each process it keeps a working
directory, by the names of the directories changed to, and whether the next stop at a system
call is its end. The processes run beside it: a call takes effect between its two stops.
-/
namespace Redo.Trace
open Remote Cache

abbrev Pid := ℕ

/-- The system calls that the tracer tells apart, and three that it does not know: `fchdir`,
`execveat` and `openat2`. -/
inductive Call where
  | chdir (name : Text)
  | fchdir
  | execve (name : Text)
  | execveat (name : Text)
  | openFile (writeOnly : Bool) (name : Text)
  | openat (dirfd : UInt64) (writeOnly : Bool) (name : Text)
  | openat2 (writeOnly : Bool) (name : Text)
  | stat (name : Text)
  | access (name : Text)
  | newfstatat (dirfd : UInt64)
  | faccessat (dirfd : UInt64)
  | statx (dirfd : UInt64)
  | clone (sharesDir : Bool)
  | other
deriving DecidableEq, Repr

/-- The name that `PTRACE_PEEKDATA` has yielded; the registers are those of the call. -/
abbrev Peeked := Option Text

/-- A path by its parts, as it is printed. -/
def pathText (parts : Parts) : Text :=
  match parts with
  | ['/'] :: rest => '/' :: ['/'].intercalate rest
  | _ => ['/'].intercalate parts

def resolvePath (cwd raw : Text) : Text := pathText (normalizePathLex (join cwd raw))

/-- `AT_FDCWD` in a register of 64 bits. -/
def atFdcwd : UInt64 := 0xffffffffffffff9c

structure ProcState where
  cwd : Text
  inSyscall : Bool
deriving DecidableEq, Repr

structure Tracer where
  cwd0 : Text
  procs : Pid → Option ProcState
  observed : List Text
  traceMarkers : List Text

namespace Tracer

def observe (t : Tracer) (cwd : Text) : Peeked → Tracer
  | none => t
  | some s => { t with observed := t.observed.insert (resolvePath cwd s) }

def mark (t : Tracer) (marker : String) : Tracer :=
  { t with traceMarkers := t.traceMarkers.insert marker.toList }

def observeAt (t : Tracer) (cwd : Text) (dirfd : UInt64) (marker : String) (peek : Peeked) : Tracer :=
  if dirfd ≠ atFdcwd then t.mark marker else t.observe cwd peek

/-- What is taken down where a call is taken to begin. -/
def entering (t : Tracer) (pid : Pid) (call : Call) (peek : Peeked) : Tracer :=
  let cwd := ((t.procs pid).map ProcState.cwd).getD t.cwd0
  match call with
  | .chdir _ =>
    match peek, t.procs pid with
    | some s, some ps =>
      { t with procs := Function.update t.procs pid (some { ps with cwd := resolvePath cwd s }) }
    | _, _ => t
  | .execve _ => t.observe cwd peek
  | .openFile writeOnly _ => if writeOnly then t else t.observe cwd peek
  | .openat dirfd writeOnly _ =>
    if writeOnly then t else t.observeAt cwd dirfd "UNRESOLVED:openat_dirfd" peek
  | .stat _ => t.observe cwd peek
  | .access _ => t.observe cwd peek
  | .newfstatat dirfd => t.observeAt cwd dirfd "UNRESOLVED:newfstatat_dirfd" peek
  | .faccessat dirfd => t.observeAt cwd dirfd "UNRESOLVED:faccessat_dirfd" peek
  | .statx dirfd => t.observeAt cwd dirfd "UNRESOLVED:statx_dirfd" peek
  | _ => t

def setInSyscall (t : Tracer) (pid : Pid) (b : Bool) : Tracer :=
  { t with
    procs := Function.update t.procs pid
      ((t.procs pid).map fun ps => { ps with inSyscall := b }) }

/-- A stop at a system call; `none` when the registers cannot be read. -/
def syscallStop (t : Tracer) (pid : Pid) (call : Call) (regs : Option Peeked) : Tracer :=
  let begins := ((t.procs pid).map fun ps => !ps.inSyscall).getD true
  let t := t.setInSyscall pid begins
  if begins then
    match regs with
    | none => t.mark "TRACE_ERROR:getregs:"
    | some peek => t.entering pid call peek
  else t

/-- `PTRACE_EVENT_FORK`, `PTRACE_EVENT_VFORK` or `PTRACE_EVENT_CLONE` -/
def forkEvent (t : Tracer) (pid child : Pid) : Tracer :=
  match t.procs pid with
  | none => t
  | some ps =>
    { t with procs := Function.update t.procs child (some { cwd := ps.cwd, inSyscall := false }) }

def execEvent (t : Tracer) (pid : Pid) : Tracer := t.setInSyscall pid false

def exited (t : Tracer) (pid : Pid) : Tracer :=
  { t with procs := Function.update t.procs pid none }

def trace (t : Tracer) : List Text := (t.traceMarkers ++ t.observed).insertionSort (· ≤ ·)

end Tracer

/-- Where a process is. -/
inductive Phase where
  | user
  /-- Behind the first stop of a call. -/
  | entered (call : Call)
  /-- The program at the path has taken over, and has not been announced. -/
  | replaced (path : Text)
  /-- Before the last stop of the `execve`, with empty registers. -/
  | fresh
  /-- The child has been created and not been announced. -/
  | cloned (sharesDir : Bool) (child : Pid)
  /-- Before the last stop of a call that may have opened a file for reading. -/
  | finished (call : Call) (opened : Option Text)
deriving DecidableEq, Repr

structure Proc where
  /-- The working directory may be shared. -/
  dir : ℕ
  phase : Phase
  /-- Whether it has executed a program since its birth. -/
  execed : Bool
  /-- Whether the tracer has been told of it. -/
  announced : Bool
deriving DecidableEq, Repr

structure World where
  procs : Pid → Option Proc
  cwd : ℕ → Text
  nextDir : ℕ
  /-- Children that have not been announced. -/
  pending : Pid → Bool
  tracer : Tracer
  /-- What has been executed, or opened for reading, by a path. -/
  used : List Text

inductive Outcome where
  | failed
  /-- With the directory that was changed to, or that the path was taken from. -/
  | done (dir : Text)
  | born (child : Pid)
deriving DecidableEq, Repr

inductive Event where
  | enter (pid : Pid) (call : Call) (regs : Option Peeked)
  | effect (pid : Pid) (outcome : Outcome)
  | execStop (pid : Pid)
  | forkStop (pid : Pid)
  | leave (pid : Pid) (regs : Option Peeked)
  | die (pid : Pid)
  | signalStop (pid : Pid)
deriving DecidableEq, Repr

namespace World

def setPhase (w : World) (pid : Pid) (p : Proc) (phase : Phase) : World :=
  { w with procs := Function.update w.procs pid (some { p with phase := phase }) }

def bear (w : World) (pid : Pid) (p : Proc) (sharesDir : Bool) (child : Pid) (dir : ℕ) : World :=
  { w with
    procs := Function.update
      (Function.update w.procs pid (some { p with phase := .cloned sharesDir child })) child
      (some { dir := dir, phase := .user, execed := false, announced := false })
    cwd := Function.update w.cwd dir (w.cwd p.dir)
    nextDir := w.nextDir + 1
    pending := Function.update w.pending child true }

/-- The kernel looks at the lower half of the register. -/
def base (cwd dir : Text) (dirfd : UInt64) : Text :=
  if dirfd.toUInt32 = atFdcwd.toUInt32 then cwd else dir

/-- What a call does. -/
def effect (w : World) (pid : Pid) (p : Proc) : Call → Outcome → Option World
  | call, .failed => some (w.setPhase pid p (.finished call none))
  | .chdir name, .done dir =>
    some { w.setPhase pid p (.finished (.chdir name) none) with
      cwd := Function.update w.cwd p.dir dir }
  | .fchdir, .done dir =>
    some { w.setPhase pid p (.finished .fchdir none) with cwd := Function.update w.cwd p.dir dir }
  | .execve name, .done _ => some (w.setPhase pid p (.replaced (resolvePath (w.cwd p.dir) name)))
  | .execveat name, .done dir => some (w.setPhase pid p (.replaced (resolvePath dir name)))
  | .openFile writeOnly name, .done _ =>
    some (w.setPhase pid p (.finished (.openFile writeOnly name)
      (if writeOnly then none else some (resolvePath (w.cwd p.dir) name))))
  | .openat dirfd writeOnly name, .done dir =>
    some (w.setPhase pid p (.finished (.openat dirfd writeOnly name)
      (if writeOnly then none else some (resolvePath (base (w.cwd p.dir) dir dirfd) name))))
  | .openat2 writeOnly name, .done dir =>
    some (w.setPhase pid p (.finished (.openat2 writeOnly name)
      (if writeOnly then none else some (resolvePath dir name))))
  | .clone sharesDir, .born child =>
    if (w.procs child).isNone && !w.pending child then
      some (w.bear pid p sharesDir child (if sharesDir then p.dir else w.nextDir))
    else none
  | .clone _, .done _ => none
  | _, .born _ => none
  | call, .done _ => some (w.setPhase pid p (.finished call none))

def announce (w : World) (child : Pid) : World :=
  { w with
    procs := Function.update w.procs child
      ((w.procs child).map fun p => { p with announced := true })
    pending := Function.update w.pending child false }

def next (w : World) : Event → Option World
  | .enter pid call regs =>
    match w.procs pid with
    | some p =>
      if p.phase = .user then
        some { w.setPhase pid p (.entered call) with tracer := w.tracer.syscallStop pid call regs }
      else none
    | none => none
  | .effect pid outcome =>
    match w.procs pid with
    | some p =>
      match p.phase with
      | .entered call => w.effect pid p call outcome
      | _ => none
    | none => none
  | .execStop pid =>
    match w.procs pid with
    | some p =>
      match p.phase with
      | .replaced path =>
        some { w.setPhase pid { p with execed := true } .fresh with
          tracer := w.tracer.execEvent pid
          used := path :: w.used }
      | _ => none
    | none => none
  | .forkStop pid =>
    match w.procs pid with
    | some p =>
      match p.phase with
      | .cloned sharesDir child =>
        some { (w.setPhase pid p (.finished (.clone sharesDir) none)).announce child with
          tracer := w.tracer.forkEvent pid child }
      | _ => none
    | none => none
  | .leave pid regs =>
    match w.procs pid with
    | some p =>
      match p.phase with
      | .finished call opened =>
        some { w.setPhase pid p .user with
          tracer := w.tracer.syscallStop pid call regs
          used := opened.toList ++ w.used }
      | .fresh =>
        some { w.setPhase pid p .user with
          tracer := w.tracer.syscallStop pid (.execve []) (regs.map fun _ => none) }
      | _ => none
    | none => none
  | .die pid =>
    match w.procs pid with
    | some p =>
      some { w with
        procs := Function.update w.procs pid none
        pending := match p.phase with
          | .cloned _ child => Function.update w.pending child false
          | _ => w.pending
        tracer := w.tracer.exited pid }
    | none => none
  | .signalStop pid => if (w.procs pid).isSome then some w else none

def Step (w w' : World) : Prop := ∃ e, w.next e = some w'

/-- One process, in the directory in which the tracer runs. -/
structure Started (w : World) : Prop where
  root : ∃ pid, w.procs = Function.update (fun _ => none) pid
      (some { dir := 0, phase := .user, execed := false, announced := true }) ∧
    w.tracer.procs = Function.update (fun _ => none) pid
      (some { cwd := w.tracer.cwd0, inSyscall := false })
  cwd : w.cwd 0 = w.tracer.cwd0
  nextDir : w.nextDir = 1
  pending : ∀ pid, w.pending pid = false
  observed : w.tracer.observed = []
  traceMarkers : w.tracer.traceMarkers = []
  used : w.used = []

end World

end Redo.Trace
