import Mathlib.Logic.Function.Basic
import Mathlib.Logic.Relation
import Redo.State.Files

/-! # The scheduler of `redo-ifchange`

`run_ifchange` of one process, call by call. What the other processes do to the locks, the rows
and the pools shows only in the answers that the calls give, and any answer may come at any time.
-/
namespace Redo.Scheduler
open State Relation

inductive Kind where
  | recipe
  | unlocked
  /-- The recipe of a missing dependency, started by `build_one`. -/
  | nested
deriving DecidableEq

/-- An entry of `WAITFDS`, with the file that it was started for. -/
structure Job where
  reason : String
  fid : FileId
  kind : Kind
deriving DecidableEq

structure LockedTarget where
  fid : FileId
  tArg : String
deriving DecidableEq

/-- Where a target in hand comes from: the argument list or one of the two queues. -/
inductive Origin where
  | first
  | locked
  | poolBlocked
deriving DecidableEq

structure Hand where
  t : String
  fid : FileId
  origin : Origin
deriving DecidableEq

inductive Outcome where
  | clean
  | static
  | overridden
  | cacheHit
  | recipe (rv : ℤ)
  | unlocked (rv : ℤ)
  | noRule
  | missingDep
  | failedElsewhere
deriving DecidableEq

/-- Not in the source: what has come of a target. -/
structure Entry where
  t : String
  outcome : Outcome
  /-- Whether the process owned the lock of the target by then. -/
  owned : Bool
deriving DecidableEq

inductive Error where
  /-- "Lock already created". -/
  | lockCreated
  | other
deriving DecidableEq

/-- The call that comes next. -/
inductive Ctl where
  | first
  | token (t : String)
  | newLock (h : Hand)
  | trylock (h : Hand)
  | waitlock (h : Hand)
  | retoken (h : Hand)
  | owned (h : Hand)
  /-- `schedule_build_one` with a rule, over the recorded dependencies. -/
  | deps (h : Hand)
  /-- `build_one` of the missing dependency `d`. -/
  | nestedNew (h : Hand) (d : FileId)
  | nestedLock (h : Hand) (d : FileId)
  /-- Inside `waitlock`, for another process owns the lock. -/
  | nestedBlocked (h : Hand) (d : FileId)
  | nestedOwned (h : Hand) (d : FileId)
  | nestedWait (h : Hand) (d : FileId)
  | startToken (h : Hand)
  | second
  | waitAll
  | pick
  | returned (r : Except Error ℕ)

def Origin.loop : Origin → Ctl
  | .first => .first
  | _ => .second

/-- The calls that wait for a token or for jobs, and so reap. -/
def Ctl.Reaps : Ctl → Prop
  | .token _ | .retoken _ | .nestedOwned .. | .nestedWait .. | .startToken _ | .waitAll => True
  | _ => False

def Ctl.Returned : Ctl → Prop
  | .returned _ => True
  | _ => False

def Job.outcome (j : Job) (rv : ℤ) : Outcome :=
  match j.kind with
  | .unlocked => .unlocked rv
  | _ => .recipe rv

structure Config where
  byName : String → FileId
  keepGoing : Bool
  noOob : Bool

structure Sched where
  ctl : Ctl
  locked : List LockedTarget
  poolBlocked : List LockedTarget
  jobs : List Job
  locksHeld : FileId → Option Bool
  rcFlag : ℕ
  log : List Entry

namespace Sched

def goto (s : Sched) (k : Ctl) : Sched := { s with ctl := k }

def setHeld (s : Sched) (fid : FileId) (b : Option Bool) : Sched :=
  { s with locksHeld := Function.update s.locksHeld fid b }

/-- `Lock::new`; `none` is "Lock already created". -/
def newLock (s : Sched) (fid : FileId) : Option Sched :=
  if s.locksHeld fid = some true then none else some (s.setHeld fid (some false))

/-- Dropping the lock removes it from the table, and unlocks it first if it is owned. -/
def drop (s : Sched) (fid : FileId) : Sched := s.setHeld fid none

def entry (s : Sched) (t : String) (fid : FileId) (o : Outcome) : Entry :=
  ⟨t, o, s.locksHeld fid = some true⟩

/-- The target in hand is done with, and the loop goes on. -/
def settle (s : Sched) (h : Hand) (o : Outcome) : Sched :=
  ({ s with log := s.entry h.t h.fid o :: s.log }.drop h.fid).goto h.origin.loop

def settleWith (s : Sched) (h : Hand) (o : Outcome) (rc : ℕ) : Sched :=
  { s.settle h o with rcFlag := rc }

/-- `jobserver::start`: the lock of the target moves into the job. -/
def start (s : Sched) (h : Hand) (k : Kind) : Sched :=
  { s.goto h.origin.loop with jobs := ⟨h.t, h.fid, k⟩ :: s.jobs }

def startNested (s : Sched) (h : Hand) (d : FileId) (reason : String) : Sched :=
  { s.goto (.nestedWait h d) with jobs := ⟨reason, d, .nested⟩ :: s.jobs }

def pushLocked (s : Sched) (h : Hand) : Sched :=
  { (s.drop h.fid).goto h.origin.loop with locked := s.locked ++ [⟨h.fid, h.t⟩] }

def pushPoolBlocked (s : Sched) (h : Hand) : Sched :=
  { (s.drop h.fid).goto h.origin.loop with poolBlocked := s.poolBlocked ++ [⟨h.fid, h.t⟩] }

/-- The nested `build_one` returns: the next dependency, or the end of the target in hand. -/
def nestedDone (s : Sched) (h : Hand) (d : FileId) (rv : ℤ) : Sched :=
  if rv = 0 then (s.drop d).goto (.deps h) else (s.drop d).settleWith h .missingDep 1

/-- A job has ended; its callback is called with `rv`, after which its lock is dropped. -/
def reap (s : Sched) (j : Job) (rv : ℤ) : Sched :=
  if j.kind = .nested then { s with jobs := s.jobs.erase j }
  else
    { s.drop j.fid with
      jobs := s.jobs.erase j
      rcFlag := if rv = 0 then s.rcFlag else 1
      log := s.entry j.reason j.fid (j.outcome rv) :: s.log }

section Calls
variable (s : Sched) (k : Ctl) (h : Hand) (d fid : FileId) (o : Outcome) (kind : Kind) (j : Job)

@[simp] theorem goto_ctl : (s.goto k).ctl = k := rfl
@[simp] theorem settle_ctl : (s.settle h o).ctl = h.origin.loop := rfl
@[simp] theorem settleWith_ctl (rc : ℕ) : (s.settleWith h o rc).ctl = h.origin.loop := rfl
@[simp] theorem start_ctl : (s.start h kind).ctl = h.origin.loop := rfl
@[simp] theorem startNested_ctl (reason : String) :
    (s.startNested h d reason).ctl = .nestedWait h d := rfl
@[simp] theorem pushLocked_ctl : (s.pushLocked h).ctl = h.origin.loop := rfl
@[simp] theorem pushPoolBlocked_ctl : (s.pushPoolBlocked h).ctl = h.origin.loop := rfl

theorem nestedDone_ctl (rv : ℤ) :
    (s.nestedDone h d rv).ctl = if rv = 0 then .deps h else h.origin.loop := by
  rw [nestedDone]
  split_ifs <;> rfl

@[simp] theorem reap_ctl (rv : ℤ) : (s.reap j rv).ctl = s.ctl := by
  rw [reap]
  split_ifs <;> rfl

end Calls

/-- Neither queue has anything left. -/
def Drained (s : Sched) : Prop := s.locked = [] ∧ s.poolBlocked = []

/-- A failure stops everything that has not been started. -/
def Stops (c : Config) (s : Sched) : Prop := s.rcFlag ≠ 0 ∧ c.keepGoing = false

end Sched

/-- What follows the choice of a target, in either pass. -/
inductive Step (c : Config) : Sched → Sched → Prop where
  | take {s : Sched} {t : String} (at_ : s.ctl = .token t) (go : ¬s.Stops c) :
      Step c s (s.goto (.newLock ⟨t, c.byName t, .first⟩))
  | reap {s : Sched} (at_ : s.ctl.Reaps) {j : Job} (mem : j ∈ s.jobs) (rv : ℤ) :
      Step c s (s.reap j rv)
  | lockCreated {s : Sched} {h : Hand} (at_ : s.ctl = .newLock h)
      (held : s.newLock h.fid = none) : Step c s (s.goto (.returned (.error .lockCreated)))
  | newLock {s s' : Sched} {h : Hand} (at_ : s.ctl = .newLock h)
      (new : s.newLock h.fid = some s') : Step c s (s'.goto (.trylock h))
  /-- Only the first pass looks for the cyclic dependency in the error of `trylock`. -/
  | cyclic {s : Sched} {h : Hand} (at_ : s.ctl = .trylock h) :
      Step c s ((s.drop h.fid).goto
        (.returned (if h.origin = .first then .ok 208 else .error .other)))
  | own {s : Sched} {h : Hand} (at_ : s.ctl = .trylock h) :
      Step c s ((s.setHeld h.fid (some true)).goto (.owned h))
  | queue {s : Sched} {h : Hand} (at_ : s.ctl = .trylock h) (origin : h.origin ≠ .locked) :
      Step c s (s.pushLocked h)
  | wait {s : Sched} {h : Hand} (at_ : s.ctl = .trylock h) (origin : h.origin = .locked) :
      Step c s (s.goto (.waitlock h))
  | waitCyclic {s : Sched} {h : Hand} (at_ : s.ctl = .trylock h) (origin : h.origin = .locked) :
      Step c s ((s.drop h.fid).goto (.returned (.ok 208)))
  /-- What `waitlock` gets is unlocked at once. -/
  | waited {s : Sched} {h : Hand} (at_ : s.ctl = .waitlock h) :
      Step c s ((s.setHeld h.fid (some false)).goto (.retoken h))
  | retry {s : Sched} {h : Hand} (at_ : s.ctl = .retoken h) : Step c s (s.goto (.trylock h))
  | failedElsewhere {s : Sched} {h : Hand} (at_ : s.ctl = .owned h) (origin : h.origin ≠ .first) :
      Step c s (s.settleWith h .failedElsewhere 2)
  | clean {s : Sched} {h : Hand} (at_ : s.ctl = .owned h) : Step c s (s.settle h .clean)
  /-- The walk has found files other than the target that must be built first. -/
  | unlocked {s : Sched} {h : Hand} (at_ : s.ctl = .owned h) (oob : c.noOob = false)
      (files : List FileId) (other : files ≠ [h.fid]) : Step c s (s.start h .unlocked)
  | overridden {s : Sched} {h : Hand} (at_ : s.ctl = .owned h) :
      Step c s (s.settle h .overridden)
  | static {s : Sched} {h : Hand} (at_ : s.ctl = .owned h) : Step c s (s.settle h .static)
  | defer {s : Sched} {h : Hand} (at_ : s.ctl = .owned h) : Step c s (s.pushPoolBlocked h)
  | noRule {s : Sched} {h : Hand} (at_ : s.ctl = .owned h) :
      Step c s (s.settleWith h .noRule 1)
  | rule {s : Sched} {h : Hand} (at_ : s.ctl = .owned h) : Step c s (s.goto (.deps h))
  | missingSource {s : Sched} {h : Hand} (at_ : s.ctl = .deps h) :
      Step c s (s.settleWith h .missingDep 1)
  /-- `dep.id != sf.id`, and `d` is the row that `by_name` finds for the path of the dependency: its
  own, as long as no directory on that path has become a link. -/
  | nested {s : Sched} {h : Hand} (at_ : s.ctl = .deps h) {d : FileId} (ne : d ≠ h.fid) :
      Step c s (s.goto (.nestedNew h d))
  | nestedCreated {s : Sched} {h : Hand} {d : FileId} (at_ : s.ctl = .nestedNew h d)
      (held : s.newLock d = none) :
      Step c s ((s.drop h.fid).goto (.returned (.error .lockCreated)))
  | nestedNew {s s' : Sched} {h : Hand} {d : FileId} (at_ : s.ctl = .nestedNew h d)
      (new : s.newLock d = some s') : Step c s (s'.goto (.nestedLock h d))
  /-- `build_one` returns 208. -/
  | nestedCyclic {s : Sched} {h : Hand} {d : FileId} (at_ : s.ctl = .nestedLock h d) :
      Step c s (s.nestedDone h d 208)
  | nestedFree {s : Sched} {h : Hand} {d : FileId} (at_ : s.ctl = .nestedLock h d) :
      Step c s ((s.setHeld d (some true)).goto (.nestedOwned h d))
  | nestedBlock {s : Sched} {h : Hand} {d : FileId} (at_ : s.ctl = .nestedLock h d) :
      Step c s (s.goto (.nestedBlocked h d))
  | nestedUnblock {s : Sched} {h : Hand} {d : FileId} (at_ : s.ctl = .nestedBlocked h d) :
      Step c s ((s.setHeld d (some true)).goto (.nestedOwned h d))
  /-- The dependency is overridden or static, or has no rule. -/
  | nestedSkip {s : Sched} {h : Hand} {d : FileId} (at_ : s.ctl = .nestedOwned h d) (rv : ℤ) :
      Step c s (s.nestedDone h d rv)
  | nestedStart {s : Sched} {h : Hand} {d : FileId} (at_ : s.ctl = .nestedOwned h d)
      (reason : String) : Step c s (s.startNested h d reason)
  | nestedDone {s : Sched} {h : Hand} {d : FileId} (at_ : s.ctl = .nestedWait h d)
      (idle : s.jobs = []) (rv : ℤ) : Step c s (s.nestedDone h d rv)
  | cacheHit {s : Sched} {h : Hand} (at_ : s.ctl = .deps h) : Step c s (s.settle h .cacheHit)
  | miss {s : Sched} {h : Hand} (at_ : s.ctl = .deps h) : Step c s (s.goto (.startToken h))
  | start {s : Sched} {h : Hand} (at_ : s.ctl = .startToken h) : Step c s (s.start h .recipe)
  | finish {s : Sched} (at_ : s.ctl = .second) (drained : s.Drained) (idle : s.jobs = []) :
      Step c s (s.goto (.returned (.ok s.rcFlag)))
  | waitAll {s : Sched} (at_ : s.ctl = .second) (more : ¬(s.Drained ∧ s.jobs = [])) :
      Step c s (s.goto .waitAll)
  | allDone {s : Sched} (at_ : s.ctl = .waitAll) (idle : s.jobs = []) : Step c s (s.goto .pick)
  | stop {s : Sched} (at_ : s.ctl = .pick) (stops : s.Stops c) :
      Step c s (s.goto (.returned (.ok s.rcFlag)))
  | nothing {s : Sched} (at_ : s.ctl = .pick) (go : ¬s.Stops c) (drained : s.Drained) :
      Step c s (s.goto .second)
  | pickPoolBlocked {s : Sched} (at_ : s.ctl = .pick) (go : ¬s.Stops c) (none : s.locked = [])
      {lt : LockedTarget} {rest : List LockedTarget} (head : s.poolBlocked = lt :: rest) :
      Step c s { s.goto (.newLock ⟨lt.tArg, lt.fid, .poolBlocked⟩) with poolBlocked := rest }
  | pickLocked {s : Sched} (at_ : s.ctl = .pick) (go : ¬s.Stops c)
      {lt : LockedTarget} {rest : List LockedTarget} (head : s.locked = lt :: rest) :
      Step c s { s.goto (.newLock ⟨lt.tArg, lt.fid, .locked⟩) with locked := rest }
  /-- `check_sane`, in either pass. -/
  | insane {s : Sched} (at_ : (∃ t, s.ctl = .token t) ∨ s.ctl = .pick) (go : ¬s.Stops c) :
      Step c s (s.goto (.returned (.ok 205)))
  /-- Any `?`. -/
  | fail {s : Sched} (at_ : ¬s.ctl.Returned) : Step c s (s.goto (.returned (.error .other)))

/-- The loop over the arguments, around the steps for one target. -/
structure Run where
  todo : List String
  seen : List String
  sched : Sched

inductive RunStep (c : Config) : Run → Run → Prop where
  | empty {r : Run} (at_ : r.sched.ctl = .first) {rest : List String} (head : r.todo = "" :: rest) :
      RunStep c r { r with sched := r.sched.goto (.returned (.ok 204)) }
  | skip {r : Run} (at_ : r.sched.ctl = .first) {t : String} {rest : List String}
      (head : r.todo = t :: rest) (ne : t ≠ "") (mem : t ∈ r.seen) :
      RunStep c r { r with todo := rest }
  | visit {r : Run} (at_ : r.sched.ctl = .first) {t : String} {rest : List String}
      (head : r.todo = t :: rest) (ne : t ≠ "") (new : t ∉ r.seen) :
      RunStep c r ⟨rest, t :: r.seen, r.sched.goto (.token t)⟩
  /-- `break`: the target stays unvisited, and `seen` is not looked at again. -/
  | stop {r : Run} {t : String} (at_ : r.sched.ctl = .token t) (stops : r.sched.Stops c) :
      RunStep c r ⟨t :: r.todo, r.seen.erase t, r.sched.goto .second⟩
  | through {r : Run} (at_ : r.sched.ctl = .first) (none : r.todo = []) :
      RunStep c r { r with sched := r.sched.goto .second }
  | sched {r : Run} {s' : Sched} (step : Step c r.sched s') : RunStep c r { r with sched := s' }

/-- What is requested; top level without arguments means `all`. -/
def useTargets (toplevel : Bool) (targets : List String) : List String :=
  if toplevel && targets.isEmpty then ["all"] else targets

/-- `run_ifchange` at the first pass; a newline in a name is code 204. -/
def begin (targets : List String) : Run where
  todo := targets
  seen := []
  sched :=
    { ctl := if targets.any (·.toList.contains '\n') then .returned (.ok 204) else .first
      locked := []
      poolBlocked := []
      jobs := []
      locksHeld := fun _ => none
      rcFlag := 0
      log := [] }

/-- What the walk and `build_one` say of a target in unlocked mode. -/
inductive Answer where
  | clean
  | built (rv : ℤ)
  | error
deriving DecidableEq

/-- The loop for `redo-unlocked`, whose caller holds the locks; it does not look for duplicates. -/
def unlockedLoop (keepGoing : Bool) : ℕ → List (String × Answer) → Except Error ℕ
  | rc, [] => .ok rc
  | rc, (t, answer) :: rest =>
    if t = "" then .ok 204
    else match answer with
      | .error => .error .other
      | .clean => unlockedLoop keepGoing rc rest
      | .built rv =>
        if rv = 0 then unlockedLoop keepGoing rc rest
        else if keepGoing then unlockedLoop keepGoing 1 rest
        else .ok 1

end Redo.Scheduler
