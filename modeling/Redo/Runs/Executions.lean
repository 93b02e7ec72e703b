import Redo.Runs.Always
import Redo.Runs.Bystanders

/-! # How often a recipe is executed

From the decision to build a target to the end of the build one process owns its lock. The decision
is made in several places, and they do not all ask the same questions.
-/
namespace Redo.Runs
open State Dirtiness Override Completion

/-- Where a process decides whether to build a target. -/
inductive Entry where
  | firstPass
  /-- After the lock has been waited for. -/
  | secondPass
  /-- After a slot of the pool has been waited for. -/
  | poolPass
  /-- `redo-unlocked`, for the process that owns the lock. -/
  | unlocked
  /-- `schedule_build_one`, for a generated dependency whose file is missing. -/
  | missing
deriving DecidableEq

/-- What the process that owns the lock of a target is about to do. -/
inductive Claim where
  /-- `redo-unlocked` finds out whether the target has to be built. -/
  | check
  | build
deriving DecidableEq

/-- The answer of a walk that does not find the file clean. -/
def Project.dirty (s : Project) (f : File) : Bool :=
  match (isdirtyDefault [] s.disk s.R s.db f s.R).result with
  | .ok .dirty | .ok (.mustBuild _) => true
  | .ok .clean | .error _ => false

namespace Entry

/-- Is there the test for `failed in another thread`? -/
def testsFailed : Entry → Bool
  | secondPass | poolPass => true
  | _ => false

/-- Is `isdirty` called? -/
def walks : Entry → Bool
  | missing => false
  | _ => true

def turnsAway (entry : Entry) (s : Project) (f : File) : Bool :=
  entry.testsFailed && f.isFailed s.R

/-- What the process goes on to do. `oob` is whether `redo-unlocked` may be called. -/
def verdict (entry : Entry) (oob : Bool) (s : Project) (f : File) : Option Claim :=
  if entry.turnsAway s f then none
  else if entry.walks then
    match (isdirtyDefault [] s.disk s.R s.db f s.R).result with
    | .ok .dirty => some .build
    | .ok (.mustBuild list) =>
      if entry ≠ .unlocked && oob && list.map (·.id) ≠ [f.id] then some .check else some .build
    | .ok .clean | .error _ => none
  else some .build

theorem of_verdict {entry : Entry} {oob : Bool} {s : Project} {f : File}
    (h : entry.verdict oob s f ≠ none) :
    entry.turnsAway s f = false ∧ (entry.walks = false ∨ s.dirty f = true) := by
  unfold verdict at h
  unfold Project.dirty
  split_ifs at h with haway hwalks
  · exact absurd rfl h
  · refine ⟨by simpa using haway, .inr ?_⟩
    split at h
    · rfl
    · rfl
    · exact absurd rfl h
    · exact absurd rfl h
  · exact ⟨by simpa using haway, .inl (by simpa using hwalks)⟩

/-- The tables after the decision. -/
def look (entry : Entry) (s : Project) (f : File) : Project :=
  if !entry.turnsAway s f && entry.walks then (Event.isdirty f s.R).apply s else s

end Entry

/-- A project with what its processes are about to do. -/
structure Work extends Project where
  /-- Until a builder takes the target. -/
  claimed : FileId → Option Claim := fun _ => none
  /-- Has the recipe of the build under way been started? -/
  started : FileId → Bool := fun _ => false
  /-- How often the recipe has been started in this run. -/
  executions : FileId → ℕ := fun _ => 0

inductive Act where
  /-- A process comes to the target, whose row it has just read. -/
  | enter (entry : Entry) (oob : Bool) (f : File)
  /-- The lock is given back without an attempt: there is no slot in the pool, or `redo-unlocked` has
  failed before. -/
  | giveBack (id : FileId)
  | attempt (q : Cache.Request)
  | start (id : FileId)
  | other (e : Event)
  | newRun (R : RunId)

namespace Act

def apply (p : Work) : Act → Work
  | enter entry oob f =>
    { p with
      toProject := entry.look p.toProject f
      claimed := Function.update p.claimed f.id (entry.verdict oob p.toProject f) }
  | giveBack id => { p with claimed := Function.update p.claimed id none }
  | attempt q =>
    { p with
      toProject := (Event.attempt q).apply p.toProject
      claimed := Function.update p.claimed q.sf.id none
      started := Function.update p.started q.sf.id false }
  | start id =>
    { p with
      started := Function.update p.started id true
      executions := Function.update p.executions id (p.executions id + 1) }
  | other e => { p with toProject := e.apply p.toProject }
  | newRun R =>
    { p with toProject := (Event.newRun R).apply p.toProject, executions := fun _ => 0 }

end Act

/-- When an event of a build can take place: before the recipe, or from its start on. No stamp is
empty. -/
def Event.InOrder (p : Work) : Event → Prop
  | .newRun _ | .attempt _ => False
  | .cacheHit id | .giveUp id => p.started id = false
  | .ifchange id _ | .ifcreate id _ | .always id | .stamp id _ => p.started id = true
  | .finish i _ disk => p.started i.sf.id = true ∧ ∀ name, disk.readStamp name ≠ ""
  | .edit disk => ∀ name, disk.readStamp name ≠ ""
  | _ => True

/-- When an act can take place. All but `redo-unlocked` come with the lock that they have just
taken. -/
def Act.Fits (p : Work) : Act → Prop
  | enter entry _ f => p.db.byId p.R f.id = some f ∧ p.building f.id = none ∧
      p.claimed f.id = if entry = .unlocked then some .check else none
  | giveBack id => p.claimed id ≠ none
  | attempt q => p.claimed q.sf.id = some .build ∧ (Event.attempt q).Fits p.toProject
  | start id => (p.building id).isSome = true ∧ p.started id = false
  | other e => e.Fits p.toProject ∧ e.InOrder p
  | newRun R => (Event.newRun R).Fits p.toProject ∧ ∀ x, p.claimed x = none

/-- What an act does to the project. -/
def Act.event (p : Work) : Act → Event
  | enter entry _ f =>
    if !entry.turnsAway p.toProject f && entry.walks then .isdirty f p.R else .edit p.disk
  | giveBack _ | start _ => .edit p.disk
  | attempt q => .attempt q
  | other e => e
  | newRun R => .newRun R

variable {p : Work} {a : Act}

theorem Act.apply_toProject (a : Act) (p : Work) :
    (a.apply p).toProject = (a.event p).apply p.toProject := by
  cases a with
  | enter entry oob f =>
    rw [Act.apply, Act.event, Entry.look]
    split <;> rfl
  | _ => rfl

theorem Act.Fits.event (h : a.Fits p) : (a.event p).Fits p.toProject := by
  have hnothing : (Event.edit p.disk).Fits p.toProject := trivial
  cases a with
  | enter entry oob f =>
    rw [Act.event]
    split
    · exact h.1
    · exact hnothing
  | giveBack | start => exact hnothing
  | attempt q => exact h.2
  | other e => exact h.1
  | newRun R => exact h.1

/-- Only a new run changes the run. -/
theorem Act.Fits.run (h : a.Fits p) (hrun : ∀ R, a ≠ newRun R) : (a.apply p).R = p.R := by
  have hevent : ∀ R, a.event p ≠ .newRun R := by
    intro R
    cases a with
    | enter entry oob f =>
      rw [Act.event]
      split <;> simp
    | other e =>
      rintro rfl
      exact h.2
    | newRun R' => exact absurd rfl (hrun R')
    | _ => simp [Act.event]
  rw [a.apply_toProject p]
  exact apply_R hevent

/-- An empty project in which nothing happens yet. -/
structure Work.Begun (p : Work) : Prop extends Started p.toProject where
  claimed : p.claimed = fun _ => none
  started : p.started = fun _ => false
  executions : p.executions = fun _ => 0
  stamps : ∀ name, p.disk.readStamp name ≠ ""
  absent : p.disk.readStamp ALWAYS = STAMP_MISSING

def WorkStep (p p' : Work) : Prop := ∃ a : Act, a.Fits p ∧ p' = a.apply p

/-- Nobody is about to build the file, and its own row is as a walk wants it. -/
structure Quiet (p : Work) (x : FileId) (f : File) : Prop where
  row : p.db.byId p.R x = some f
  idle : p.building x = none
  free : p.claimed x = none
  notFailed : f.failedRunid = none
  changed : f.changedRunid.isSome = true
  notAfter : f.changedRunid.getD 0 ≤ p.R
  stamp : f.stamp = some (p.disk.readStamp f.name)

/-- Neither an override nor a source. -/
def HasDeps (f : File) : Prop := f.isOverride = false ∧ f.isGenerated = true

/-- The file is up to date for the rest of the run: no walk finds anything to do, and nobody has
found anything to do before. -/
inductive Settled (p : Work) : FileId → Prop where
  | checked {x : FileId} {f : File} (quiet : Quiet p x f) (mark : f.isChecked p.R = true) :
      Settled p x
  | walked {x : FileId} {f : File} (quiet : Quiet p x f)
      (absent : HasDeps f → ∀ d ∈ p.db.deps, d.target = x → d.mode = 'c' →
        ∃ r, p.db.lookup d.source = some r ∧ p.disk.pathExists r.name = false)
      (notAfter : HasDeps f → ∀ d ∈ p.db.deps, d.target = x → d.mode = 'm' →
        ∀ g, p.db.byId p.R d.source = some g → g.changedRunid.getD 0 ≤ f.lastSeen)
      (deps : HasDeps f → ∀ d ∈ p.db.deps, d.target = x → d.mode = 'm' → Settled p d.source) :
      Settled p x

/-- What has been executed and is up to date stays so when the files change. -/
def KeepsSettled (p : Work) (disk : Disk) : Prop :=
  ∀ x, 0 < p.executions x → Settled p x → Settled { p with disk } x

/-- All that the recipe has declared, itself or by the list of a job on a server, is up to date. -/
def BroughtUpToDate (p : Work) (i : Input) : Prop :=
  ∀ db, i.Base db → ∀ d ∈ db.deps, d.target = i.sf.id → d.deleteMe = false →
    (d.mode = 'm' → Settled p d.source) ∧
      (d.mode = 'c' → ∃ r, p.db.lookup d.source = some r ∧ p.disk.pathExists r.name = false)

/-- No file that matters changes, no recipe ends with code 0 on top of what is not up to date, and no
builder dies on its recipe. -/
def Event.Considerate (p : Work) : Event → Prop
  | .edit disk => KeepsSettled p disk
  | .finish i scheduled disk => KeepsSettled p disk ∧
      ((outcome i scheduled).ended = .code 0 → BroughtUpToDate { p with disk } i)
  | .die id => p.started id = false
  | _ => True

/-- Where a process does not ask whether the target has failed in this run, or does not walk, it
would learn nothing against the build. -/
def Act.Considerate (p : Work) : Act → Prop
  | enter entry _ f => (entry.testsFailed = false → f.isFailed p.R = false) ∧
      (entry.walks = false → p.dirty f = true)
  | attempt q => (Event.attempt q).Plain p.toProject
  | other e => e.Plain p.toProject ∧ e.Considerate p
  | _ => True

def ConsiderateStep (p p' : Work) : Prop :=
  ∃ a : Act, a.Fits p ∧ a.Considerate p ∧ p' = a.apply p

end Redo.Runs
