import Redo.Cache.Schedule
import Redo.Completion.Twins
import Redo.Library.Scripts
import Redo.Logs.MetaLines
import Redo.Paths.Keys

/-! # The announcements of a target

`build_one` and `schedule_build_one` as programs: each call may fail, and any answer may come at any
time. What they tell the log of the target is in the calls. The recipe of a target, the redo-unlocked
job of one and its next attempt follow where they do in time, whatever else the process does between.
-/
namespace Redo.Logs.Announcements
open Library Remote State Override Paths

inductive MetaKind where
  | do'
  | done
  | waiting
  | locked
  | unlocked
  | unchanged
  | check
deriving DecidableEq, Repr

/-- A call of `Log::meta`. -/
structure Line where
  kind : MetaKind
  msg : Text
deriving DecidableEq, Repr

/-- Which of the two functions it is that calls. -/
inductive Builder where
  | buildOne
  | scheduleBuildOne

inductive Verdict where
  | clean
  /-- Other files have to be built before it is known. -/
  | uncertain
  | dirty

/-- Steps that go well or leave the function with an error. -/
inductive Step where
  | newLock
  | setOverride
  | setStatic
  | setFailed
  | save
  | commit
  | unlock
  | persistNewTargetIntent
  | zapDeps1
  | zapDeps2
  | lstat
  | refresh
  | updateStamp
  | addDep
  | mkstemp
  | token
  | start
  | waitAll
  | checkCycles
  | waitlock

inductive Call where
  | log (line : Line)
  | step (s : Step)
  /-- The row of the target as it is by then. -/
  | row
  /-- `waitlock` of `build_one`: whether there is no cycle. -/
  | waitlock
  | readStamp (sf : File)
  | pathExists
  | findDo (b : Builder)
  | findDoNoDeps
  /-- `parse_redo_pool_directive`: whether there is a pool. -/
  | pool
  | tryAcquirePool (b : Builder)
  | cacheEnabled
  | deps
  | depExists (name : String)
  /-- `build_one` of a dependency. -/
  | buildDep (name : String)
  /-- The key, and whether there may be an entry for it. -/
  | actionKey
  /-- Whether there is one, here or remote, and it has been renamed into place. -/
  | restore
  /-- `rc_flag.store`. -/
  | raise (rc : ℤ)
  /-- The end of the recipe; nothing if the process does not wait for it. -/
  | recipe
  | trylock
  | isFailed
  | isDirty
  /-- The end of redo-unlocked's first command; nothing if nobody waits for it. -/
  | unlockedDeps

@[reducible] def Answer : Call → Type
  | .log _ => Unit
  | .step _ => Bool
  | .row => Option File
  | .waitlock => Option Bool
  | .readStamp _ => Option Stamp
  | .pathExists => Bool
  | .findDo _ => Option Bool
  | .findDoNoDeps => Option Bool
  | .pool => Option Bool
  | .tryAcquirePool _ => Option Bool
  | .cacheEnabled => Bool
  | .deps => Option (List (Char × File))
  | .depExists _ => Bool
  | .buildDep _ => Option ℤ
  | .actionKey => Option Bool
  | .restore => Bool
  | .raise _ => Unit
  | .recipe => Option Completion.Input
  | .trylock => Option Bool
  | .isFailed => Option Bool
  | .isDirty => Option Verdict
  | .unlockedDeps => Option ℤ

inductive End where
  /-- The target's final code. -/
  | resolved (code : ℤ)
  | deferred
  | error
  /-- The process has ended without it, or goes on. -/
  | unfinished

abbrev Prog := Script Call Answer End

/-- A process that builds. -/
structure Caller extends Process where
  startdir : Text
  pwd : Text
  target : Text

namespace Caller

def targetRelpath (c : Caller) (t : Text) : Text :=
  if c.startdir = [] ∨ c.target = [] then c.relpath t c.envBase
  else
    let dofileDir := push c.startdir c.pwd
    c.relpath t ((parent (push dofileDir c.target)).getD dofileDir)

def trp (c : Caller) (name : String) : Text := c.targetRelpath (push c.envBase name.toList)

end Caller

def orError {α : Type} (r : Option α) (k : α → Prog) : Prog := r.elim (.done .error) k

def steps : List Step → Prog → Prog
  | [], k => k
  | s :: ss, k => .call (.step s) fun ok => if ok then steps ss k else .done .error

def log (kind : MetaKind) (msg : Text) (k : Prog) : Prog := .call (.log ⟨kind, msg⟩) fun _ => k

def finish (code : ℤ) (name : Text) : Prog := log .done (doneMsg code name) (.done (.resolved code))

/-- The end of a target that cannot be built. -/
def fail (name : Text) : Prog :=
  steps [.setFailed, .save, .commit, .unlock]
    (log .done (doneMsg 1 name) (.call (.raise 1) fun _ => .done (.resolved 1)))

/-- The callback's end. -/
def complete (name : Text) : Completion.Ended → Prog
  | .code rv => if rv = 0 then finish rv name else .call (.raise 1) fun _ => finish rv name
  | .error => .done .error

variable (c : Caller) (sf : File)

def overrideSteps (sf : File) : List Step := if sf.isOverride then [] else [.setOverride, .save, .commit]

/-- `schedule_build_one`, from the token for the recipe on. -/
def scheduleJob : Prog :=
  steps [.token, .mkstemp, .commit, .start] <|
    .call .recipe fun i => i.elim (.done .unfinished) fun i => complete (c.trp sf.name) i.schedule.ended

def scheduleKey (deps : List (Char × File)) : Prog :=
  .call .actionKey fun eligible => orError eligible fun eligible =>
    if eligible then
      .call .restore fun hit =>
        if hit then
          steps ([.refresh, .updateStamp] ++ deps.map (fun _ => .addDep) ++ [.zapDeps2, .save, .commit, .unlock]) <|
            finish 0 (c.trp sf.name)
        else scheduleJob c sf
    else scheduleJob c sf

/-- The loop over the recorded dependencies. -/
def scheduleDeps (k : Prog) : List (Char × File) → Prog
  | [] => k
  | p :: rest =>
    if Cache.skips sf p then scheduleDeps k rest
    else
      .call (.depExists p.2.name) fun present =>
        if present then scheduleDeps k rest
        else if p.2.isGenerated then
          .call (.buildDep p.2.name) fun rv => orError rv fun rv =>
            if rv = 0 then scheduleDeps k rest else fail (c.trp sf.name)
        else fail (c.trp sf.name)

def scheduleCache : Prog :=
  .call .cacheEnabled fun on =>
    if on && sf.csum.isNone then
      .call .deps fun deps => orError deps fun deps => scheduleDeps c sf (scheduleKey c sf deps) deps
    else scheduleJob c sf

/-- `schedule_build_one`, from `persist_new_target_intent` on. -/
def scheduleRule : Prog :=
  steps [.persistNewTargetIntent, .zapDeps1, .lstat] <|
    .call (.findDo .scheduleBuildOne) fun found => orError found fun found =>
      if found then scheduleCache c sf
      else
        .call .pathExists fun present =>
          if present then steps [.setStatic, .save, .commit, .unlock] (finish 0 (c.trp sf.name))
          else fail (c.trp sf.name)

def schedulePool : Prog :=
  .call .findDoNoDeps fun found => orError found fun found =>
    if found then
      .call .pool fun pool => orError pool fun pool =>
        if pool then
          .call (.tryAcquirePool .scheduleBuildOne) fun slot => orError slot fun slot =>
            if slot then scheduleRule c sf else steps [.unlock] (.done .deferred)
        else scheduleRule c sf
    else scheduleRule c sf

/-- The job's callback, if the process comes to it, and all. -/
def scheduleBuildOne : Prog :=
  log .do' (c.trp sf.name) <|
    .call (.readStamp sf) fun newstamp => orError newstamp fun newstamp =>
      if overridden newstamp sf then
        steps (overrideSteps sf ++ [.unlock]) (finish 0 sf.name.toList)
      else
        .call .pathExists fun present =>
          if present && !sf.isGenerated then
            steps [.setStatic, .save, .commit, .unlock] (finish 0 (c.trp sf.name))
          else schedulePool c sf

/-- In unlocked mode there is no lock. -/
def unlockSteps (unlocked : Bool) : List Step := if unlocked then [] else [.unlock]

/-- The loop that waits for a slot, for some time. -/
def waitPool (k : Prog) : ℕ → Prog
  | 0 => .done .unfinished
  | tries + 1 =>
    .call (.tryAcquirePool .buildOne) fun slot => orError slot fun slot =>
      if slot then k else log .waiting (c.trp sf.name) (waitPool k tries)

def buildJob (unlocked : Bool) : Prog :=
  steps [.mkstemp, .token, .commit, .start, .waitAll] <|
    .call .recipe fun i => orError i fun i =>
      match i.buildOne.ended with
      | .code rv => steps (unlockSteps unlocked) (finish rv (c.trp sf.name))
      | .error => .done .error

def buildRule (unlocked : Bool) (tries : ℕ) : Prog :=
  steps [.persistNewTargetIntent, .zapDeps1, .lstat] <|
    .call (.findDo .buildOne) fun found => orError found fun found =>
      if found then
        .call .pool fun pool => orError pool fun pool =>
          if pool then steps [.commit] (waitPool c sf (buildJob c sf unlocked) tries)
          else buildJob c sf unlocked
      else
        .call .pathExists fun present =>
          if present then steps ([.setStatic, .save, .commit] ++ unlockSteps unlocked) (.done (.resolved 0))
          else steps ([.setFailed, .save, .commit] ++ unlockSteps unlocked) (.done (.resolved 1))

/-- `build_one`, once it has the lock. -/
def buildOwned (unlocked : Bool) (tries : ℕ) : Prog :=
  log .do' (c.trp sf.name) <|
    .call (.readStamp sf) fun newstamp => orError newstamp fun newstamp =>
      if overridden newstamp sf then
        steps (overrideSteps sf ++ unlockSteps unlocked) (finish 0 sf.name.toList)
      else
        .call .pathExists fun present =>
          if present && !sf.isGenerated then
            steps ([.setStatic, .save, .commit] ++ unlockSteps unlocked) (finish 0 (c.trp sf.name))
          else buildRule c sf unlocked tries

/-- The row with the name that the target has. -/
def named (name : String) (sf : File) : File := { sf with name }

def buildOne (name : String) (unlocked : Bool) (tries : ℕ) : Prog :=
  .call .row fun sf => orError sf fun sf =>
    if unlocked then buildOwned c (named name sf) unlocked tries
    else
      steps [.newLock] <| .call .waitlock fun owned => orError owned fun owned =>
        if owned then .call .row fun sf => orError sf fun sf => buildOwned c (named name sf) unlocked tries
        else .done (.resolved 208)

/-! ## A target of redo-ifchange -/

/-- Where `run_ifchange` has the target from. -/
inductive Place where
  | first
  | locked
  /-- Out of `locked`, after a wait for its owner. -/
  | waited
  | poolBlocked

def unchanged (name : String) (sf : File) (k : Prog) : Prog :=
  if sf.isGenerated then log .unchanged (c.trp name) k else k

/-- `run_ifchange` in unlocked mode, for one target. -/
def unlockedIfchange (name : String) (tries : ℕ) : Prog :=
  .call .row fun sf => orError sf fun sf =>
    .call .isDirty fun verdict => orError verdict fun verdict =>
      match verdict with
      | .clean => unchanged c name sf (.done (.resolved 0))
      | _ => buildOne c name true tries

/-- redo-unlocked: the other files, then the target. -/
def redoUnlocked (name : String) (tries : ℕ) : Prog :=
  steps [.commit, .start] <| .call .unlockedDeps fun rv => rv.elim (.done .unfinished) fun rv =>
    if rv = 0 then unlockedIfchange c name tries else .done (.resolved rv)

/-- The target's lock is owned; `again` is what comes after another deferral. -/
def owned (name : String) (tries : ℕ) (again : Prog) : Prog :=
  .call .row fun sf => orError sf fun sf =>
    .call .isDirty fun verdict => orError verdict fun verdict =>
      match verdict with
      | .clean => unchanged c name sf (steps [.unlock] (.done (.resolved 0)))
      | .uncertain => log .check (c.trp name) (redoUnlocked c name tries)
      | .dirty =>
        (scheduleBuildOne c (named name sf)).bind fun e =>
          match e with
          | .deferred => log .waiting (c.trp name) again
          | e => .done e

/-- The lock is owned after others have had it. -/
def ownedAgain (name : String) (tries : ℕ) (again : Prog) : Prog :=
  .call .isFailed fun failed => orError failed fun failed =>
    if failed then .call (.raise 2) fun _ => steps [.unlock] (.done (.resolved 2))
    else owned c name tries again

/-- A target that others have locked; `waited` is what comes after a wait for them. -/
def unlock (name : String) (tries : ℕ) (waited again : Prog) : Prog :=
  .call .trylock fun own => orError own fun own =>
    if own then log .unlocked (c.trp name) (ownedAgain c name tries again)
    else log .waiting (c.trp name) (steps [.checkCycles, .waitlock, .unlock, .token] waited)

/-- One target in `run_ifchange`, for some number of attempts. -/
def settle (name : String) (tries : ℕ) : ℕ → Place → Prog
  | 0, _ => .done .unfinished
  | n + 1, .first =>
    steps [.commit, .token, .newLock] <| .call .trylock fun own => orError own fun own =>
      if own then owned c name tries (settle name tries n .poolBlocked)
      else log .locked (c.trp name) (settle name tries n .locked)
  | n + 1, .locked =>
    steps [.commit, .waitAll, .token, .newLock] <|
      unlock c name tries (settle name tries n .waited) (settle name tries n .poolBlocked)
  | n + 1, .waited => unlock c name tries (settle name tries n .waited) (settle name tries n .poolBlocked)
  | n + 1, .poolBlocked =>
    steps [.commit, .waitAll, .token, .newLock] <| .call .trylock fun own => orError own fun own =>
      if own then ownedAgain c name tries (settle name tries n .poolBlocked)
      else log .locked (c.trp name) (settle name tries n .locked)

/-! ## What a run shows -/

inductive Obs where
  | line (l : Line)
  /-- The user has modified the target, and its row's name is not what it is announced with. -/
  | misnamed
  /-- `build_one` finds no `.do` file. -/
  | noRule
  /-- `schedule_build_one` finds the pool taken. -/
  | deferred
  /-- The target is found up to date or failed, or what it needs cannot be built. -/
  | passed
deriving DecidableEq

def observe : (op : Call) → Answer op → List Obs
  | .log l, _ => [.line l]
  | .readStamp sf, some newstamp =>
    if overridden newstamp sf ∧ sf.name.toList ≠ c.trp sf.name then [.misnamed] else []
  | .findDo .buildOne, some false => [.noRule]
  | .tryAcquirePool .scheduleBuildOne, some false => [.deferred]
  | .isFailed, some true => [.passed]
  | .isDirty, some .clean => [.passed]
  | .unlockedDeps, some rv => if rv = 0 then [] else [.passed]
  | _, _ => []

def Obs.toLine : Obs → Option Line
  | .line l => some l
  | _ => none

def linesOf (os : List Obs) : List Line := os.filterMap Obs.toLine

def announced (lines : List Line) : List Line := lines.filter (·.kind = .do')

def concluded (lines : List Line) : List Line := lines.filter (·.kind = .done)

/-- After each `do` line there is exactly one `done` line, with its name and the final code. -/
def Matched (code : ℤ) (lines : List Line) : Prop :=
  ∀ front name back, lines = front ++ ⟨.do', name⟩ :: back → concluded back = [⟨.done, doneMsg code name⟩]

/-- Nothing comes between the `do` line and its `done` line. -/
structure Clear (os : List Obs) : Prop where
  named : .misnamed ∉ os
  ruled : .noRule ∉ os
  retried : .deferred ∈ os → .passed ∉ os

/-! ## From a program to its runs -/

/-- The function has come to an end that leaves the process going. -/
def End.Returned : End → Prop
  | .resolved _ | .deferred => True
  | _ => False

/-- Every run of the program that comes to such an end is one of these. -/
def Leads (R : List Obs → End → Prop) (p : Prog) : Prop :=
  ∀ os e, p.Shows (observe c) os e → e.Returned → R os e

section Leads
variable {c : Caller} {sf : File} {R : List Obs → End → Prop} {k p : Prog}

theorem Leads.mono {R' : List Obs → End → Prop} (h : Leads c R p) (hR : ∀ os e, R os e → R' os e) :
    Leads c R' p :=
  fun os e hp he => hR os e (h os e hp he)

theorem leads_done {e : End} (h : e.Returned → R [] e) : Leads c R (.done e) := by
  intro os e' hp he
  obtain ⟨rfl, rfl⟩ := Script.shows_done.mp hp
  exact h he

theorem leads_call {op : Call} {next : Answer op → Prog}
    (h : ∀ x, Leads c (fun os e => R (observe c op x ++ os) e) (next x)) : Leads c R (.call op next) := by
  intro os e hp he
  obtain ⟨x, os', rfl, hnext⟩ := Script.shows_call.mp hp
  exact h x os' e hnext he

theorem leads_silent {op : Call} {next : Answer op → Prog} (hop : ∀ x, observe c op x = [])
    (h : ∀ x, Leads c R (next x)) : Leads c R (.call op next) := by
  refine leads_call fun x => ?_
  rw [hop x]
  exact h x

theorem leads_orError {α : Type} {r : Option α} {k : α → Prog} (h : ∀ a, r = some a → Leads c R (k a)) :
    Leads c R (orError r k) := by
  cases r with
  | none => exact leads_done fun he => he.elim
  | some a => exact h a rfl

theorem leads_steps (ss : List Step) (h : Leads c R k) : Leads c R (steps ss k) := by
  induction ss with
  | nil => exact h
  | cons s ss ih =>
    refine leads_silent (fun _ => rfl) fun ok => ?_
    cases ok with
    | true => exact ih
    | false => exact leads_done fun he => he.elim

theorem leads_log {kind : MetaKind} {msg : Text} (h : Leads c (fun os e => R (.line ⟨kind, msg⟩ :: os) e) k) :
    Leads c R (log kind msg k) :=
  leads_call fun _ => h

theorem leads_ite {b : Prop} [Decidable b] {q : Prog} (hp : b → Leads c R p) (hq : ¬b → Leads c R q) :
    Leads c R (if b then p else q) := by
  split_ifs with hb
  · exact hp hb
  · exact hq hb

/-! ## The two functions -/

/-- What is shown behind the `do` line when a target is done with under a name. -/
inductive Concludes (name : Text) : List Obs → End → Prop
  | intro (code : ℤ) : Concludes name [.line ⟨.done, doneMsg code name⟩] (.resolved code)

theorem leads_finish (code : ℤ) (name : Text) : Leads c (Concludes name) (finish code name) :=
  leads_log (leads_done fun _ => .intro code)

theorem leads_fail (name : Text) : Leads c (Concludes name) (fail name) :=
  leads_steps _ (leads_log (leads_silent (fun _ => rfl) fun _ => leads_done fun _ => .intro 1))

theorem leads_complete (name : Text) (e : Completion.Ended) : Leads c (Concludes name) (complete name e) := by
  cases e with
  | error => exact leads_done fun he => he.elim
  | code rv =>
    refine leads_ite (fun _ => leads_finish rv name) fun _ => ?_
    exact leads_silent (fun _ => rfl) fun _ => leads_finish rv name

theorem leads_scheduleJob : Leads c (Concludes (c.trp sf.name)) (scheduleJob c sf) := by
  refine leads_steps _ (leads_silent (fun _ => rfl) fun i => ?_)
  cases i with
  | none => exact leads_done fun he => he.elim
  | some i => exact leads_complete _ _

theorem leads_scheduleKey (deps : List (Char × File)) :
    Leads c (Concludes (c.trp sf.name)) (scheduleKey c sf deps) := by
  refine leads_silent (fun _ => rfl) fun eligible => leads_orError fun eligible _ => ?_
  refine leads_ite (fun _ => ?_) fun _ => leads_scheduleJob
  refine leads_silent (fun _ => rfl) fun hit => ?_
  exact leads_ite (fun _ => leads_steps _ (leads_finish 0 _)) fun _ => leads_scheduleJob

/-- Induction over the recorded dependencies. -/
theorem leads_scheduleDeps (h : Leads c (Concludes (c.trp sf.name)) k) (deps : List (Char × File)) :
    Leads c (Concludes (c.trp sf.name)) (scheduleDeps c sf k deps) := by
  induction deps with
  | nil => exact h
  | cons p rest ih =>
    refine leads_ite (fun _ => ih) fun _ => leads_silent (fun _ => rfl) fun present => ?_
    refine leads_ite (fun _ => ih) fun _ => leads_ite (fun _ => ?_) fun _ => leads_fail _
    refine leads_silent (fun _ => rfl) fun rv => leads_orError fun rv _ => ?_
    exact leads_ite (fun _ => ih) fun _ => leads_fail _

theorem leads_scheduleCache : Leads c (Concludes (c.trp sf.name)) (scheduleCache c sf) := by
  refine leads_silent (fun _ => rfl) fun on => leads_ite (fun _ => ?_) fun _ => leads_scheduleJob
  refine leads_silent (fun _ => rfl) fun deps => leads_orError fun deps _ => ?_
  exact leads_scheduleDeps (leads_scheduleKey deps) deps

theorem leads_scheduleRule : Leads c (Concludes (c.trp sf.name)) (scheduleRule c sf) := by
  refine leads_steps _ (leads_silent (fun _ => rfl) fun found => leads_orError fun found _ => ?_)
  refine leads_ite (fun _ => leads_scheduleCache) fun _ => leads_silent (fun _ => rfl) fun present => ?_
  exact leads_ite (fun _ => leads_steps _ (leads_finish 0 _)) fun _ => leads_fail _

theorem Concludes.resolved {name : Text} {os : List Obs} {e : End} (h : Concludes name os e) :
    ∃ code, e = .resolved code ∧ os = [.line ⟨.done, doneMsg code name⟩] := by
  cases h with
  | intro code => exact ⟨code, rfl, rfl⟩

/-- The runs of `schedule_build_one`. -/
inductive ScheduleRun (c : Caller) (name : String) : List Obs → End → Prop
  | deferred : ScheduleRun c name [.line ⟨.do', c.trp name⟩, .deferred] .deferred
  | concluded (code : ℤ) :
    ScheduleRun c name [.line ⟨.do', c.trp name⟩, .line ⟨.done, doneMsg code (c.trp name)⟩] (.resolved code)
  | misnamed (h : name.toList ≠ c.trp name) (code : ℤ) :
    ScheduleRun c name [.line ⟨.do', c.trp name⟩, .misnamed, .line ⟨.done, doneMsg code name.toList⟩] (.resolved code)

theorem leads_schedulePool :
    Leads c (fun os e => ScheduleRun c sf.name (.line ⟨.do', c.trp sf.name⟩ :: os) e) (schedulePool c sf) := by
  have hrule : Leads c (fun os e => ScheduleRun c sf.name (.line ⟨.do', c.trp sf.name⟩ :: os) e)
      (scheduleRule c sf) := by
    refine leads_scheduleRule.mono fun os e h => ?_
    obtain ⟨code, rfl, rfl⟩ := h.resolved
    exact .concluded code
  refine leads_silent (fun _ => rfl) fun found => leads_orError fun found _ => ?_
  refine leads_ite (fun _ => ?_) fun _ => hrule
  refine leads_silent (fun _ => rfl) fun pool => leads_orError fun pool _ => ?_
  refine leads_ite (fun _ => ?_) fun _ => hrule
  refine leads_call fun slot => leads_orError fun slot hslot => ?_
  cases slot with
  | true =>
    rw [hslot]
    exact hrule
  | false =>
    rw [hslot]
    exact leads_steps _ (leads_done fun _ => .deferred)

/-- What `readStamp` shows, if the target turns out to be overridden or not. -/
theorem observe_readStamp (c : Caller) (sf : File) (newstamp : Stamp) :
    overridden newstamp sf = true ∧ sf.name.toList ≠ c.trp sf.name ∧
        observe c (.readStamp sf) (some newstamp) = [.misnamed] ∨
      (overridden newstamp sf = true → sf.name.toList = c.trp sf.name) ∧
        observe c (.readStamp sf) (some newstamp) = [] := by
  by_cases h : overridden newstamp sf = true ∧ sf.name.toList ≠ c.trp sf.name
  · exact .inl ⟨h.1, h.2, if_pos h⟩
  · refine .inr ⟨fun hover => ?_, if_neg h⟩
    by_contra hne
    exact h ⟨hover, hne⟩

theorem leads_scheduleBuildOne : Leads c (ScheduleRun c sf.name) (scheduleBuildOne c sf) := by
  refine leads_log (leads_call fun newstamp => leads_orError fun newstamp hstamp => ?_)
  rw [hstamp]
  rcases observe_readStamp c sf newstamp with ⟨hover, hne, hshow⟩ | ⟨hname, hshow⟩
  · rw [hshow, if_pos hover]
    refine leads_steps _ ((leads_finish 0 _).mono fun os e h => ?_)
    obtain ⟨code, rfl, rfl⟩ := h.resolved
    exact .misnamed hne code
  · rw [hshow]
    refine leads_ite (fun hover => ?_) fun _ => ?_
    · rw [hname hover]
      refine leads_steps _ ((leads_finish 0 _).mono fun os e h => ?_)
      obtain ⟨code, rfl, rfl⟩ := h.resolved
      exact .concluded code
    · refine leads_silent (fun _ => rfl) fun present => leads_ite (fun _ => ?_) fun _ => leads_schedulePool
      refine leads_steps _ ((leads_finish 0 _).mono fun os e h => ?_)
      obtain ⟨code, rfl, rfl⟩ := h.resolved
      exact .concluded code

/-- What `build_one` shows once it has found a rule: it may wait for a slot. -/
inductive BuildConcludes (name : Text) : List Obs → End → Prop
  | intro (code : ℤ) : BuildConcludes name [.line ⟨.done, doneMsg code name⟩] (.resolved code)
  | waits {os : List Obs} {e : End} (h : BuildConcludes name os e) :
    BuildConcludes name (.line ⟨.waiting, name⟩ :: os) e

theorem leads_buildJob (unlocked : Bool) :
    Leads c (BuildConcludes (c.trp sf.name)) (buildJob c sf unlocked) := by
  refine leads_steps _ (leads_silent (fun _ => rfl) fun i => leads_orError fun i _ => ?_)
  cases i.buildOne.ended with
  | error => exact leads_done fun he => he.elim
  | code rv => exact leads_steps _ (leads_log (leads_done fun _ => .intro rv))

/-- Induction over the tries. -/
theorem leads_waitPool (h : Leads c (BuildConcludes (c.trp sf.name)) k) (tries : ℕ) :
    Leads c (BuildConcludes (c.trp sf.name)) (waitPool c sf k tries) := by
  induction tries with
  | zero => exact leads_done fun he => he.elim
  | succ tries ih =>
    refine leads_silent (fun _ => rfl) fun slot => leads_orError fun slot _ => ?_
    refine leads_ite (fun _ => h) fun _ => leads_log (ih.mono fun os e hos => .waits hos)

/-- The runs of `build_one` with the lock. -/
inductive BuildRun (c : Caller) (name : String) : List Obs → End → Prop
  | noRule (code : ℤ) : BuildRun c name [.line ⟨.do', c.trp name⟩, .noRule] (.resolved code)
  | concluded {os : List Obs} {e : End} (h : BuildConcludes (c.trp name) os e) :
    BuildRun c name (.line ⟨.do', c.trp name⟩ :: os) e
  | misnamed (h : name.toList ≠ c.trp name) (code : ℤ) :
    BuildRun c name [.line ⟨.do', c.trp name⟩, .misnamed, .line ⟨.done, doneMsg code name.toList⟩] (.resolved code)

theorem leads_buildRule (unlocked : Bool) (tries : ℕ) :
    Leads c (fun os e => BuildRun c sf.name (.line ⟨.do', c.trp sf.name⟩ :: os) e)
      (buildRule c sf unlocked tries) := by
  have hjob := @leads_buildJob c sf unlocked
  refine leads_steps _ (leads_call fun found => leads_orError fun found hfound => ?_)
  rw [hfound]
  cases found with
  | true =>
    refine leads_silent (fun _ => rfl) fun pool => leads_orError fun pool _ => ?_
    refine leads_ite (fun _ => ?_) fun _ => hjob.mono fun os e h => .concluded h
    exact leads_steps _ ((leads_waitPool hjob tries).mono fun os e h => .concluded h)
  | false =>
    refine leads_silent (fun _ => rfl) fun present => leads_ite (fun _ => ?_) fun _ => ?_
    · exact leads_steps _ (leads_done fun _ => .noRule 0)
    · exact leads_steps _ (leads_done fun _ => .noRule 1)

theorem leads_buildOwned (unlocked : Bool) (tries : ℕ) :
    Leads c (BuildRun c sf.name) (buildOwned c sf unlocked tries) := by
  refine leads_log (leads_call fun newstamp => leads_orError fun newstamp hstamp => ?_)
  rw [hstamp]
  rcases observe_readStamp c sf newstamp with ⟨hover, hne, hshow⟩ | ⟨hname, hshow⟩
  · rw [hshow, if_pos hover]
    refine leads_steps _ ((leads_finish 0 _).mono fun os e h => ?_)
    obtain ⟨code, rfl, rfl⟩ := h.resolved
    exact .misnamed hne code
  · rw [hshow]
    refine leads_ite (fun hover => ?_) fun _ => ?_
    · rw [hname hover]
      refine leads_steps _ ((leads_finish 0 _).mono fun os e h => ?_)
      obtain ⟨code, rfl, rfl⟩ := h.resolved
      exact .concluded (.intro code)
    · refine leads_silent (fun _ => rfl) fun present => leads_ite (fun _ => ?_) fun _ => leads_buildRule unlocked tries
      refine leads_steps _ ((leads_finish 0 _).mono fun os e h => ?_)
      obtain ⟨code, rfl, rfl⟩ := h.resolved
      exact .concluded (.intro code)

/-- `build_one`: there may be a cycle before it has announced anything. -/
theorem leads_buildOne (name : String) (unlocked : Bool) (tries : ℕ) :
    Leads c (fun os e => BuildRun c name os e ∨ unlocked = false ∧ os = [] ∧ e = .resolved 208)
      (buildOne c name unlocked tries) := by
  have howned : ∀ sf, Leads c (fun os e => BuildRun c name os e ∨ unlocked = false ∧ os = [] ∧ e = .resolved 208)
      (buildOwned c (named name sf) unlocked tries) :=
    fun sf => (leads_buildOwned unlocked tries).mono fun os e h => .inl h
  refine leads_silent (fun _ => rfl) fun sf => leads_orError fun sf _ => ?_
  cases unlocked with
  | true => exact howned sf
  | false =>
    refine leads_steps _ (leads_silent (fun _ => rfl) fun owned => leads_orError fun owned _ => ?_)
    refine leads_ite (fun _ => ?_) fun _ => leads_done fun _ => .inr ⟨rfl, rfl, rfl⟩
    exact leads_silent (fun _ => rfl) fun sf => leads_orError fun sf _ => howned sf

/-! ## A target's story -/

theorem linesOf_append (os os' : List Obs) : linesOf (os ++ os') = linesOf os ++ linesOf os' :=
  List.filterMap_append

theorem announced_append (l l' : List Line) : announced (l ++ l') = announced l ++ announced l' :=
  List.filter_append l l'

theorem concluded_append (l l' : List Line) : concluded (l ++ l') = concluded l ++ concluded l' :=
  List.filter_append l l'

/-- What a run tells of the target by its end. In the first case it is passed over, in the second its
`do` line stays alone; each deferral leaves one more `do` line. -/
inductive Told (c : Caller) (name : String) (code : ℤ) (os : List Obs) : Prop
  | passed (hpassed : .passed ∈ os) (hnamed : .misnamed ∉ os) (hruled : .noRule ∉ os)
      (hdone : concluded (linesOf os) = [])
      (hdo : (announced (linesOf os)).length = os.count .deferred)
  | noRule (hruled : .noRule ∈ os) (hdone : concluded (linesOf os) = [])
      (hdo : (announced (linesOf os)).length = os.count .deferred + 1)
  | concluded (front : List Line) (told : Text) (hlines : linesOf os = front ++ [⟨.done, doneMsg code told⟩])
      (hfront : concluded front = []) (hdo : (announced front).length = os.count .deferred + 1)
      (hdos : ∀ l ∈ announced front, l.msg = c.trp name)
      (hnamed : .misnamed ∈ os ↔ told ≠ c.trp name) (hruled : .noRule ∉ os) (hpassed : .passed ∉ os)

/-- What comes before an end: each `do` line in it is one of a deferred attempt. -/
structure Before (c : Caller) (name : String) (os : List Obs) : Prop where
  done : concluded (linesOf os) = []
  count : (announced (linesOf os)).length = os.count .deferred
  dos : ∀ l ∈ announced (linesOf os), l.msg = c.trp name
  named : .misnamed ∉ os
  ruled : .noRule ∉ os
  passed : .passed ∉ os

/-- An end that comes after something has the same story. -/
theorem Told.after {name : String} {code : ℤ} {first os : List Obs} (h : Told c name code os)
    (hfirst : Before c name first) : Told c name code (first ++ os) := by
  have hcount : (first ++ os).count .deferred = first.count .deferred + os.count .deferred := List.count_append
  have hnamed := hfirst.named
  have hruled := hfirst.ruled
  have hpassed := hfirst.passed
  cases h with
  | passed hos hnamed' hruled' hdone hdo =>
    refine .passed (List.mem_append_right _ hos) (by simp [hnamed, hnamed']) (by simp [hruled, hruled']) ?_ ?_
    · rw [linesOf_append, concluded_append, hfirst.done, hdone, List.append_nil]
    · rw [linesOf_append, announced_append, List.length_append, hfirst.count, hdo, hcount]
  | noRule hos hdone hdo =>
    refine .noRule (List.mem_append_right _ hos) ?_ ?_
    · rw [linesOf_append, concluded_append, hfirst.done, hdone, List.append_nil]
    · rw [linesOf_append, announced_append, List.length_append, hfirst.count, hdo, hcount, Nat.add_assoc]
  | concluded front told hlines hfront hdo hdos hname hruled' hpassed' =>
    refine .concluded (linesOf first ++ front) told ?_ ?_ ?_ ?_ ?_ (by simp [hruled, hruled'])
      (by simp [hpassed, hpassed'])
    · rw [linesOf_append, hlines, List.append_assoc]
    · rw [concluded_append, hfirst.done, hfront, List.append_nil]
    · rw [announced_append, List.length_append, hfirst.count, hdo, hcount, Nat.add_assoc]
    · intro l hl
      rw [announced_append, List.mem_append] at hl
      exact hl.elim (hfirst.dos l) (hdos l)
    · rw [List.mem_append, ← hname]
      exact or_iff_right hnamed

theorem before_line {name : String} {kind : MetaKind} (msg : Text) (hdo : kind ≠ .do') (hdone : kind ≠ .done) :
    Before c name [.line ⟨kind, msg⟩] := by
  constructor <;> simp [linesOf, Obs.toLine, announced, concluded, hdo, hdone]

/-- An attempt that finds the pool taken. -/
theorem before_deferred (name : String) : Before c name [.line ⟨.do', c.trp name⟩, .deferred] := by
  constructor <;> simp [linesOf, Obs.toLine, announced, concluded]

theorem told_scheduleRun {name : String} {os : List Obs} {code : ℤ} (h : ScheduleRun c name os (.resolved code)) :
    Told c name code os := by
  cases h with
  | concluded =>
    refine .concluded [⟨.do', c.trp name⟩] (c.trp name) rfl rfl rfl ?_ ?_ ?_ ?_ <;> simp [announced]
  | misnamed h =>
    refine .concluded [⟨.do', c.trp name⟩] name.toList rfl rfl rfl ?_ ?_ ?_ ?_ <;> simp [announced, h]

/-- Induction over the waits for a slot. -/
theorem told_buildConcludes {name : String} {os : List Obs} {e : End} (h : BuildConcludes (c.trp name) os e) :
    ∃ code front, e = .resolved code ∧ linesOf os = front ++ [⟨.done, doneMsg code (c.trp name)⟩] ∧
      concluded front = [] ∧ announced front = [] ∧ ∀ o ∈ os, ∃ l, o = .line l := by
  induction h with
  | intro code => exact ⟨code, [], rfl, rfl, rfl, rfl, by simp⟩
  | waits h ih =>
    obtain ⟨code, front, rfl, hlines, hdone, hdo, hos⟩ := ih
    refine ⟨code, ⟨.waiting, c.trp name⟩ :: front, rfl, ?_, hdone, hdo, ?_⟩
    · exact congrArg (⟨.waiting, c.trp name⟩ :: ·) hlines
    · intro o ho
      rcases List.mem_cons.mp ho with rfl | ho
      · exact ⟨_, rfl⟩
      · exact hos o ho

theorem told_buildRun {name : String} {os : List Obs} {code : ℤ} (h : BuildRun c name os (.resolved code)) :
    Told c name code os := by
  cases h with
  | noRule =>
    refine .noRule ?_ rfl rfl
    simp
  | misnamed h =>
    refine .concluded [⟨.do', c.trp name⟩] name.toList rfl rfl rfl ?_ ?_ ?_ ?_ <;> simp [announced, h]
  | @concluded os _ h =>
    obtain ⟨code, front, hcode, hlines, hdone, hdo, hos⟩ := told_buildConcludes h
    cases hcode
    have hnone : ∀ o : Obs, o.toLine = none → o ∉ Obs.line ⟨.do', c.trp name⟩ :: os := by
      intro o ho hmem
      rcases List.mem_cons.mp hmem with rfl | hmem
      · cases ho
      · obtain ⟨l, rfl⟩ := hos o hmem
        cases ho
    refine .concluded (⟨.do', c.trp name⟩ :: front) (c.trp name) ?_ hdone ?_ ?_ ?_ (hnone _ rfl) (hnone _ rfl)
    · exact congrArg (⟨.do', c.trp name⟩ :: ·) hlines
    · rw [List.count_eq_zero.mpr (hnone .deferred rfl)]
      exact congrArg (·.length + 1) hdo
    · intro l hl
      rcases List.mem_cons.mp hl with rfl | hl
      · rfl
      · have hmem : l ∈ announced front := hl
        rw [hdo] at hmem
        cases hmem
    · exact iff_of_false (hnone _ rfl) (not_not_intro rfl)

/-- The end of a target in `run_ifchange`. -/
def Story (c : Caller) (name : String) (os : List Obs) (e : End) : Prop :=
  ∃ code, e = .resolved code ∧ Told c name code os

theorem Story.after {name : String} {first os : List Obs} {e : End} (h : Story c name os e)
    (hfirst : Before c name first) : Story c name (first ++ os) e := by
  obtain ⟨code, rfl, htold⟩ := h
  exact ⟨code, rfl, htold.after hfirst⟩

theorem leads_after {name : String} {first : List Obs} (hfirst : Before c name first)
    (h : Leads c (Story c name) p) : Leads c (fun os e => Story c name (first ++ os) e) p :=
  h.mono fun _ _ hstory => hstory.after hfirst

theorem leads_line {name : String} {kind : MetaKind} {msg : Text} (hdo : kind ≠ .do') (hdone : kind ≠ .done)
    (h : Leads c (Story c name) k) : Leads c (Story c name) (log kind msg k) :=
  leads_log (leads_after (before_line msg hdo hdone) h)

/-- A target that is passed over. -/
theorem story_passed (name : String) (code : ℤ) {os : List Obs} (hos : os = [.passed] ∨ ∃ msg, os = [.passed, .line ⟨.unchanged, msg⟩]) :
    Story c name os (.resolved code) := by
  refine ⟨code, rfl, ?_⟩
  rcases hos with rfl | ⟨msg, rfl⟩
  · refine .passed ?_ ?_ ?_ rfl rfl <;> simp
  · refine .passed ?_ ?_ ?_ rfl rfl <;> simp

theorem leads_unchanged {name : String} (ss : List Step) :
    Leads c (fun os e => Story c name (.passed :: os) e) (unchanged c name sf (steps ss (.done (.resolved 0)))) := by
  refine leads_ite (fun _ => leads_log (leads_steps _ (leads_done fun _ => ?_))) fun _ => ?_
  · exact story_passed name 0 (.inr ⟨_, rfl⟩)
  · exact leads_steps _ (leads_done fun _ => story_passed name 0 (.inl rfl))

variable {name : String} {tries : ℕ}

theorem leads_unlockedIfchange : Leads c (Story c name) (unlockedIfchange c name tries) := by
  have hbuild : Leads c (Story c name) (buildOne c name true tries) := by
    refine (leads_buildOne name true tries).mono fun os e h => ?_
    rcases h with h | ⟨hfalse, _⟩
    · cases h with
      | noRule code => exact ⟨code, rfl, told_buildRun (.noRule code)⟩
      | misnamed hne code => exact ⟨code, rfl, told_buildRun (.misnamed hne code)⟩
      | concluded h =>
        obtain ⟨code, front, rfl, _⟩ := told_buildConcludes h
        exact ⟨code, rfl, told_buildRun (.concluded h)⟩
    · cases hfalse
  refine leads_silent (fun _ => rfl) fun sf => leads_orError fun sf _ => ?_
  refine leads_call fun verdict => leads_orError fun verdict hverdict => ?_
  rw [hverdict]
  cases verdict with
  | clean => exact leads_unchanged []
  | uncertain => exact hbuild
  | dirty => exact hbuild

theorem leads_redoUnlocked : Leads c (Story c name) (redoUnlocked c name tries) := by
  refine leads_steps _ (leads_call fun rv => ?_)
  cases rv with
  | none => exact leads_done fun he => he.elim
  | some rv =>
    by_cases hrv : rv = 0
    · have hshow : observe c .unlockedDeps (some rv) = [] := if_pos hrv
      rw [hshow]
      exact leads_ite (fun _ => leads_unlockedIfchange) fun hne => absurd hrv hne
    · have hshow : observe c .unlockedDeps (some rv) = [.passed] := if_neg hrv
      rw [hshow]
      refine leads_ite (fun heq => absurd heq hrv) fun _ => leads_done fun _ => ?_
      exact story_passed name rv (.inl rfl)

/-- The target in hand, if another attempt has a story. -/
theorem leads_owned (h : Leads c (Story c name) k) : Leads c (Story c name) (owned c name tries k) := by
  refine leads_silent (fun _ => rfl) fun sf => leads_orError fun sf _ => ?_
  refine leads_call fun verdict => leads_orError fun verdict hverdict => ?_
  rw [hverdict]
  cases verdict with
  | clean => exact leads_unchanged [.unlock]
  | uncertain => exact leads_line (by decide) (by decide) leads_redoUnlocked
  | dirty =>
    intro os e hp he
    obtain ⟨first, e', os', rfl, hfirst, hrest⟩ := Script.shows_bind hp
    cases e' with
    | deferred =>
      have hrun := @leads_scheduleBuildOne c (named name sf) first .deferred hfirst trivial
      have hbefore : Before c name first := by
        cases hrun
        exact before_deferred name
      exact (leads_line (by decide) (by decide) h os' e hrest he).after hbefore
    | resolved code =>
      obtain ⟨rfl, rfl⟩ := Script.shows_done.mp hrest
      have hrun := @leads_scheduleBuildOne c (named name sf) first (.resolved code) hfirst trivial
      rw [List.append_nil]
      exact ⟨code, rfl, told_scheduleRun hrun⟩
    | error =>
      obtain ⟨rfl, rfl⟩ := Script.shows_done.mp hrest
      exact he.elim
    | unfinished =>
      obtain ⟨rfl, rfl⟩ := Script.shows_done.mp hrest
      exact he.elim

theorem leads_ownedAgain (h : Leads c (Story c name) k) : Leads c (Story c name) (ownedAgain c name tries k) := by
  refine leads_call fun failed => leads_orError fun failed hfailed => ?_
  rw [hfailed]
  cases failed with
  | true =>
    refine leads_silent (fun _ => rfl) fun _ => leads_steps _ (leads_done fun _ => ?_)
    exact story_passed name 2 (.inl rfl)
  | false => exact leads_owned h

theorem leads_unlock {waited : Prog} (hwaited : Leads c (Story c name) waited) (h : Leads c (Story c name) k) :
    Leads c (Story c name) (unlock c name tries waited k) := by
  refine leads_silent (fun _ => rfl) fun own => leads_orError fun own _ => leads_ite (fun _ => ?_) fun _ => ?_
  · exact leads_line (by decide) (by decide) (leads_ownedAgain h)
  · exact leads_line (by decide) (by decide) (leads_steps _ hwaited)

/-- Induction over the attempts. -/
theorem leads_settle (n : ℕ) (place : Place) : Leads c (Story c name) (settle c name tries n place) := by
  induction n generalizing place with
  | zero => exact leads_done fun he => he.elim
  | succ n ih =>
    cases place with
    | first =>
      refine leads_steps _ (leads_silent (fun _ => rfl) fun own => leads_orError fun own _ => ?_)
      exact leads_ite (fun _ => leads_owned (ih _)) fun _ => leads_line (by decide) (by decide) (ih _)
    | locked => exact leads_steps _ (leads_unlock (ih _) (ih _))
    | waited => exact leads_unlock (ih _) (ih _)
    | poolBlocked =>
      refine leads_steps _ (leads_silent (fun _ => rfl) fun own => leads_orError fun own _ => ?_)
      exact leads_ite (fun _ => leads_ownedAgain (ih _)) fun _ => leads_line (by decide) (by decide) (ih _)

end Leads

/-! ## Matching -/

variable {c : Caller} {name : String} {os : List Obs} {code : ℤ}

theorem mem_announced {lines : List Line} {l : Line} :
    l ∈ announced lines ↔ l ∈ lines ∧ l.kind = .do' := by
  simp [announced]

/-- Without a `done` line there must not be a `do` line. -/
theorem matched_of_none {lines : List Line} (h : concluded lines = []) :
    Matched code lines ↔ announced lines = [] := by
  constructor
  · intro hmatched
    refine List.eq_nil_iff_forall_not_mem.mpr fun l hl => ?_
    obtain ⟨hmem, hkind⟩ := mem_announced.mp hl
    obtain ⟨front, back, rfl⟩ := List.append_of_mem hmem
    have hback := hmatched front l.msg back (by rw [← hkind])
    rw [concluded_append, concluded, List.append_eq_nil_iff] at h
    have hnone : concluded back = [] := (List.append_eq_nil_iff.mp ((concluded_append [l] back).symm.trans h.2)).2
    rw [hnone] at hback
    cases hback
  · intro hnone front told back hlines
    have hmem : (⟨.do', told⟩ : Line) ∈ announced lines :=
      mem_announced.mpr ⟨by rw [hlines]; simp, rfl⟩
    rw [hnone] at hmem
    cases hmem

theorem cut_before_last {α : Type*} {front f back : List α} {x y : α} (hne : y ≠ x)
    (h : front ++ [x] = f ++ y :: back) : ∃ b, back = b ++ [x] ∧ front = f ++ y :: b := by
  rcases List.eq_nil_or_concat back with rfl | ⟨b, z, rfl⟩
  · have hlast := (List.append_inj' h rfl).2
    exact absurd (List.cons.inj hlast).1.symm hne
  · rw [List.concat_eq_append] at h ⊢
    obtain ⟨hfront, hlast⟩ := List.append_inj' (h.trans (List.append_assoc f (y :: b) [z]).symm) rfl
    cases hlast
    exact ⟨b, rfl, hfront⟩

theorem doneMsg_inj {told told' : Text} : doneMsg code told = doneMsg code told' ↔ told = told' := by
  simp [doneMsg]

/-- The last line is the only `done` line, and all `do` lines before it have one name. -/
theorem matched_of_last {front : List Line} {told trp : Text} (hfront : concluded front = [])
    (hdo : announced front ≠ []) (hdos : ∀ l ∈ announced front, l.msg = trp) :
    Matched code (front ++ [⟨.done, doneMsg code told⟩]) ↔ told = trp := by
  have hback : ∀ {f b : List Line} {name : Text}, front = f ++ ⟨.do', name⟩ :: b →
      concluded (b ++ [⟨.done, doneMsg code told⟩]) = [⟨.done, doneMsg code told⟩] := by
    rintro f b name rfl
    have hb : concluded b = [] := by
      rw [concluded_append] at hfront
      exact (List.append_eq_nil_iff.mp hfront).2
    rw [concluded_append, hb]
    rfl
  constructor
  · intro h
    obtain ⟨l, hl⟩ := List.exists_mem_of_ne_nil _ hdo
    obtain ⟨hmem, hkind⟩ := mem_announced.mp hl
    obtain ⟨f, b, hlines⟩ := List.append_of_mem hmem
    have hl' : l = ⟨.do', trp⟩ := by
      rw [← hdos l hl, ← hkind]
    rw [hl'] at hlines
    have hdone := h f trp (b ++ [⟨.done, doneMsg code told⟩]) (by rw [hlines, List.append_assoc]; rfl)
    rw [hback hlines] at hdone
    simpa [doneMsg_inj] using hdone
  · rintro rfl f name back hlines
    obtain ⟨b, rfl, hcut⟩ := cut_before_last (by simp) hlines
    have hname : name = told := hdos ⟨.do', name⟩ (mem_announced.mpr ⟨by rw [hcut]; simp, rfl⟩)
    rw [hback hcut, hname]

theorem Told.matched (h : Told c name code os) : Matched code (linesOf os) ↔ Clear os := by
  cases h with
  | passed hpassed hnamed hruled hdone hdo =>
    rw [matched_of_none hdone, ← List.length_eq_zero_iff, hdo, List.count_eq_zero]
    exact ⟨fun h => ⟨hnamed, hruled, fun hmem => absurd hmem h⟩, fun h hmem => h.retried hmem hpassed⟩
  | noRule hruled hdone hdo =>
    rw [matched_of_none hdone, ← List.length_eq_zero_iff, hdo]
    exact iff_of_false (Nat.succ_ne_zero _) fun h => h.ruled hruled
  | concluded front told hlines hfront hdo hdos hnamed hruled hpassed =>
    have hne : announced front ≠ [] := by
      intro hnil
      rw [hnil] at hdo
      cases hdo
    rw [hlines, matched_of_last hfront hne hdos]
    constructor
    · intro htold
      exact ⟨mt hnamed.mp (not_not_intro htold), hruled, fun _ => hpassed⟩
    · intro h
      by_contra htold
      exact h.named (hnamed.mpr htold)

/-- There are as many `do` lines as `done` lines. -/
def Paired (lines : List Line) : Prop := (announced lines).length = (concluded lines).length

theorem Told.paired_iff (h : Told c name code os) :
    Matched code (linesOf os) ∧ Paired (linesOf os) ↔ Clear os ∧ .deferred ∉ os := by
  rw [h.matched]
  refine and_congr_right fun hclear => ?_
  rw [← List.count_eq_zero, Paired]
  cases h with
  | passed hpassed hnamed hruled hdone hdo => rw [hdone, hdo, List.length_nil]
  | noRule hruled hdone hdo => exact absurd hruled hclear.ruled
  | concluded front told hlines hfront hdo hdos hnamed hruled hpassed =>
    have hdone : Announcements.concluded [(⟨.done, doneMsg code told⟩ : Line)] = [⟨.done, doneMsg code told⟩] := rfl
    have hnone : announced [(⟨.done, doneMsg code told⟩ : Line)] = [] := rfl
    rw [hlines, announced_append, concluded_append, hfront, hnone, hdone, List.append_nil, hdo]
    simp

/-- A target in `build_one`, in `schedule_build_one`, and in redo-ifchange with all its attempts. -/
inductive Builds (c : Caller) (name : String) : Prog → Prop
  | buildOne (unlocked : Bool) (tries : ℕ) : Builds c name (buildOne c name unlocked tries)
  | scheduleBuildOne (sf : File) : Builds c name (scheduleBuildOne c (named name sf))
  | settle (tries n : ℕ) : Builds c name (settle c name tries n .first)

/-- The story of a target that is resolved, but for a cycle that is found before it is announced. -/
theorem told_of_builds {p : Prog} (hp : Builds c name p) (h : p.Shows (observe c) os (.resolved code)) :
    Told c name code os ∨ os = [] := by
  cases hp with
  | buildOne unlocked tries =>
    rcases leads_buildOne name unlocked tries os _ h trivial with hrun | ⟨_, hos, _⟩
    · exact .inl (told_buildRun hrun)
    · exact .inr hos
  | scheduleBuildOne sf =>
    exact .inl (told_scheduleRun (@leads_scheduleBuildOne c (named name sf) os _ h trivial))
  | settle tries n =>
    obtain ⟨code', hcode, htold⟩ := leads_settle n .first os _ h trivial
    cases hcode
    exact .inl htold

/-- Each `do` line has its `done` line just if the target is not overridden under another name, if
`build_one` finds a rule, and if a deferral is followed by another attempt. Each `done` line has just
one `do` line if there is no deferral either. -/
theorem matched_iff {p : Prog} (hp : Builds c name p) (h : p.Shows (observe c) os (.resolved code)) :
    (Matched code (linesOf os) ↔ Clear os) ∧
      (Matched code (linesOf os) ∧ Paired (linesOf os) ↔ Clear os ∧ .deferred ∉ os) := by
  rcases told_of_builds hp h with htold | rfl
  · exact ⟨htold.matched, htold.paired_iff⟩
  · have hmatched : Matched code (linesOf []) := (matched_of_none rfl).mpr rfl
    have hclear : Clear [] := ⟨List.not_mem_nil, List.not_mem_nil, fun _ => List.not_mem_nil⟩
    exact ⟨iff_of_true hmatched hclear, iff_of_true ⟨hmatched, rfl⟩ ⟨hclear, List.not_mem_nil⟩⟩

theorem shows_steps (ss : List Step) {k : Prog} {e : End} (h : k.Shows (observe c) os e) :
    (steps ss k).Shows (observe c) os e := by
  induction ss with
  | nil => exact h
  | cons s ss ih =>
    refine .call true ?_
    exact ih

/-- A recipe of `c/a` runs, and wants `c/t`. -/
def callerBelow : Caller where
  toProcess := processBelow
  startdir := "/b".toList
  pwd := []
  target := "c/a".toList

example : callerBelow.trp "c/t" = "t".toList := by decide +kernel

def rowOfT : File := { id := 1, name := "c/t" }

/-- The pool is taken, and then another process has built the target. -/
theorem matched_iff_passed :
    ∃ os, (settle callerBelow "c/t" 0 2 .first).Shows (observe callerBelow) os (.resolved 0) ∧
      ¬Matched 0 (linesOf os) := by
  have hsecond : ∃ os, (settle callerBelow "c/t" 0 1 .poolBlocked).Shows (observe callerBelow) os (.resolved 0) ∧
      .passed ∈ os := by
    refine ⟨_, shows_steps _ (.call (some true) (.call (some false) (.call (some rowOfT) (.call (some .clean)
      (shows_steps [.unlock] (.done _)))))), ?_⟩
    simp [observe]
  obtain ⟨second, hshows, hpassed⟩ := hsecond
  have hfirst : ∃ os, (settle callerBelow "c/t" 0 2 .first).Shows (observe callerBelow) os (.resolved 0) ∧
      .deferred ∈ os ∧ .passed ∈ os := by
    refine ⟨_, shows_steps _ (.call (some true) (.call (some rowOfT) (.call (some .dirty) (.call ()
      (.call (some STAMP_MISSING) (.call false (.call (some true) (.call (some true) (.call (some false)
      (.call true (.call () hshows))))))))))), ?_⟩
    simp [observe, hpassed]
  obtain ⟨os, hos, hdeferred, hpassed⟩ := hfirst
  refine ⟨os, hos, fun hmatched => ?_⟩
  have hclear := (matched_iff (.settle 0 2) hos).1.mp hmatched
  exact hclear.retried hdeferred hpassed

/-- `build_one` of a target without a `.do` file. -/
theorem not_matched : ¬ ∀ (c : Caller) (name : String) (p : Prog) (os : List Obs) (code : ℤ), Builds c name p →
    p.Shows (observe c) os (.resolved code) → Matched code (linesOf os) := by
  intro h
  have hrun : ∃ os, (buildOne callerBelow "c/t" true 0).Shows (observe callerBelow) os (.resolved 1) ∧
      linesOf os = [⟨.do', callerBelow.trp "c/t"⟩] := by
    refine ⟨_, .call (some rowOfT) (.call () (.call (some STAMP_MISSING) (.call false (shows_steps _
      (.call (some false) (.call false (shows_steps _ (.done _)))))))), rfl⟩
  obtain ⟨os, hos, hlines⟩ := hrun
  have hmatched := h callerBelow "c/t" _ os 1 (.buildOne true 0) hos
  rw [hlines] at hmatched
  have hnone := (matched_of_none rfl).mp hmatched
  cases hnone

end Redo.Logs.Announcements
