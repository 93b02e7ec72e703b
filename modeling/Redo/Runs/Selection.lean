import Redo.Runs.Rules

/-! # Watching over the choice of `.do` files

A target is built by the first candidate that is there. When an earlier one turns up, or the chosen
one is edited or removed between two runs, the target has to be built again.
-/
namespace Redo.Runs
open State Dirtiness Override Completion

/-- A project, and what has become of the rules by which its targets were built. -/
structure Watch extends Project where
  /-- The rule of the build under way. -/
  trying : FileId → Option Rule := fun _ => none
  /-- The rule of the last build that got through. -/
  rule : FileId → Option Rule := fun _ => none
  /-- Has the build under way written over what the last one has recorded? -/
  torn : FileId → Bool := fun _ => false
  /-- Would another rule be chosen now, or has the chosen file been edited or removed? -/
  alarm : FileId → Bool := fun _ => false
  /-- Has nothing happened in this run but edits? -/
  between : Bool := false

/-- A file is at the path of an earlier candidate. -/
def Rule.exposed (rule : Rule) (db : Db) (disk : Disk) : Bool :=
  rule.earlier.any fun y => (db.lookup y).any fun r => disk.pathExists r.name

/-- The chosen file is another one than before. -/
def Rule.moved (rule : Rule) (db : Db) (disk disk' : Disk) : Bool :=
  (db.lookup rule.chosen).any fun r => disk'.readStamp r.name ≠ disk.readStamp r.name

namespace Event

/-- An attempt that starts a recipe. -/
def starts (s : Project) : Event → Option Cache.Request
  | .attempt q =>
    match q.scheduleBuildOne false noCalls s.world with
    | some (.recipe, _) => some q
    | _ => none
  | _ => none

/-- A target whose build gets through. -/
def completes : Event → Option FileId
  | .cacheHit id => some id
  | .finish i scheduled _ => if (outcome i scheduled).ended = .code 0 then some i.sf.id else none
  | _ => none

/-- A target that its builder is done with. -/
def releases : Event → Option FileId
  | .cacheHit id => some id
  | .giveUp id => some id
  | .finish i _ _ => some i.sf.id
  | .die id => some id
  | _ => none

def trying (w : Watch) (e : Event) : FileId → Option Rule :=
  match e.starts w.toProject with
  | some q => Function.update w.trying q.sf.id (ruleOf q w.world)
  | none => w.trying

def ruled (w : Watch) (e : Event) : FileId → Option Rule :=
  match e.completes with
  | some id => Function.update w.rule id (w.trying id)
  | none => w.rule

/-- A recipe that starts by the rule of the last build leaves what is recorded; `redo-stamp` does
not. -/
def tears (w : Watch) (e : Event) : FileId → Bool :=
  match e.starts w.toProject with
  | some q => Function.update w.torn q.sf.id
      (w.rule q.sf.id ≠ ruleOf q w.world || !(w.disk.pathExists q.sf.name || q.sf.isGenerated))
  | none =>
    match e with
    | .stamp id _ => Function.update w.torn id true
    | e =>
      match e.releases with
      | some id => Function.update w.torn id false
      | none => w.torn

def alarms (w : Watch) : Event → FileId → Bool
  | .newRun _ => fun x => w.alarm x || (w.rule x).any fun rule => rule.exposed w.db w.disk
  | .edit disk => fun x => w.alarm x || w.between && (w.rule x).any fun rule =>
      rule.exposed w.db disk || rule.moved w.db w.disk disk
  | e =>
    match e.completes with
    | some id => Function.update w.alarm id false
    | none => w.alarm

def quiet (w : Watch) : Event → Bool
  | .newRun _ => true
  | .edit _ => w.between
  | _ => false

def watch (w : Watch) (e : Event) : Watch where
  toProject := e.apply w.toProject
  trying := e.trying w
  rule := e.ruled w
  torn := e.tears w
  alarm := e.alarms w
  between := e.quiet w

end Event

def WatchStep (w w' : Watch) : Prop := ∃ e : Event, e.Fits w.toProject ∧ w' = e.watch w

/-- Candidates that have raised the alarm stay there, and no chosen file gets back the stamp that
is on record. -/
structure Leaves (w : Watch) (disk : Disk) : Prop where
  earlier : ∀ {x rule y r}, w.rule x = some rule → w.alarm x = true → y ∈ rule.earlier →
    w.db.lookup y = some r → w.disk.pathExists r.name = true → disk.pathExists r.name = true
  chosen : ∀ {x rule f}, w.rule x = some rule → (w.alarm x = true ∨ w.between = true) →
    Copy w.toProject rule.chosen f →
      disk.readStamp f.name = w.disk.readStamp f.name ∨ f.stamp.getD "" ≠ disk.readStamp f.name

/-- The recipes say nothing of the candidates that the search has not said, `redo-stamp` finds
edited `.do` files changed, and no builder ends in the middle of a change of rules. -/
def Event.Honest (w : Watch) : Event → Prop
  | .edit disk => Leaves w disk
  | .ifchange id source => ∀ rule, w.trying id = some rule → source ∉ rule.earlier
  | .ifcreate id source => ∀ rule, w.trying id = some rule → source ≠ rule.chosen
  | .stamp id csum => ∀ x rule f r, w.rule x = some rule → w.alarm x = true → rule.chosen = id →
      w.db.lookup id = some f → f.csum = some csum → w.db.lookup x = some r →
        r.lastSeen < f.changedRunid.getD 0
  | .finish i _ disk => Leaves w disk ∧
      ∀ rule, w.trying i.sf.id = some rule → rule.Agrees i.remote
  | .die id => w.rule id = none ∨ w.torn id = false
  | _ => True

def HonestStep (w w' : Watch) : Prop :=
  ∃ e : Event, e.Fits w.toProject ∧ e.Honest w ∧ w' = e.watch w

/-- A project without a past. -/
structure Watch.Begun (w : Watch) : Prop extends Started w.toProject where
  trying : w.trying = fun _ => none
  rule : w.rule = fun _ => none
  torn : w.torn = fun _ => false
  alarm : w.alarm = fun _ => false
  between : w.between = false

/-- The row of a target as redo has left it. -/
structure TargetRow (r : File) : Prop where
  name : r.name ≠ ALWAYS
  generated : r.isGenerated = true
  override : r.isOverride = false

/-- No walk finds a target clean once the alarm has been raised for it. -/
def RuleHonest (w : Watch) : Prop :=
  ∀ f mx, w.db.byId w.R f.id = some f → TargetRow f → w.alarm f.id = true → w.torn f.id = false →
    (isdirtyDefault [] w.disk w.R w.db f mx).result ≠ .ok .clean

end Redo.Runs
