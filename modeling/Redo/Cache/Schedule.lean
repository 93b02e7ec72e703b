import Mathlib.Data.List.Sort
import Redo.Override.Decision

/-! # The action cache in `schedule_build_one`

Before the recipe is started the recorded dependencies are turned into a key, and whatever the
store has under that key takes the place of the recipe. What is missing of the dependencies is
built first.
-/
namespace Redo.Cache
open State Override

structure World where
  db : Db
  disk : Disk

/-- What goes into the digest. -/
structure ActionKey where
  target : String
  deps : List (Char × String × Stamp)
deriving DecidableEq

/-- The calls that look or reach beyond the row, as they answer. -/
structure Calls where
  /-- `build_one`; `none` is an error. -/
  buildOne : FileId → World → Option (ℤ × World)
  /-- Whether the store, here or remote, has the key, and its blob has been renamed into place. -/
  restore : ActionKey → World → Bool

/-- What `schedule_build_one` knows when it is called. -/
structure Request where
  R : RunId
  sf : File
  /-- The rows of the possible `.do` files, in order. -/
  candidates : List File
  /-- Whether there is a slot in the pool, if the `.do` file names one. -/
  poolFree : Bool

inductive Outcome where
  /-- Overridden or static. -/
  | accepted
  | deferredPool
  | noRule
  | missingDependency (name : String)
  | dependencyFailed (name : String)
  | cacheHit
  | recipe
deriving DecidableEq

/-- `find_do_for_target`. -/
def findDo (disk : Disk) (R : RunId) (sf : File) : List File → Db → Bool × Db
  | [], db => (false, db)
  | cand :: rest, db =>
    if disk.pathExists cand.name then
      (true, (db.addDep sf.id 'm' cand.id).save (cand.setStatic R (disk.readStamp cand.name)))
    else findDo disk R sf rest (db.addDep sf.id 'c' cand.id)

inductive Missing where
  | none
  | source (name : String)
  | failed (name : String)

/-- The rows that the check for missing dependencies leaves alone. -/
def skips (sf : File) (p : Char × File) : Bool :=
  p.1 ≠ 'm' || p.2.id = sf.id || p.2.name = ALWAYS

/-- The loop over the recorded dependencies. -/
def buildMissing (calls : Calls) (sf : File) :
    List (Char × File) → World → Option (Missing × World)
  | [], w => some (.none, w)
  | p :: rest, w =>
    if skips sf p then buildMissing calls sf rest w
    else if w.disk.pathExists p.2.name then buildMissing calls sf rest w
    else if p.2.isGenerated then
      match calls.buildOne p.2.id w with
      | none => none
      | some (rv, w) =>
        if rv = 0 then buildMissing calls sf rest w else some (.failed p.2.name, w)
    else some (.source p.2.name, w)

/-- The order of the key: by mode, then by name. -/
def keyLe (p q : Char × File) : Prop := p.1 < q.1 ∨ p.1 = q.1 ∧ p.2.name ≤ q.2.name

instance : DecidableRel keyLe := fun _ _ => inferInstanceAs (Decidable (_ ∨ _))

inductive Eligibility where
  | eligible (key : ActionKey)
  | skipAlways

/-- The loop of `compute_action_key_v0`; a dependency on `//ALWAYS` ends it. -/
def hashDeps (disk : Disk) : List (Char × File) → Option (List (Char × String × Stamp))
  | [] => some []
  | p :: rest =>
    if p.2.name = ALWAYS then none
    else (hashDeps disk rest).map ((p.1, p.2.name, disk.readStamp p.2.name) :: ·)

def computeActionKey (disk : Disk) (target : String) (deps : List (Char × File)) : Eligibility :=
  match hashDeps disk (deps.insertionSort keyLe) with
  | none => .skipAlways
  | some deps => .eligible { target, deps }

namespace Request

/-- The row from `persist_new_target_intent` on. -/
def target (q : Request) (w : World) : File :=
  persistNewTargetIntent (w.disk.pathExists q.sf.name) q.sf

/-- After `persist_new_target_intent`, `zap_deps1` and `find_do_for_target`. -/
def prepare (q : Request) (w : World) : Bool × World :=
  let present := w.disk.pathExists q.sf.name
  let db := if present || q.sf.isGenerated then w.db else w.db.save (q.target w)
  let (found, db) := findDo w.disk q.R (q.target w) q.candidates (db.zapDeps1 q.sf.id)
  (found, { w with db })

/-- What `deps` returns then: the rows marked for deletion are still there. -/
def recorded (q : Request) (w : World) : List (Char × File) :=
  (q.prepare w).2.db.depsOf q.R (q.target w)

def hasRule (q : Request) (w : World) : Bool :=
  q.candidates.any fun cand => w.disk.pathExists cand.name

/-- A row that ends the attempt is saved, with the stamp that the file has by then. -/
def saveFailed (q : Request) (w₀ w : World) : World :=
  { w with db := w.db.save ((q.target w₀).setFailed q.R (w.disk.readStamp q.sf.name)) }

/-- The cache path, for a target without a checksum. -/
def viaCache (calls : Calls) (q : Request) (w₀ w : World) : Option (Outcome × World) :=
  match buildMissing calls (q.target w₀) (q.recorded w₀) w with
  | none => none
  | some (.source name, w) => some (.missingDependency name, q.saveFailed w₀ w)
  | some (.failed name, w) => some (.dependencyFailed name, q.saveFailed w₀ w)
  | some (.none, w) =>
    match computeActionKey w.disk q.sf.name (q.recorded w₀) with
    | .skipAlways => some (.recipe, w)
    | .eligible key => some (if calls.restore key w then .cacheHit else .recipe, w)

/-- `schedule_build_one` up to the start of the recipe. -/
def scheduleBuildOne (cacheOn : Bool) (calls : Calls) (q : Request) (w : World) :
    Option (Outcome × World) :=
  let newstamp := w.disk.readStamp q.sf.name
  let present := w.disk.pathExists q.sf.name
  if overridden newstamp q.sf then
    some (.accepted, if q.sf.isOverride then w
      else { w with db := w.db.save (q.sf.setOverride q.R newstamp) })
  else if present && !q.sf.isGenerated then
    some (.accepted, { w with db := w.db.save (q.sf.setStatic q.R newstamp) })
  else if q.hasRule w && !q.poolFree then some (.deferredPool, w)
  else
    let (found, w') := q.prepare w
    if !found then
      if present then
        some (.accepted, { w' with db := w'.db.save ((q.target w).setStatic q.R newstamp) })
      else some (.noRule, q.saveFailed w w')
    else if cacheOn && (q.target w).csum.isNone then q.viaCache calls w w'
    else some (.recipe, w')

end Request
end Redo.Cache
