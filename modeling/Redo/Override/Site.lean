import Redo.Completion.Builds
import Redo.Dirtiness.Preservation
import Redo.Override.Decision

/-! # One path, its row, and all that may happen to them

Between redo operations the user writes and deletes at the path. A walk may mark
the row or turn it into that of a source. A build looks at the row and at the
path before it decides to run a recipe or to take the output from the cache.
-/
namespace Redo.Override
open State Dirtiness Completion

structure Site where
  db : Db
  node : Option Node

variable (fmt : MtimeFormat) (id : FileId)

/-- The decision about this row over what is at the path. -/
def Site.decide (s : Site) (R : RunId) (hasRule : Bool) (sf : File) : Decision :=
  decideBuild R (readStamp fmt s.node) (pathExists s.node) hasRule sf

/-- A build that returns normally, and whether it renamed over the path or unlinked it.
`db'` is what nested builds, the recipe and the dependency records have made of the
tables by then; of the row itself only that it is still there. -/
inductive BuildStep : Site → Site → Bool → Prop where
  | skipped {s : Site} {R : RunId} {hasRule : Bool} {sf : File} (row : s.db.byId R id = some sf)
      (h : s.decide fmt R hasRule sf = .skip) : BuildStep s s false
  | recorded {s : Site} {R : RunId} {hasRule : Bool} {sf sf' : File} {db' : Db}
      (row : s.db.byId R id = some sf) (h : s.decide fmt R hasRule sf = .record sf')
      (kept : db'.lookup id = s.db.lookup id) : BuildStep s ⟨db'.save sf', s.node⟩ false
  | depFailed {s : Site} {R : RunId} {sf sf' : File} {db' : Db}
      (row : s.db.byId R id = some sf) (h : s.decide fmt R true sf = .build sf')
      (kept : (db'.lookup id).isSome) :
      BuildStep s ⟨db'.save (sf'.setFailed R (readStamp fmt s.node)), s.node⟩ false
  | cacheHit {s : Site} {R : RunId} {sf sf' : File} {db' : Db} {hit : Node}
      (row : s.db.byId R id = some sf) (h : s.decide fmt R true sf = .build sf')
      (kept : (db'.lookup id).isSome) :
      BuildStep s
        ⟨db'.save (cacheHitRow R (readStamp fmt (some hit)) (db'.refresh R sf')), some hit⟩ true
  | ran {s : Site} {R : RunId} {sf : File} {i : Input} {o : Outcome}
      (row : s.db.byId R id = some sf) (h : s.decide fmt R true sf = .build i.sf)
      (run : i.R = R) (before : i.before = s.node.map Node.toMetadata)
      (stamps : i.calls.readStamp = readStamp fmt) (which : o = i.buildOne ∨ o = i.schedule)
      (normal : o.ended ≠ .error) : BuildStep s ⟨o.db, o.paths.target⟩ o.paths.touched

inductive Step : Site → Site → Prop where
  /-- The user writes, replaces or deletes the file. -/
  | user {s : Site} (node : Option Node) : Step s { s with node }
  | walk {s : Site} {R : RunId} {f : File} (preflight : List FileId) (disk : Disk) (mx : RunId)
      (root : s.db.byId R f.id = some f)
      (sees : ∀ r, s.db.lookup id = some r → disk.readStamp r.name = readStamp fmt s.node) :
      Step s { s with db := (isdirtyDefault preflight disk R s.db f mx).state.db }
  /-- Anything that happens to other files and to dependency records. -/
  | elsewhere {s : Site} {db' : Db} (kept : db'.lookup id = s.db.lookup id) :
      Step s { s with db := db' }
  | build {s s' : Site} {touched : Bool} (h : BuildStep fmt id s s' touched) : Step s s'

end Redo.Override
