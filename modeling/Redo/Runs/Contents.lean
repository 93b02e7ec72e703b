import Redo.Cache.Descriptions
import Redo.Library.Queries
import Redo.Runs.Declarations

/-! # What the files contain

A recipe is a program that asks for files, declares what it asks for, and ends with what its target
is to be. The action cache keeps what targets have been, under what was known of their dependencies
at the time: the stamps here, the digests of the contents on the server. What is at a path is more
than either of them, and may change while they stay.
-/
namespace Redo.Runs
open State Cache Override Completion Library

/-- An answer that a recipe has had. -/
structure Answer (V : Type) where
  name : String
  value : V
  /-- Is it declared on the list that a job on a server leaves, and not in the tables? -/
  sent : Bool

structure Recipe (V : Type) where
  answers : List (Answer V) := []
  /-- What is left of the program. -/
  rest : Query String V

/-- What recipes make of files. -/
structure Setting (V : Type) where
  rules : Rules String V
  platform : Platform

/-- The files at a time. -/
structure Files (V : Type) where
  disk : Disk
  /-- What a recipe sees at a path. -/
  sees : String → V
  /-- What the key for the server says of a path, unless it cannot be read. -/
  contents : String → Option Content

/-- A project with its files and the two caches. -/
structure Site (V : Type) extends Project where
  sees : String → V
  contents : String → Option Content
  /-- The files as they have been so far, as they are included. -/
  past : List (Files V)
  recipe : FileId → Option (Recipe V) := fun _ => none
  store : Option String × ActionKey → Option V := fun _ => none
  index : Option String × RemoteKey → Option V := fun _ => none

inductive Move (V : Type) where
  /-- A step of a run that changes no file. -/
  | plain (e : Event)
  | edit (files : Files V)
  /-- The recipe of a target that is being built starts. -/
  | start (id : FileId)
  /-- The recipe looks at the file that it asks for. -/
  | look (id : FileId) (sent : Bool)
  /-- The cache has the key; what it has is in place. -/
  | hit (id : FileId) (policy : Option String) (files : Files V)
  | remoteHit (id : FileId) (policy : Option String) (files : Files V)
  /-- Completion. The target may be stored, and what is stored may be pushed. -/
  | finish (i : Input) (scheduled : Bool) (files : Files V) (policy : Option String)
      (stored pushed : Bool)
  /-- An entry is collected. -/
  | drop (policy : Option String) (key : ActionKey)

/-- The event changes no file. -/
def Event.keepsDisk : Event → Bool
  | .edit _ | .cacheHit _ | .finish .. => false
  | _ => true

section Keys
variable {κ : Type}

/-- The loop of the key functions over the sorted dependencies. It ends at `//ALWAYS`, and where a
file cannot be read. -/
def describe (state : String → Option κ) : List (Char × File) → Option (List (Char × String × κ))
  | [] => some []
  | p :: rest =>
    if p.2.name = ALWAYS then none
    else (state p.2.name).bind fun k => (describe state rest).map ((p.1, p.2.name, k) :: ·)

/-- `compute_action_key_v0`. -/
def actionKey (disk : Disk) (target : String) (deps : List (Char × File)) : Option ActionKey :=
  match computeActionKey disk target deps with
  | .skipAlways => none
  | .eligible key => some key

/-- `compute_action_key_v1_remote`. -/
def remoteKey (platform : Platform) (contents : String → Option Content) (target : String)
    (deps : List (Char × File)) : Option RemoteKey :=
  (describe contents (deps.insertionSort keyLe)).map fun deps =>
    { os := platform.os, arch := platform.arch, target, deps }

end Keys

namespace Site
variable {V : Type}

def files (s : Site V) : Files V := ⟨s.disk, s.sees, s.contents⟩

/-- The files are these now. -/
def change (s : Site V) (files : Files V) : Site V :=
  { s with
    disk := files.disk, sees := files.sees, contents := files.contents, past := files :: s.past }

def key (s : Site V) (sf : File) : Option ActionKey :=
  actionKey s.disk sf.name (s.db.depsOf s.R sf)

def keyOnServer (k : Setting V) (s : Site V) (sf : File) : Option RemoteKey :=
  remoteKey k.platform s.contents sf.name (s.db.depsOf s.R sf)

def found (s : Site V) (policy : Option String) (sf : File) : Option V :=
  (s.key sf).bind fun key => s.store (policy, key)

def foundOnServer (k : Setting V) (s : Site V) (policy : Option String) (sf : File) : Option V :=
  (s.keyOnServer k sf).bind fun key => s.index (policy, key)

/-- `action_cache::store`: what is there stays. -/
def keep (s : Site V) (policy : Option String) (key : ActionKey) (v : V) : Site V :=
  { s with store := Function.update s.store (policy, key) (some ((s.store (policy, key)).getD v)) }

/-- A mapping is put on the server for what the cache has under the key. -/
def push (k : Setting V) (s : Site V) (policy : Option String) (key : ActionKey) (sf : File) :
    Site V :=
  match s.store (policy, key), s.keyOnServer k sf with
  | some v, some rkey => { s with index := Function.update s.index (policy, rkey) (some v) }
  | _, _ => s

/-- What has been found is in place of the target. -/
def place (s : Site V) (id : FileId) (files : Files V) : Site V :=
  { s.change files with toProject := (Event.cacheHit id).apply (s.change files).toProject }

/-- The target has just been built. -/
def storeBuilt (k : Setting V) (s : Site V) (policy : Option String) (id : FileId) (pushed : Bool) :
    Site V :=
  match s.db.byId s.R id with
  | none => s
  | some sf =>
    if sf.csum.isSome then s
    else
      match s.key sf with
      | none => s
      | some key =>
        let s := s.keep policy key (s.sees sf.name)
        if pushed then s.push k policy key sf else s

end Site

namespace Move
variable {V : Type}

def apply (k : Setting V) (s : Site V) : Move V → Site V
  | plain e =>
    { s with
      toProject := e.apply s.toProject
      recipe := fun x => if e.releases = some x then none else s.recipe x }
  | edit files => s.change files
  | start id =>
    match (s.building id).bind fun sf => k.rules.rule sf.name with
    | none => s
    | some rest => { s with recipe := Function.update s.recipe id (some { rest }) }
  | look id sent =>
    match s.recipe id with
    | some ⟨answers, .ask name next⟩ =>
      let value := s.sees name
      { s with
        recipe := Function.update s.recipe id
          (some { answers := answers ++ [{ name, value, sent }], rest := next value }) }
    | _ => s
  | hit id _ files => s.place id files
  | remoteHit id policy files =>
    match s.building id with
    | none => s
    | some sf =>
      let placed := s.place id files
      match s.key sf with
      | none => placed
      | some key => placed.keep policy key (placed.sees sf.name)
  | finish i scheduled files policy stored pushed =>
    let s : Site V :=
      { s.change files with
        toProject := (Event.finish i scheduled files.disk).apply s.toProject
        recipe := Function.update s.recipe i.sf.id none }
    if stored then s.storeBuilt k policy i.sf.id pushed else s
  | drop policy key => { s with store := Function.update s.store (policy, key) none }

end Move

/-- Nothing but one file has changed, which is `v` now. -/
structure Placed {V : Type} (s : Site V) (name : String) (v : V) (files : Files V) : Prop where
  value : files.sees name = v
  sees : ∀ n, n ≠ name → files.sees n = s.sees n
  readStamp : ∀ n, n ≠ name → files.disk.readStamp n = s.disk.readStamp n
  pathExists : ∀ n, n ≠ name → files.disk.pathExists n = s.disk.pathExists n
  contents : ∀ n, n ≠ name → files.contents n = s.contents n

namespace Move
variable {V : Type}

/-- When a move can take place. A recipe declares what it looks at, and has had all that it asks for
when it ends with code 0. -/
def Fits (k : Setting V) (s : Site V) : Move V → Prop
  | plain e => e.Fits s.toProject ∧ e.keepsDisk = true
  | edit files => (Event.edit files.disk).Fits s.toProject
  | start id => s.recipe id = none ∧ ∃ sf, s.building id = some sf ∧ (k.rules.rule sf.name).isSome
  | look id sent => ∃ answers name next, s.recipe id = some ⟨answers, .ask name next⟩ ∧
      (sent = false → Noted s.db id name)
  | hit id policy files => s.recipe id = none ∧ (Event.cacheHit id).Fits s.toProject ∧
      ∃ sf v, s.building id = some sf ∧ s.found policy sf = some v ∧ Placed s sf.name v files
  | remoteHit id policy files => s.recipe id = none ∧ (Event.cacheHit id).Fits s.toProject ∧
      ∃ sf v, s.building id = some sf ∧ s.found policy sf = none ∧
        s.foundOnServer k policy sf = some v ∧ Placed s sf.name v files
  | finish i scheduled files _ stored _ =>
      (Event.finish i scheduled files.disk).Fits s.toProject ∧
      ((outcome i scheduled).ended = .code 0 → ∃ answers v, s.recipe i.sf.id = some ⟨answers, .done v⟩ ∧
        files.sees i.sf.name = v ∧ ∀ a ∈ answers, a.sent = true → Reported i scheduled a.name) ∧
      (stored = true → (outcome i scheduled).ended = .code 0)
  | drop _ _ => True

end Move

/-- A new project, with empty caches. -/
structure Site.Begun {V : Type} (s : Site V) : Prop extends Started s.toProject where
  past : s.past = [s.files]
  recipe : s.recipe = fun _ => none
  store : s.store = fun _ => none
  index : s.index = fun _ => none

end Redo.Runs
