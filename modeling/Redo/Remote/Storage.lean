import Redo.Library.FileTree
import Redo.Remote.Json

/-! # The files of the cache server

The functions of the server that store blobs, call by call. Bodies are read from a
connection in pieces.
-/
namespace Redo.Remote
open Library

abbrev Bytes := List UInt8

abbrev Path := List (Hop Text)

structure Config where
  root : List Text
  pid : ℕ
  /-- The mode of a new file. -/
  newMode : ℕ

inductive FileOp where
  | mkdir (p : Path)
  | metadata (p : Path)
  | read (p : Path)
  | create (p : Path)
  | append (p : Path) (more : Bytes)
  | rename (a b : Path)
  | unlink (p : Path)
  | nextTmp
deriving DecidableEq, Repr

abbrev FileOp.Answer : FileOp → Type
  | mkdir _ => Bool
  | metadata _ => Option Kind
  | read _ => Option Bytes
  | create _ => Bool
  | append _ _ => Bool
  | rename _ _ => Bool
  | unlink _ => Bool
  | nextTmp => ℕ

abbrev Serve (α : Type) := Script FileOp FileOp.Answer α

structure Host where
  tree : Tree Text UInt8
  counter : ℕ

/-- An area of the tree, or else the counter. -/
abbrev Spots := Option (Area Text)

def Spots.covers : Spots → Option (List Text) → Prop
  | none, none => True
  | some area, some p => area.covers p
  | _, _ => False

def Spots.changes : Spots → Option (List Text) → Prop
  | none, none => True
  | some area, some p => area.changes p
  | _, _ => False

def Host.view (s : Host) : Option (List Text) → ℕ ⊕ Option (Node Text UInt8)
  | none => .inl s.counter
  | some p => .inr (s.tree.node p)

def Host.onTree {α : Type} (k : Kernel Text UInt8 α) (s : Host) : Outcome Host Spots α :=
  ⟨(k.on s.tree).answer, { s with tree := (k.on s.tree).after }, (k.on s.tree).touched.map some⟩

def FileOp.act (cfg : Config) : (op : FileOp) → Host → Outcome Host Spots op.Answer
  | mkdir p => Host.onTree (Kernel.mkdir p)
  | metadata p => Host.onTree (Kernel.metadata p)
  | read p => Host.onTree (Kernel.read p)
  | create p => Host.onTree (Kernel.create cfg.newMode p)
  | append p more => Host.onTree (Kernel.append p more)
  | rename a b => Host.onTree (Kernel.rename a b)
  | unlink p => Host.onTree (Kernel.unlink p)
  | nextTmp => fun s => ⟨s.counter, { s with counter := s.counter + 1 }, [none]⟩

namespace Serve

def mkdir (p : Path) : Serve Bool := Script.perform (FileOp.mkdir p)

def metadata (p : Path) : Serve (Option Kind) := Script.perform (FileOp.metadata p)

def read (p : Path) : Serve (Option Bytes) := Script.perform (FileOp.read p)

def create (p : Path) : Serve Bool := Script.perform (FileOp.create p)

def append (p : Path) (more : Bytes) : Serve Bool := Script.perform (FileOp.append p more)

def rename (a b : Path) : Serve Bool := Script.perform (FileOp.rename a b)

def unlink (p : Path) : Serve Bool := Script.perform (FileOp.unlink p)

def nextTmp : Serve ℕ := Script.perform FileOp.nextTmp

def pathExists (p : Path) : Serve Bool := do
  return (← metadata p).isSome

def isDir (p : Path) : Serve Bool := do
  return (← metadata p) == some .dir

/-- `create_dir_all` for the reversed names of a path. -/
def createDirs : List Text → Serve Bool
  | [] => pure true
  | name :: above => do
    let path := (name :: above).reverse.map Hop.down
    if ← mkdir path then pure true
    else if ← isDir path then pure true
    else if ← createDirs above then
      if ← mkdir path then pure true else isDir path
    else pure false

def createDirAll (p : List Text) : Serve Bool := createDirs p.reverse

/-- `fs::write` -/
def write (p : Path) (content : Bytes) : Serve Bool := do
  if ← create p then append p content else pure false

end Serve

def bucketDir (root : List Text) (kind key : Text) : List Text := root ++ [kind, key.take 2]

def blobPath (root : List Text) (key : Text) : List Text :=
  bucketDir root "blobs".toList key ++ [key]

/-- The temporary file of an upload lies beside the blob. -/
def Config.tmpPath (cfg : Config) (key : Text) (c : ℕ) : List Text :=
  bucketDir cfg.root "blobs".toList key ++
    ['.' :: key ++ '.' :: Nat.toDigits 10 cfg.pid ++ '.' :: Nat.toDigits 10 c ++ ".tmp".toList]

/-- The temporary file of a collected output. -/
def Config.tmpFile (cfg : Config) (c : ℕ) : List Text :=
  cfg.root ++ ["blobs".toList,
    ".tmp.".toList ++ Nat.toDigits 10 cfg.pid ++ '.' :: Nat.toDigits 10 c]

structure Response where
  code : ℕ
  body : Text
deriving DecidableEq, Repr

namespace Serve

/-- The temporary file takes the place of the blob, unless another upload was faster. -/
def settle (tmp dest : List Text) : Serve Bool := do
  if ← rename (tmp.map .down) (dest.map .down) then pure true
  else if ← pathExists (dest.map .down) then do
    let _ ← unlink (tmp.map .down)
    pure true
  else do
    let _ ← unlink (tmp.map .down)
    pure false

section
variable (H : Hashing Bytes) (cfg : Config)

def storeBlobBytesKnown (sha256Hex : Text) (bytes : Bytes) : Serve Bool := do
  if H.sha bytes ≠ sha256Hex then pure false
  else
    let dest := blobPath cfg.root sha256Hex
    if ← createDirAll (bucketDir cfg.root "blobs".toList sha256Hex) then
      if ← pathExists (dest.map .down) then pure true
      else
        let c ← nextTmp
        let tmp := cfg.tmpPath sha256Hex c
        if ← write (tmp.map .down) bytes then settle tmp dest else pure false
    else pure false

def storeBlobBytes (bytes : Bytes) : Serve (Option Text) := do
  if ← storeBlobBytesKnown H cfg (H.sha bytes) bytes then pure (some (H.sha bytes)) else pure none

/-- The copy of a file that is hashed on the way; what stands in the file is taken when its
copy has been created. -/
def copyHashed (src : Path) (tmp : List Text) : Serve (Option Bytes) := do
  if (← read src).isSome then
    if ← create (tmp.map .down) then
      match ← read src with
      | none => pure none
      | some content => if ← append (tmp.map .down) content then pure (some content) else pure none
    else pure none
  else pure none

def storeBlobFromFileCompute (src : Path) : Serve (Option (Text × ℕ)) := do
  match ← metadata src with
  | some (.file size _) => do
    let c ← nextTmp
    let tmp := cfg.tmpFile c
    if ← createDirAll (cfg.root ++ ["blobs".toList]) then
      match ← copyHashed src tmp with
      | none => pure none
      | some content =>
        let hex := H.sha content
        let dest := blobPath cfg.root hex
        if ← createDirAll (bucketDir cfg.root "blobs".toList hex) then
          if ← pathExists (dest.map .down) then do
            let _ ← unlink (tmp.map .down)
            pure (some (hex, size))
          else if ← settle tmp dest then pure (some (hex, size)) else pure none
        else pure none
    else pure none
  | _ => pure none

/-- The loop over the body of a request; a read gives some bytes, nothing at the end of the
connection, or an error. -/
def receive (tmp : List Text) : ℕ → Bytes → List (Option Bytes) → Serve (Option Bytes)
  | _, sofar, [] => pure (some sofar)
  | remaining, sofar, got :: reads =>
    if remaining = 0 then pure (some sofar)
    else
      match got.map fun bytes => bytes.take (min 1048576 remaining) with
      | none => pure none
      | some [] => pure (some sofar)
      | some (byte :: bytes) => do
        if ← append (tmp.map .down) (byte :: bytes) then
          receive tmp (remaining - (bytes.length + 1)) (sofar ++ byte :: bytes) reads
        else pure none

/-- The answer to an upload; `none` when the connection is dropped. -/
def handlePutBlob (sha256Hex : Text) (clen : ℕ) (reads : List (Option Bytes)) :
    Serve (Option Response) := do
  let dest := blobPath cfg.root sha256Hex
  if ← createDirAll (bucketDir cfg.root "blobs".toList sha256Hex) then
    let c ← nextTmp
    let tmp := cfg.tmpPath sha256Hex c
    if ← create (tmp.map .down) then
      match ← receive tmp clen [] reads with
      | none => pure none
      | some body =>
        if H.sha body ≠ sha256Hex then do
          let _ ← unlink (tmp.map .down)
          pure (some ⟨400, "digest_mismatch\n".toList⟩)
        else if ← pathExists (dest.map .down) then do
          let _ ← unlink (tmp.map .down)
          pure (some ⟨200, "ok\n".toList⟩)
        else if ← settle tmp dest then pure (some ⟨200, "ok\n".toList⟩)
        else pure none
    else pure none
  else pure none

end

/-- The body of an answer to `GET`. -/
def handleGetBlob (cfg : Config) (sha256Hex : Text) : Serve (Option Bytes) :=
  read ((blobPath cfg.root sha256Hex).map .down)

end Serve

/-- What a client gets for the key. -/
def Host.visible (cfg : Config) (s : Host) (key : Text) : Option Bytes :=
  ((Serve.handleGetBlob cfg key).run (FileOp.act cfg) s).answer

theorem agree_tree {areas : List (Area Text)} {s s' : Host} :
    Agree Spots.covers Host.view (areas.map some) s s' ↔
      Agree Area.covers Library.Tree.node areas s.tree s'.tree := by
  constructor
  · intro h a ha p hp
    simpa [Host.view] using h (some a) (List.mem_map_of_mem ha) (some p) hp
  · intro h a ha k hk
    obtain ⟨area, harea, rfl⟩ := List.mem_map.mp ha
    cases k with
    | none => exact hk.elim
    | some p => exact congrArg Sum.inr (h area harea p hk)

theorem Host.onTree_frames {α : Type} (k : Kernel Text UInt8 α) :
    Frames Spots.changes Host.view (Host.onTree k) := by
  intro s spot h
  cases spot with
  | none => rfl
  | some p =>
    exact congrArg Sum.inr (k.on_frames s.tree p fun a ha => h (some a) (List.mem_map_of_mem ha))

theorem FileOp.act_frames (cfg : Config) (op : FileOp) :
    Frames Spots.changes Host.view (op.act cfg) := by
  cases op with
  | nextTmp =>
    intro s spot h
    cases spot with
    | none => exact absurd trivial (h none (List.mem_singleton.mpr rfl))
    | some p => rfl
  | _ => exact Host.onTree_frames _

theorem Host.onTree_local {α : Type} (k : Kernel Text UInt8 α) :
    Local Spots.covers Host.view (Host.onTree k) where
  frame := by
    intro s spot h
    cases spot with
    | none => rfl
    | some p =>
      exact congrArg Sum.inr (k.on_local.frame s.tree p fun a ha => h (some a) (List.mem_map_of_mem ha))
  answer _ _ h := k.on_local.answer _ _ (agree_tree.mp h)
  touched _ _ h := congrArg (List.map some) (k.on_local.touched _ _ (agree_tree.mp h))
  after _ _ h := agree_tree.mpr (k.on_local.after _ _ (agree_tree.mp h))

theorem FileOp.act_local (cfg : Config) (op : FileOp) :
    Local Spots.covers Host.view (op.act cfg) := by
  cases op with
  | nextTmp =>
    constructor
    · intro s spot h
      cases spot with
      | none => exact absurd trivial (h none (List.mem_singleton.mpr rfl))
      | some p => rfl
    · intro s s' h
      have hsame : s.counter = s'.counter := by
        simpa [Host.view] using h none (List.mem_singleton.mpr rfl) none trivial
      exact hsame.symm
    · exact fun s s' h => rfl
    · intro s s' h a ha spot hspot
      have hsame := h none (List.mem_singleton.mpr rfl) none trivial
      have ha' : a = none := List.mem_singleton.mp ha
      subst ha'
      cases spot with
      | none => simpa [Host.view, FileOp.act] using hsame
      | some p => exact hspot.elim
  | _ => exact Host.onTree_local _

end Redo.Remote
