import Mathlib.Data.List.DropRight
import Redo.Cache.Metadata
import Redo.Library.LossyText
import Redo.Library.Threads
import Redo.Remote.Blobs
import Redo.Remote.Downloads

/-! # Requests to the cache server

Whether a request may write is asked once, for the methods that write, before its path is looked at.
The handlers behind the other methods only look at files.
-/
namespace Redo.Remote.Requests
open Library Relation Downloads

structure ServerConfig extends Config where
  readOnly : Bool
  requireBearer : Option Text
  enableExec : Bool

/-- How a command in its sandbox ends: `bwrap` is missing, it cannot be run, or it has run. -/
inductive Launched where
  | missing
  | failed (e : Text)
  | ran (r : Ran)
deriving DecidableEq, Repr

inductive Call where
  | file (op : FileOp)
  | setPermissions (p : Path) (mode : ℕ)
  | removeDirAll (p : Path)
  | bwrap (work : List Text) (req : ExecRequest)
deriving DecidableEq, Repr

abbrev Call.Answer : Call → Type
  | file op => op.Answer
  | setPermissions _ _ => Bool
  | removeDirAll _ => Bool
  | bwrap _ _ => Launched

abbrev Program (α : Type) := Script Call Call.Answer α

def lift {α : Type} : Serve α → Program α
  | .done a => .done a
  | .call op next => .call (.file op) fun x => lift (next x)

/-- What goes over the connection. -/
inductive Reply where
  | dropped
  | text (r : Response)
  | json (r : Response)
  | blob (content : Bytes)
deriving DecidableEq, Repr

def writeText (code : ℕ) (body : String) : Reply := .text ⟨code, body.toList⟩

def authOk (headers : List (Text × Text)) : Option Text → Bool
  | none => true
  | some tok => ((headers.lookup "authorization".toList).map trim).getD [] = "Bearer ".toList ++ tok

def actionPath (root : List Text) (key : Text) : List Text :=
  bucketDir root "actions".toList key ++ [key]

def tmpAction (cfg : Config) (key : Text) (c : ℕ) : List Text :=
  bucketDir cfg.root "actions".toList key ++
    ['.' :: key ++ '.' :: Nat.toDigits 10 cfg.pid ++ '.' :: Nat.toDigits 10 c ++ ".tmp".toList]

/-- The reads of a body of the given length. -/
def pieces (s : Stream) (remaining : ℕ) : List (Option Bytes) :=
  if remaining = 0 then []
  else
    match _h : s.read (min BUF_LEN remaining) with
    | .error _ => [none]
    | .ok (piece, s') =>
      if _hpiece : piece = [] then [some []]
      else some piece :: pieces s' (remaining - piece.length)
termination_by s.content.length
decreasing_by exact Stream.read_length _h _hpiece

/-- What cannot be opened although it is there drops the connection. -/
def notFound (p : Path) : Serve Reply := do
  if ← Serve.pathExists p then pure .dropped else pure (writeText 404 "not_found\n")

/-- The answer to a GET from what stands in the mapping file, if that is text. -/
def mappingReply : Option Text → Reply
  | none => .dropped
  | some text =>
    let man := firstLine text
    if !isHex man then writeText 500 "bad_mapping\n" else .json ⟨200, mappingJson man⟩

section
variable (cfg : ServerConfig)

def handleGetBlob (sha256Hex : Text) : Serve Reply := do
  match ← Serve.handleGetBlob cfg.toConfig sha256Hex with
  | some content => pure (.blob content)
  | none => notFound ((blobPath cfg.root sha256Hex).map .down)

def handleGetAction (actionKeyHex : Text) : Serve Reply := do
  let p := (actionPath cfg.root actionKeyHex).map .down
  match ← Serve.read p with
  | none => notFound p
  | some content => pure (mappingReply (decode content))

/-- The answer to a PUT that finds a mapping. -/
def compare (man existing : Text) : Reply :=
  if firstLine existing = man then writeText 200 "ok\n" else writeText 409 "conflict\n"

/-- The new mapping file takes its place, unless another writer was first and keeps it. -/
def replaceAction (tmp dest : List Text) (man : Text) : Serve Reply := do
  if ← Serve.rename (tmp.map .down) (dest.map .down) then pure (writeText 200 "ok\n")
  else if ← Serve.pathExists (dest.map .down) then do
    let cur := ((← Serve.read (dest.map .down)).bind decode).getD []
    let _ ← Serve.unlink (tmp.map .down)
    pure (compare man cur)
  else do
    let _ ← Serve.unlink (tmp.map .down)
    pure .dropped

/-- The mapping file is written aside first. -/
def storeAction (actionKeyHex man : Text) : Serve Reply := do
  let c ← Serve.nextTmp
  let tmp := tmpAction cfg.toConfig actionKeyHex c
  if ← Serve.write (tmp.map .down) (encode (man ++ ['\n'])) then
    replaceAction tmp (actionPath cfg.root actionKeyHex) man
  else pure .dropped

def handlePutAction (actionKeyHex : Text) (clen : ℕ) (s : Stream) : Serve Reply := do
  if ← Serve.createDirAll (bucketDir cfg.root "actions".toList actionKeyHex) then
    match s.readExact clen with
    | .error _ => pure .dropped
    | .ok body =>
      let man := (mappingManifest (lossy body)).getD []
      if !isDigest man then pure (writeText 400 "invalid_manifest_sha256\n")
      else
        match (← Serve.read ((actionPath cfg.root actionKeyHex).map .down)).bind decode with
        | some existing => pure (compare man existing)
        | none => storeAction cfg actionKeyHex man
  else pure .dropped

end

/-! ## Executions -/

def ifchangeScript : Text :=
  ['\n'].intercalate
    ["#!/bin/sh".toList, "set -euo pipefail".toList, [],
     "out0=\"$\x7bREDO_REMOTE_DEPS_OUT0:-\x7d\"".toList,
     "if [ -z \"$out0\" ]; then".toList,
     "  echo \"redo-ifchange(remote): missing REDO_REMOTE_DEPS_OUT0\" >&2".toList,
     "  exit 2".toList, "fi".toList, [],
     "# Minimal option skipping: ignore flags until '--' or first non-flag.".toList,
     "while [ \"$#\" -gt 0 ]; do".toList, "  case \"$1\" in".toList,
     "    --) shift; break ;;".toList, "    -*) shift ;;".toList, "    *) break ;;".toList,
     "  esac".toList, "done".toList, [],
     "for t in \"$@\"; do".toList, "  if [ -z \"$t\" ]; then".toList,
     "    echo \"cannot build the empty target (\\\"\\\").\" >&2".toList,
     "    exit 204".toList, "  fi".toList, "  if [ ! -e \"$t\" ]; then".toList,
     "    echo \"redo-ifchange(remote): missing dependency: $t\" >&2".toList,
     "    exit 1".toList, "  fi".toList,
     "  printf 'm\\0%s\\0' \"$t\" >>\"$out0\"".toList, "done".toList, "exit 0".toList, []]

def ifcreateScript : Text :=
  ['\n'].intercalate
    ["#!/bin/sh".toList, "set -euo pipefail".toList, [],
     "out0=\"$\x7bREDO_REMOTE_DEPS_OUT0:-\x7d\"".toList,
     "if [ -z \"$out0\" ]; then".toList,
     "  echo \"redo-ifcreate(remote): missing REDO_REMOTE_DEPS_OUT0\" >&2".toList,
     "  exit 2".toList, "fi".toList, [],
     "for t in \"$@\"; do".toList, "  if [ -z \"$t\" ]; then".toList,
     "    echo \"cannot build the empty target (\\\"\\\").\" >&2".toList,
     "    exit 204".toList, "  fi".toList, "  if [ -e \"$t\" ]; then".toList,
     "    echo \"redo-ifcreate: error: $t already exists\" >&2".toList,
     "    exit 1".toList, "  fi".toList,
     "  printf 'c\\0%s\\0' \"$t\" >>\"$out0\"".toList, "done".toList, "exit 0".toList, []]

/-- `fs::copy` -/
def copy (src dest : Path) : Serve Bool := do
  match ← Serve.read src with
  | none => pure false
  | some content => Serve.write dest content

def setPermissions (p : Path) (mode : ℕ) : Program Bool := Script.perform (Call.setPermissions p mode)

def removeDirAll (p : List Text) : Program Bool :=
  Script.perform (Call.removeDirAll (p.map .down))

section
variable (H : Hashing Bytes) (cfg : ServerConfig)

/-- The declared inputs come from blobs. -/
def materialize (work : List Text) : List ExecInput → Program Bool
  | [] => pure true
  | inp :: inputs => do
    let src := (blobPath cfg.root inp.sha256).map .down
    let dest := relPath work inp.path
    if ← lift (Serve.pathExists src) then
      let _ ← lift (Serve.createDirAll (relParent work inp.path))
      let _ ← lift (copy src dest)
      let _ ← setPermissions dest (inp.mode &&& 0o777)
      materialize work inputs
    else pure false

def install (dir : List Text) (name : String) (script : Text) : Program Unit := do
  let path := (dir ++ [name.toList]).map .down
  let _ ← lift (Serve.write path (encode script))

def prepare (work : List Text) (req : ExecRequest) : Program Unit := do
  let remoteBin := work ++ [".redo".toList, "remote-bin".toList]
  let _ ← lift (Serve.createDirAll (work ++ [".redo".toList]))
  let _ ← lift (Serve.createDirAll (relParent work req.depsOut0Rel))
  let _ ← lift (Serve.createDirAll (relParent work req.traceOut0Rel))
  let _ ← lift (Serve.write (relPath work req.depsOut0Rel) [])
  let _ ← lift (Serve.createDirAll remoteBin)
  install remoteBin "redo-ifchange" ifchangeScript
  install remoteBin "redo-ifcreate" ifcreateScript
  let _ ← setPermissions ((remoteBin ++ ["redo-ifchange".toList]).map .down) 0o755
  let _ ← setPermissions ((remoteBin ++ ["redo-ifcreate".toList]).map .down) 0o755

def execute (work : List Text) (req : ExecRequest) : Program Reply := do
  if ← materialize cfg work req.inputs then
    prepare work req
    match ← Script.perform (Call.bwrap work req) with
    | .missing => pure (writeText 501 "bwrap_missing\n")
    | .failed e => pure (.text ⟨500, "exec_failed:".toList ++ e ++ ['\n']⟩)
    | .ran ran => do
      let result ← lift (Serve.collectOutputs H cfg.toConfig work req ran)
      pure (.json ⟨200, result.json⟩)
  else pure (writeText 400 "missing_blob\n")

def MAX_EXEC : ℕ := 50 * 1024 * 1024

/-- `parse` is the reader of JSON. -/
def handlePostExec (parse : Bytes → Option ExecRequest) (clen : ℕ) (s : Stream) : Program Reply := do
  if !cfg.enableExec then pure (writeText 404 "not_found\n")
  else if MAX_EXEC < clen then pure (writeText 413 "too_large\n")
  else
    match s.readExact clen with
    | .error _ => pure .dropped
    | .ok body =>
      match parse body with
      | none => pure (writeText 400 "bad_json\n")
      | some req =>
        match req.refused with
        | some response => pure (.text response)
        | none => do
          let c ← lift Serve.nextTmp
          let work := cfg.workHost c
          let _ ← lift (Serve.createDirAll work)
          let reply ← execute H cfg work req
          let _ ← removeDirAll work.dropLast
          pure reply

end

/-! ## Routing -/

def trimSlashes (t : Text) : Text := t.rdropWhile (· = '/')

def GET : Text := "GET".toList

def PUT : Text := "PUT".toList

def POST : Text := "POST".toList

def methodNotAllowed : Reply := writeText 405 "method_not_allowed\n"

section
variable (H : Hashing Bytes) (parse : Bytes → Option ExecRequest) (cfg : ServerConfig)

def blobs (method rest : Text) (clen : ℕ) (s : Stream) : Program Reply :=
  let key := trimSlashes rest
  if !isDigest key then pure (writeText 400 "invalid_digest\n")
  else if method = GET then lift (handleGetBlob cfg key)
  else if method = PUT then
    lift do
      match ← Serve.handlePutBlob H cfg.toConfig key clen (pieces s clen) with
      | some r => pure (.text r)
      | none => pure .dropped
  else pure methodNotAllowed

def actions (method rest : Text) (clen : ℕ) (s : Stream) : Program Reply :=
  let key := trimSlashes rest
  if !isDigest key then pure (writeText 400 "invalid_actionkey\n")
  else if method = GET then lift (handleGetAction cfg key)
  else if method = PUT then lift (handlePutAction cfg key clen s)
  else pure methodNotAllowed

def route (method path : Text) (clen : ℕ) (s : Stream) : Program Reply :=
  if trimSlashes path = "/v1/exec".toList then
    if method = POST then handlePostExec H cfg parse clen s else pure methodNotAllowed
  else
    match Cache.afterStart "/v1/blobs/".toList path with
    | some rest => blobs H cfg method rest clen s
    | none =>
      match Cache.afterStart "/v1/actions/".toList path with
      | some rest => actions cfg method rest clen s
      | none => pure (writeText 404 "not_found\n")

/-- The words of the first line. -/
def requestWords (line : Text) : List Text :=
  splitWhitespace (line.rdropWhile fun c => c = '\n' || c = '\r')

def respond (line : Text) (headers : List (Text × Text)) (s : Stream) : Program Reply :=
  let method := (requestWords line)[0]?.getD []
  let path := (requestWords line)[1]?.getD []
  let clen := ((headers.lookup "content-length".toList).bind (parseUnsigned (U64_MAX + 1))).getD 0
  if method = PUT ∨ method = POST then
    if cfg.readOnly then pure (writeText 403 "read_only\n")
    else if !authOk headers cfg.requireBearer then pure (writeText 403 "forbidden\n")
    else route H parse cfg method path clen s
  else route H parse cfg method path clen s

def handleOne (s : Stream) : Program Reply :=
  match s.readLine with
  | .error _ => pure .dropped
  | .ok (line, s) =>
    if line = [] then pure .dropped
    else
      match eachHeader putHeader [] s with
      | .error _ => pure .dropped
      | .ok (headers, s) => respond H parse cfg line headers s

end

end Redo.Remote.Requests
