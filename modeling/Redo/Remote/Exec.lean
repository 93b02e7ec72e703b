import Redo.Cache.ReadTrace
import Redo.Remote.Storage
import Redo.Remote.Wrapper

/-! # Executions on the server

The command runs in a sandbox, but its outputs are collected by the server itself, along
paths of the request. They were checked before the run; the links that the command leaves
on them are followed on the host.
-/
namespace Redo.Remote
open Library Cache

def safeRelPath (p : Text) : Bool :=
  !isAbsolute p && (components p).all fun c =>
    match c with
    | .curDir => true
    | .normal _ => true
    | _ => false

/-- The answer to a request that is not carried out. -/
def ExecRequest.refused (req : ExecRequest) : Option Response :=
  if req.schema ≠ "redo-remote-exec:v1".toList then some ⟨400, "bad_schema\n".toList⟩
  else if req.argv = [] then some ⟨400, "missing_argv\n".toList⟩
  else if !safeRelPath req.cwdRel || !safeRelPath req.targetRel || !safeRelPath req.tmpRel ||
      !safeRelPath req.depsOut0Rel || !safeRelPath req.traceOut0Rel then
    some ⟨400, "bad_paths\n".toList⟩
  else if req.inputs.any fun i => i.sha256.length ≠ 64 || !isHex i.sha256 || !safeRelPath i.path then
    some ⟨400, "bad_input\n".toList⟩
  else none

def hop (part : Text) : Hop Text :=
  if part = [] then .slash
  else if part = ['.'] then .here
  else if part = ['.', '.'] then .up
  else .down part

/-- Slashes in a row count as one, and one at the end asks for a directory. -/
def relHops (rel : Text) : Path :=
  let parts := rel.splitOn '/'
  (parts.dropLast.filter (· ≠ [])).map hop ++ (parts.getLast?.map hop).toList

def relPath (work : List Text) (rel : Text) : Path := work.map .down ++ relHops rel

def Component.name : Component → Option Text
  | .normal name => some name
  | _ => none

/-- `Path::parent` -/
def relParent (work : List Text) (rel : Text) : List Text :=
  (work ++ (components rel).filterMap Component.name).dropLast

/-- What the sandbox gives back. -/
structure Ran where
  exitCode : ℕ
  stdout : Bytes
  stderr : Bytes
deriving DecidableEq, Repr

def Config.workHost (cfg : Config) (c : ℕ) : List Text :=
  cfg.root ++ ["exec".toList, Nat.toDigits 10 cfg.pid ++ '.' :: Nat.toDigits 10 c, "work".toList]

namespace Serve

/-- The standard output is written to the place of `$3`. -/
def writeStdout (work : List Text) (req : ExecRequest) (stdout : Bytes) : Serve Unit :=
  if stdout = [] then pure ()
  else do
    let _ ← createDirAll (relParent work req.tmpRel)
    let _ ← write (relPath work req.tmpRel) stdout
    pure ()

/-- What stands in the place of `$3` becomes the target; else there is none. -/
def moveOutput (work : List Text) (req : ExecRequest) : Serve Unit := do
  if ← pathExists (relPath work req.tmpRel) then do
    let _ ← createDirAll (relParent work req.targetRel)
    let _ ← rename (relPath work req.tmpRel) (relPath work req.targetRel)
    pure ()
  else do
    let _ ← unlink (relPath work req.targetRel)
    pure ()

/-- The rules for `$3` and the standard output. -/
def produce (work : List Text) (req : ExecRequest) (ran : Ran) : Serve ℕ := do
  let tmpExists ← pathExists (relPath work req.tmpRel)
  if ran.exitCode ≠ 0 then pure ran.exitCode
  else if ran.stdout ≠ [] ∧ tmpExists then pure 207
  else do
    writeStdout work req ran.stdout
    moveOutput work req
    pure 0

section
variable (H : Hashing Bytes) (cfg : Config)

def ensureTrace (work : List Text) (req : ExecRequest) : Serve Unit := do
  let tracePath := relPath work req.traceOut0Rel
  if ← pathExists tracePath then pure ()
  else do
    let _ ← write tracePath (H.bytes "TRACE_UNAVAILABLE:missing_trace\x00".toList)
    pure ()

def collectFile (path : Path) : Serve (Option Text) := do
  match ← read path with
  | none => pure none
  | some content => storeBlobBytes H cfg content

def collectTarget (targetPath : Path) (finalExit : ℕ) : Serve (Option Text) := do
  if finalExit ≠ 0 then pure none
  else
    match ← metadata targetPath with
    | some (.file _ mode) =>
      match ← storeBlobFromFileCompute H cfg targetPath with
      | none => pure none
      | some (blobHex, size) =>
        storeBlobBytes H cfg
          (H.bytes (manifestJson { blobSha256 := blobHex, size := size, mode := mode &&& 0o777 }))
    | _ => pure none

def jsonOption : Option Text → Text
  | none => "null".toList
  | some hex => '"' :: (hex ++ ['"'])

structure Collected where
  finalExit : ℕ
  manifest : Option Text
  deps : Option Text
  trace : Option Text
  stdout : Option Text
  stderr : Option Text
deriving DecidableEq, Repr

def Collected.json (r : Collected) : Text :=
  "\x7b\"schema\":\"redo-remote-exec-result:v1\",\"exit_code\":".toList ++
    Nat.toDigits 10 r.finalExit ++ ",\"output_manifest_sha256\":".toList ++ jsonOption r.manifest ++
    ",\"deps_sha256\":".toList ++ jsonOption r.deps ++ ",\"trace_sha256\":".toList ++
    jsonOption r.trace ++ ",\"stdout_sha256\":".toList ++ jsonOption r.stdout ++
    ",\"stderr_sha256\":".toList ++ jsonOption r.stderr ++ "\x7d".toList

/-- What follows the run of the command. -/
def collectOutputs (work : List Text) (req : ExecRequest) (ran : Ran) : Serve Collected := do
  let finalExit ← produce work req ran
  ensureTrace H work req
  let stdout ← storeBlobBytes H cfg ran.stdout
  let stderr ← storeBlobBytes H cfg ran.stderr
  let deps ← collectFile H cfg (relPath work req.depsOut0Rel)
  let trace ← collectFile H cfg (relPath work req.traceOut0Rel)
  let manifest ← collectTarget H cfg (relPath work req.targetRel) finalExit
  pure { finalExit, manifest, deps, trace, stdout, stderr }

def handlePostExec (work : List Text) (req : ExecRequest) (ran : Ran) : Serve Response := do
  match req.refused with
  | some response => pure response
  | none =>
    let result ← collectOutputs H cfg work req ran
    pure ⟨200, result.json⟩

end

end Serve

/-- A toy digest with UTF-8 texts. -/
def summing : Hashing Bytes where
  bytes t := t.flatMap String.utf8EncodeChar
  text b := (b.toByteArray.utf8Decode?.getD #[]).toList
  sha b := List.replicate 64 (Nat.digitChar (b.foldl (fun n x => 31 * n + x.toNat) 7 % 16))
  text_bytes t := by
    have h : (t.flatMap String.utf8EncodeChar).toByteArray = t.utf8Encode := rfl
    rw [h, List.utf8Decode?_utf8Encode]
    rfl
  sha_isDigest b := by
    have h : ∀ n < 16, isDigest (List.replicate 64 (Nat.digitChar n)) := by decide
    exact h _ (Nat.mod_lt _ (by decide))

def cacheServer : Config where
  root := ["srv".toList]
  pid := 1
  newMode := 0o644

def compile : ExecRequest where
  schema := "redo-remote-exec:v1".toList
  argv := ["sh".toList]
  cwdRel := ['.']
  targetRel := "out".toList
  tmpRel := "tmp".toList
  depsOut0Rel := "deps".toList
  traceOut0Rel := "trace".toList
  inputs := []

/-- A server with a secret, after a command that has left some entries. -/
def server (secret : Bytes) (left : List (List Text × Node Text UInt8)) : Host where
  tree := (Tree.ofEntries
    (left.map (fun entry => (cacheServer.workHost 0 ++ entry.1, entry.2)) ++
      [([], .dir), (["srv".toList], .dir), (["srv".toList, "exec".toList], .dir),
        (["srv".toList, "exec".toList, "1.0".toList], .dir), (cacheServer.workHost 0, .dir),
        (["etc".toList], .dir)])).put ["etc".toList, "shadow".toList] (.file secret 0o600)
  counter := 1

end Redo.Remote
