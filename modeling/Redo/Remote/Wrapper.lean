import Mathlib.Data.Int.Notation
import Redo.Remote.Json

/-! # The wrapper that runs a recipe remotely

The wrapper runs the recipe itself when no server is configured, when the execution cannot
be requested or fails, and when no manifest comes back. Every other error ends it with 201,
also where the recipe would have succeeded; and what it does not take for an error, a panic or
an answer that never ends, it hands on to the builder.
-/
namespace Redo.Remote

/-- What one line of the builder asks the wrapper to do. -/
structure Job where
  out : Text
  depsOut0 : Text
  traceOut0 : Text
  remoteOk : Text
  cwdRel : Text
  targetRel : Text
  tmpRel : Text
  inputs : List Text
  command : Text
  arguments : List Text
deriving DecidableEq, Repr

structure Args where
  out : Option Text := none
  depsOut0 : Option Text := none
  traceOut0 : Option Text := none
  remoteOk : Option Text := none
  cwdRel : Text := []
  targetRel : Text := []
  tmpRel : Text := []
  inputs : List Text := []
  argv : List Text := []
deriving DecidableEq, Repr

/-- The options that take a value. -/
def Args.set (a : Args) (option value : Text) : Option Args :=
  if option = "--out".toList then some { a with out := some value }
  else if option = "--deps-out0".toList then some { a with depsOut0 := some value }
  else if option = "--trace-out0".toList then some { a with traceOut0 := some value }
  else if option = "--remote-ok".toList then some { a with remoteOk := some value }
  else if option = "--cwd-rel".toList then some { a with cwdRel := value }
  else if option = "--target-rel".toList then some { a with targetRel := value }
  else if option = "--tmp-rel".toList then some { a with tmpRel := value }
  else if option = "--input".toList then some { a with inputs := a.inputs ++ [value] }
  else none

/-- `none` for `--help`; what is no option is skipped. -/
def parseArgs (a : Args) : List Text → Option Args
  | [] => some a
  | [option] =>
    match a.set option [] with
    | some a' => some a'
    | none => if option = "--help".toList ∨ option = "-h".toList then none else some a
  | option :: value :: rest =>
    match a.set option value with
    | some a' => parseArgs a' rest
    | none =>
      if option = "--help".toList ∨ option = "-h".toList then none
      else if option = "--".toList then some { a with argv := a.argv ++ value :: rest }
      else parseArgs a (value :: rest)

/-- The command line as the builder writes it. -/
def Job.commandLine (j : Job) : List Text :=
  ["--out".toList, j.out, "--deps-out0".toList, j.depsOut0, "--trace-out0".toList, j.traceOut0,
    "--remote-ok".toList, j.remoteOk, "--cwd-rel".toList, j.cwdRel, "--target-rel".toList,
    j.targetRel, "--tmp-rel".toList, j.tmpRel] ++
  (j.inputs.flatMap (fun i => ["--input".toList, i]) ++
    "--".toList :: j.command :: j.arguments)

def Job.args (j : Job) : Args where
  out := some j.out
  depsOut0 := some j.depsOut0
  traceOut0 := some j.traceOut0
  remoteOk := some j.remoteOk
  cwdRel := j.cwdRel
  targetRel := j.targetRel
  tmpRel := j.tmpRel
  inputs := j.inputs
  argv := j.command :: j.arguments

structure ExecInput where
  path : Text
  sha256 : Text
  mode : ℕ
deriving DecidableEq, Repr

structure ExecRequest where
  schema : Text
  argv : List Text
  cwdRel : Text
  targetRel : Text
  tmpRel : Text
  depsOut0Rel : Text
  traceOut0Rel : Text
  inputs : List ExecInput
deriving DecidableEq, Repr

structure ExecResponse where
  schema : Text
  exitCode : ℤ
  outputManifestSha256 : Option Text
  depsSha256 : Option Text
  traceSha256 : Option Text
deriving DecidableEq, Repr

/-- The ends of a call that returns nothing: an error, a panic (a length in the answer that no
buffer can have), a signal (no memory for the answer), or no end at all (the time limit is for
one read, and a server can go on sending bytes). -/
inductive Stop where
  | error
  | panic
  | killed (signal : ℕ) (pos : 0 < signal)
  | endless
deriving DecidableEq, Repr

/-- The answer to the request for the artifact: `stop` when the connection or the local file
fails on the way. -/
structure Streamed (Body : Type*) where
  status : ℕ
  chunked : Bool
  body : Body
  stop : Option Stop

/-- The end of the recipe's own process, with the `$3` that it leaves. -/
inductive LocalRun (Body : Type*) where
  | unstartable
  | exited (code : ℤ) (out : Option Body)
  | killed (signal : ℕ) (out : Option Body)
  | endless

/-- What the wrapper finds: the environment, the local files, how the server and the network
answer each request, and what the recipe does when it is run here (under `redo-trace` or
not) from the `$3` that it finds. -/
structure World (Body : Type*) where
  redoStrict : Text
  configured : Bool
  lstat : Text → Option (Bool × ℕ)
  sha256FileHex : Text → Option Text
  putBlobFromFile : Text → Text → Except Stop ℕ
  underBase : Text → Option Text
  postExec : ExecRequest → Except Stop (ℕ × Option ExecResponse)
  getDeps : Except Stop (ℕ × Body)
  getTrace : Except Stop (ℕ × Body)
  getManifest : Except Stop (ℕ × Body)
  download : Except Stop (Streamed Body)
  canMakeDir : Text → Bool
  canWrite : Text → Bool
  runHere : Bool → Option Body → LocalRun Body

/-- The files that the process leaves. -/
structure Outputs (Body : Type*) where
  out : Option Body
  deps : Option Body
  trace : Option Body
  remoteOk : Option Body
  /-- Whether the recipe has been started here. -/
  ranHere : Bool

variable {Body : Type*} (H : Hashing Body)

/-- A flag of the environment. -/
def flagOf (value : Text) : Bool := !(trim value).isEmpty && trim value != "0".toList

def World.strict (w : World Body) : Bool := flagOf w.redoStrict

def World.here (w : World Body) (o : Outputs Body) : LocalRun Body := w.runHere w.strict o.out

/-- The original command, run here. -/
def fallback (w : World Body) (o : Outputs Body) : Except Stop ℤ × Outputs Body :=
  match w.here o with
  | .unstartable => (.error .error, o)
  | .exited code out => (.ok code, { o with out := out, ranHere := true })
  | .killed _ out => (.ok 201, { o with out := out, ranHere := true })
  | .endless => (.error .endless, { o with ranHere := true })

def World.uploadInput (w : World Body) (rel : Text) : Except Stop ExecInput :=
  match w.lstat rel with
  | some (true, mode) =>
    match w.sha256FileHex rel with
    | some sha =>
      match w.putBlobFromFile sha rel with
      | .ok status =>
        if status = 200 ∨ status = 201 ∨ status = 204 then
          .ok { path := rel, sha256 := sha, mode := mode % 512 }
        else .error .error
      | .error stop => .error stop
    | none => .error .error
  | _ => .error .error

/-- Every input once, up to the first that cannot be read or uploaded. -/
def uploadInputs (w : World Body) (seen : List Text) : List Text → Except Stop (List ExecInput)
  | [] => .ok []
  | rel :: rest =>
    if trim rel = [] ∨ trim rel ∈ seen then uploadInputs w seen rest
    else
      match w.uploadInput (trim rel) with
      | .error stop => .error stop
      | .ok input => (uploadInputs w (trim rel :: seen) rest).map (input :: ·)

def execV1 : Except Stop (ℕ × Option ExecResponse) → Except Stop ExecResponse
  | .error stop => .error stop
  | .ok (200, some resp) =>
    if resp.schema = "redo-remote-exec-result:v1".toList then .ok resp else .error .error
  | .ok _ => .error .error

def getBlobBytesVerified (answer : Except Stop (ℕ × Body)) (sha256 : Text) : Except Stop Body :=
  match answer with
  | .ok (status, body) => if status = 200 ∧ H.sha body = sha256 then .ok body else .error .error
  | .error stop => .error stop

/-- Whether the blob has arrived, and the file that is left. -/
def downloadBlobToFileVerified (sha256 : Text) : Except Stop (Streamed Body) → Except Stop Unit × Option Body
  | .error stop => (.error stop, none)
  | .ok a =>
    if a.status ≠ 200 ∨ a.chunked then (.error .error, none)
    else
      match a.stop with
      | some stop => (.error stop, some a.body)
      | none => if H.sha a.body = sha256 then (.ok (), some a.body) else (.error .error, none)

/-- A file of dependencies or of the trace. A file that the server does not name is written as
far as possible. -/
def fetchLog (w : World Body) (path : Text) (answer : Except Stop (ℕ × Body)) (missing : Body)
    (old : Option Body) : Option Text → Except Stop (Option Body)
  | some hex =>
    match getBlobBytesVerified H answer hex with
    | .ok body => if w.canWrite path then .ok (some body) else .error .error
    | .error stop => .error stop
  | none => .ok (if w.canWrite path then some missing else old)

/-- The manifest that the server answers, if it has the digest and parses. -/
def World.manifest (w : World Body) (man : Text) : Except Stop ArtifactManifest :=
  match getBlobBytesVerified H w.getManifest man with
  | .error stop => .error stop
  | .ok body =>
    match parseArtifactManifestV1 (H.text body) with
    | none => .error .error
    | some m => .ok m

def fetchOutput (w : World Body) (out man : Text) (o : Outputs Body) :
    Except Stop ℤ × Outputs Body :=
  match w.manifest H man with
  | .error stop => (.error stop, o)
  | .ok m =>
    if w.canMakeDir out then
      match downloadBlobToFileVerified H m.blobSha256 w.download with
      | (.ok _, file) => (.ok 0, { o with out := file })
      | (.error stop, file) => (.error stop, { o with out := file })
    else (.error .error, o)

def fetchDeps (w : World Body) (depsOut0 : Text) (resp : ExecResponse) (o : Outputs Body) :
    Except Stop (Option Body) :=
  fetchLog H w depsOut0 w.getDeps (H.bytes []) o.deps resp.depsSha256

def fetchTrace (w : World Body) (traceOut0 : Text) (resp : ExecResponse) (o : Outputs Body) :
    Except Stop (Option Body) :=
  fetchLog H w traceOut0 w.getTrace (H.bytes "TRACE_UNAVAILABLE:missing_trace\x00".toList) o.trace
    resp.traceSha256

/-- What follows a remote execution that ended with 0. -/
def collect (w : World Body) (out depsOut0 traceOut0 : Text) (remoteOk : Option Text)
    (resp : ExecResponse) (o : Outputs Body) : Except Stop ℤ × Outputs Body :=
  match fetchDeps H w depsOut0 resp o with
  | .error stop => (.error stop, o)
  | .ok deps =>
    match fetchTrace H w traceOut0 resp o with
    | .error stop => (.error stop, { o with deps := deps })
    | .ok trace =>
      match resp.outputManifestSha256 with
      | none => fallback w { o with deps := deps, trace := trace }
      | some man =>
        let ok := match remoteOk with
          | some path => if w.canWrite path then some (H.bytes "ok\n".toList) else o.remoteOk
          | none => o.remoteOk
        fetchOutput H w out man { o with deps := deps, trace := trace, remoteOk := ok }

def execRequest (a : Args) (inputs : List ExecInput) (depsOut0Rel traceOut0Rel : Text) :
    ExecRequest where
  schema := "redo-remote-exec:v1".toList
  argv := a.argv
  cwdRel := a.cwdRel
  targetRel := a.targetRel
  tmpRel := a.tmpRel
  depsOut0Rel := depsOut0Rel
  traceOut0Rel := traceOut0Rel
  inputs := inputs

def realMain (w : World Body) (cmdline : List Text) (o : Outputs Body) :
    Except Stop ℤ × Outputs Body :=
  match parseArgs {} cmdline with
  | none => (.ok 0, o)
  | some a =>
    match a.out, a.depsOut0, a.traceOut0 with
    | some out, some depsOut0, some traceOut0 =>
      if a.cwdRel = [] ∨ a.targetRel = [] ∨ a.tmpRel = [] then (.error .error, o)
      else if a.argv = [] then (.error .error, o)
      else if !w.configured then fallback w o
      else
        match uploadInputs w [] a.inputs with
        | .error stop => (.error stop, o)
        | .ok inputs =>
          match w.underBase depsOut0, w.underBase traceOut0 with
          | some depsOut0Rel, some traceOut0Rel =>
            match execV1 (w.postExec (execRequest a inputs depsOut0Rel traceOut0Rel)) with
            | .error stop => if stop = .error then fallback w o else (.error stop, o)
            | .ok resp =>
              if resp.exitCode ≠ 0 then fallback w o
              else collect H w out depsOut0 traceOut0 a.remoteOk resp o
          | _, _ => (.error .error, o)
    | _, _, _ => (.error .error, o)

/-- What the builder sees of the process at its end, which may never come: a signal is a negative
code. -/
def Stop.seen (file : Option Body) : Stop → Option (ℤ × Option Body)
  | .error => some (201, file)
  | .panic => some (101, file)
  | .killed signal _ => some (-signal, file)
  | .endless => none

def mainExit (w : World Body) (cmdline : List Text) (o : Outputs Body) : Option (ℤ × Option Body) :=
  match realMain H w cmdline o with
  | (.ok code, o') => some (code, o'.out)
  | (.error stop, o') => stop.seen o'.out

theorem parseArgs_inputs (a : Args) (inputs : List Text) (command : Text) (arguments : List Text) :
    parseArgs a (inputs.flatMap (fun i => ["--input".toList, i]) ++
      "--".toList :: command :: arguments) =
    some { a with inputs := a.inputs ++ inputs, argv := a.argv ++ command :: arguments } := by
  induction inputs generalizing a with
  | nil =>
    rw [List.append_nil]
    rfl
  | cons i inputs ih =>
    have hset : a.set "--input".toList i = some { a with inputs := a.inputs ++ [i] } := rfl
    simp only [List.flatMap_cons, List.cons_append, List.nil_append, parseArgs, hset]
    rw [ih]
    simp

/-- The wrapper reads back what the builder writes. -/
theorem parseArgs_commandLine (j : Job) : parseArgs {} j.commandLine = some j.args := by
  have hinputs := parseArgs_inputs { j.args with inputs := [], argv := [] } j.inputs j.command
    j.arguments
  exact hinputs

/-- What the builder sees when it starts the recipe itself: 99 from a child that cannot be another
program. -/
def LocalRun.seen (old : Option Body) : LocalRun Body → Option (ℤ × Option Body)
  | .unstartable => some (99, old)
  | .exited code out => some (code, out)
  | .killed signal out => some (-signal, out)
  | .endless => none

def World.ending (w : World Body) (o : Outputs Body) : Option (ℤ × Option Body) := (w.here o).seen o.out

/-- The recipe ends with a code, if it ends: no signal, and it can be started. -/
def LocalRun.Plain : LocalRun Body → Prop
  | .exited _ _ | .endless => True
  | _ => False

/-- The request as it is sent. -/
def World.request (w : World Body) (j : Job) : ExecRequest :=
  execRequest j.args ((uploadInputs w [] j.inputs).toOption.getD []) ((w.underBase j.depsOut0).getD [])
    ((w.underBase j.traceOut0).getD [])

/-- The remote execution has ended well, and `resp` is its answer. -/
structure World.Succeeds (w : World Body) (j : Job) (resp : ExecResponse) : Prop where
  answer : execV1 (w.postExec (w.request j)) = .ok resp
  exitCode : resp.exitCode = 0

/-- The process returns 0 with the verified output of a successful remote execution, or ends
as the recipe does when the builder runs it. -/
def Faithful (w : World Body) (j : Job) (o : Outputs Body) (r : Option (ℤ × Option Body)) : Prop :=
  (∃ resp man m body, w.Succeeds j resp ∧ resp.outputManifestSha256 = some man ∧
    w.manifest H man = .ok m ∧ H.sha body = m.blobSha256 ∧ r = some (0, some body)) ∨
  r = w.ending o

structure Job.Named (j : Job) : Prop where
  cwdRel : j.cwdRel ≠ []
  targetRel : j.targetRel ≠ []
  tmpRel : j.tmpRel ≠ []

/-- A server is asked. -/
structure World.Asks (w : World Body) (j : Job) : Prop where
  named : j.Named
  configured : w.configured

/-- Each of the inputs is a file that can be read and uploaded. -/
def World.Uploads (w : World Body) (inputs : List Text) : Prop :=
  ∀ rel ∈ inputs, trim rel ≠ [] → ∃ input, w.uploadInput (trim rel) = .ok input

/-- Everything before the request. -/
structure World.Sends (w : World Body) (j : Job) : Prop extends w.Asks j where
  inputs : w.Uploads j.inputs
  depsOut0 : (w.underBase j.depsOut0).isSome
  traceOut0 : (w.underBase j.traceOut0).isSome

/-- The server names an output of a successful execution, and the logs have come. -/
structure World.Delivers (w : World Body) (j : Job) (o : Outputs Body) (resp : ExecResponse) (man : Text) :
    Prop extends w.Sends j, w.Succeeds j resp where
  deps : ∃ file, fetchDeps H w j.depsOut0 resp o = .ok file
  trace : ∃ file, fetchTrace H w j.traceOut0 resp o = .ok file
  named_output : resp.outputManifestSha256 = some man

/-- The steps that have no way back to the recipe, in their order: how the process ends when one of
them fails, and the `$3` that is there then. -/
inductive World.Breaks (w : World Body) (j : Job) (o : Outputs Body) : Stop → Option Body → Prop
  | unnamed (h : ¬j.Named) : w.Breaks j o .error o.out
  | input {before after : List Text} {rel : Text} {stop : Stop} (asks : w.Asks j)
      (split : j.inputs = before ++ rel :: after) (uploads : w.Uploads before) (ne : trim rel ≠ [])
      (h : w.uploadInput (trim rel) = .error stop) : w.Breaks j o stop o.out
  | outside (asks : w.Asks j) (uploads : w.Uploads j.inputs)
      (h : w.underBase j.depsOut0 = none ∨ w.underBase j.traceOut0 = none) : w.Breaks j o .error o.out
  /-- An error of the request is the one that leads to a local run. -/
  | request {stop : Stop} (sends : w.Sends j) (h : w.postExec (w.request j) = .error stop)
      (ne : stop ≠ .error) : w.Breaks j o stop o.out
  | deps {resp : ExecResponse} {stop : Stop} (sends : w.Sends j) (succeeds : w.Succeeds j resp)
      (h : fetchDeps H w j.depsOut0 resp o = .error stop) : w.Breaks j o stop o.out
  | trace {resp : ExecResponse} {file : Option Body} {stop : Stop} (sends : w.Sends j)
      (succeeds : w.Succeeds j resp) (deps : fetchDeps H w j.depsOut0 resp o = .ok file)
      (h : fetchTrace H w j.traceOut0 resp o = .error stop) : w.Breaks j o stop o.out
  | manifest {resp : ExecResponse} {man : Text} {stop : Stop} (delivers : w.Delivers H j o resp man)
      (h : w.manifest H man = .error stop) : w.Breaks j o stop o.out
  | dir {resp : ExecResponse} {man : Text} {m : ArtifactManifest} (delivers : w.Delivers H j o resp man)
      (manifest : w.manifest H man = .ok m) (h : w.canMakeDir j.out = false) : w.Breaks j o .error o.out
  | download {resp : ExecResponse} {man : Text} {m : ArtifactManifest} {stop : Stop} {file : Option Body}
      (delivers : w.Delivers H j o resp man) (manifest : w.manifest H man = .ok m)
      (dir : w.canMakeDir j.out = true)
      (h : downloadBlobToFileVerified H m.blobSha256 w.download = (.error stop, file)) :
      w.Breaks j o stop file

/-- The server is asked, and names an output of a successful execution. -/
def World.Answered (w : World Body) (j : Job) : Prop :=
  w.configured = true ∧ ∃ resp, w.Succeeds j resp ∧ resp.outputManifestSha256.isSome

section
variable {H} {w : World Body} {j : Job} {o o' : Outputs Body} {stop : Stop} {resp : ExecResponse}

/-- An input that can be uploaded, or has been, is followed by the others. -/
theorem uploadInputs_cons {seen rest : List Text} {rel : Text}
    (hseen : ∀ rel ∈ seen, ∃ input, w.uploadInput rel = .ok input)
    (hrel : trim rel ≠ [] → ∃ input, w.uploadInput (trim rel) = .ok input) :
    ∃ seen' more, (∀ rel ∈ seen', ∃ input, w.uploadInput rel = .ok input) ∧
      uploadInputs w seen (rel :: rest) = (uploadInputs w seen' rest).map more := by
  by_cases hskip : trim rel = [] ∨ trim rel ∈ seen
  · refine ⟨seen, id, hseen, ?_⟩
    rw [uploadInputs, if_pos hskip]
    cases uploadInputs w seen rest <;> rfl
  · obtain ⟨input, hinput⟩ := hrel fun hnil => hskip (.inl hnil)
    refine ⟨trim rel :: seen, (input :: ·), ?_, ?_⟩
    · simpa only [List.forall_mem_cons] using And.intro ⟨input, hinput⟩ hseen
    · rw [uploadInputs, if_neg hskip, hinput]

theorem uploadInputs_ok {seen inputs : List Text} (hseen : ∀ rel ∈ seen, ∃ input, w.uploadInput rel = .ok input)
    (h : w.Uploads inputs) : ∃ sent, uploadInputs w seen inputs = .ok sent := by
  induction inputs generalizing seen with
  | nil => exact ⟨[], rfl⟩
  | cons rel rest ih =>
    obtain ⟨hrel, hrest⟩ := List.forall_mem_cons.mp h
    obtain ⟨seen', more, hseen', heq⟩ := @uploadInputs_cons _ w seen rest rel hseen hrel
    obtain ⟨sent, hsent⟩ := ih hseen' hrest
    exact ⟨more sent, by rw [heq, hsent]; rfl⟩

/-- The first input that fails ends it. -/
theorem uploadInputs_error {seen before after : List Text} {rel : Text}
    (hseen : ∀ rel ∈ seen, ∃ input, w.uploadInput rel = .ok input) (hbefore : w.Uploads before)
    (hne : trim rel ≠ []) (h : w.uploadInput (trim rel) = .error stop) :
    uploadInputs w seen (before ++ rel :: after) = .error stop := by
  induction before generalizing seen with
  | nil =>
    have hnew : trim rel ∉ seen := fun hmem => by
      obtain ⟨input, hok⟩ := hseen _ hmem
      rw [h] at hok
      cases hok
    rw [List.nil_append, uploadInputs, if_neg (by simp [hne, hnew]), h]
  | cons rel' before ih =>
    obtain ⟨hrel', hrest⟩ := List.forall_mem_cons.mp hbefore
    obtain ⟨seen', more, hseen', heq⟩ := @uploadInputs_cons _ w seen (before ++ rel :: after) rel' hseen hrel'
    rw [List.cons_append, heq, ih hseen' hrest]
    rfl

/-- All inputs can be uploaded, or one is the first that cannot. -/
theorem uploads_or_first (inputs : List Text) : w.Uploads inputs ∨
    ∃ before rel after stop, inputs = before ++ rel :: after ∧ w.Uploads before ∧ trim rel ≠ [] ∧
      w.uploadInput (trim rel) = .error stop := by
  induction inputs with
  | nil => exact .inl fun rel hrel => absurd hrel List.not_mem_nil
  | cons rel rest ih =>
    by_cases hnil : trim rel = []
    · rcases ih with hall | ⟨before, rel', after, stop, rfl, hbefore, h⟩
      · exact .inl (List.forall_mem_cons.mpr ⟨fun hne => absurd hnil hne, hall⟩)
      · exact .inr ⟨rel :: before, rel', after, stop, rfl,
          List.forall_mem_cons.mpr ⟨fun hne => absurd hnil hne, hbefore⟩, h⟩
    · cases hup : w.uploadInput (trim rel) with
      | error stop =>
        exact .inr ⟨[], rel, rest, stop, rfl, fun rel' hmem => absurd hmem List.not_mem_nil, hnil, hup⟩
      | ok input =>
        rcases ih with hall | ⟨before, rel', after, stop, rfl, hbefore, h⟩
        · exact .inl (List.forall_mem_cons.mpr ⟨fun _ => ⟨input, hup⟩, hall⟩)
        · exact .inr ⟨rel :: before, rel', after, stop, rfl,
            List.forall_mem_cons.mpr ⟨fun _ => ⟨input, hup⟩, hbefore⟩, h⟩

theorem World.Succeeds.unique {resp' : ExecResponse} (h : w.Succeeds j resp) (h' : w.Succeeds j resp') :
    resp = resp' :=
  Except.ok.inj (h.answer.symm.trans h'.answer)

theorem execV1_error {answer : Except Stop (ℕ × Option ExecResponse)} (h : execV1 answer = .error stop)
    (hne : stop ≠ .error) : answer = .error stop := by
  cases answer with
  | error stop' =>
    cases h
    rfl
  | ok answer =>
    refine absurd ?_ hne
    unfold execV1 at h
    split at h
    · next heq => cases heq
    · split at h
      · cases h
      · cases h
        rfl
    · cases h
      rfl

theorem downloadBlobToFileVerified_sha {sha256 : Text} {answer : Except Stop (Streamed Body)}
    {file : Option Body} (h : downloadBlobToFileVerified H sha256 answer = (.ok (), file)) :
    ∃ body, file = some body ∧ H.sha body = sha256 := by
  unfold downloadBlobToFileVerified at h
  grind

end

/-- The wrapper reads back what the builder writes, and goes on with it. -/
theorem realMain_commandLine (w : World Body) (j : Job) (o : Outputs Body) :
    realMain H w j.commandLine o =
      if j.cwdRel = [] ∨ j.targetRel = [] ∨ j.tmpRel = [] then (.error .error, o)
      else if !w.configured then fallback w o
      else
        match uploadInputs w [] j.inputs with
        | .error stop => (.error stop, o)
        | .ok inputs =>
          match w.underBase j.depsOut0, w.underBase j.traceOut0 with
          | some deps, some trace =>
            match execV1 (w.postExec (execRequest j.args inputs deps trace)) with
            | .error stop => if stop = .error then fallback w o else (.error stop, o)
            | .ok resp =>
              if resp.exitCode ≠ 0 then fallback w o
              else collect H w j.out j.depsOut0 j.traceOut0 (some j.remoteOk) resp o
          | _, _ => (.error .error, o) := by
  rw [realMain, parseArgs_commandLine]
  rfl

section
variable {H} {w : World Body} {j : Job} {o o' : Outputs Body} {stop : Stop} {resp : ExecResponse}
variable {man : Text}

theorem World.Asks.main (h : w.Asks j) : realMain H w j.commandLine o =
    match uploadInputs w [] j.inputs with
    | .error stop => (.error stop, o)
    | .ok inputs =>
      match w.underBase j.depsOut0, w.underBase j.traceOut0 with
      | some deps, some trace =>
        match execV1 (w.postExec (execRequest j.args inputs deps trace)) with
        | .error stop => if stop = .error then fallback w o else (.error stop, o)
        | .ok resp =>
          if resp.exitCode ≠ 0 then fallback w o
          else collect H w j.out j.depsOut0 j.traceOut0 (some j.remoteOk) resp o
      | _, _ => (.error .error, o) := by
  rw [realMain_commandLine, if_neg (by simp [h.named.cwdRel, h.named.targetRel, h.named.tmpRel]),
    if_neg (by simp [h.configured])]

theorem World.Sends.main (h : w.Sends j) : realMain H w j.commandLine o =
    match execV1 (w.postExec (w.request j)) with
    | .error stop => if stop = .error then fallback w o else (.error stop, o)
    | .ok resp =>
      if resp.exitCode ≠ 0 then fallback w o
      else collect H w j.out j.depsOut0 j.traceOut0 (some j.remoteOk) resp o := by
  obtain ⟨sent, hsent⟩ := uploadInputs_ok (fun rel hmem => absurd hmem List.not_mem_nil) h.inputs
  obtain ⟨deps, hdeps⟩ := Option.isSome_iff_exists.mp h.depsOut0
  obtain ⟨trace, htrace⟩ := Option.isSome_iff_exists.mp h.traceOut0
  rw [h.toAsks.main]
  simp only [World.request, hsent, hdeps, htrace, Except.toOption, Option.getD_some]

theorem World.Succeeds.main (hsends : w.Sends j) (h : w.Succeeds j resp) :
    realMain H w j.commandLine o =
      collect H w j.out j.depsOut0 j.traceOut0 (some j.remoteOk) resp o := by
  rw [hsends.main, h.answer]
  simp [h.exitCode]

/-- What is left to do is to fetch the output. -/
theorem World.Delivers.main (h : w.Delivers H j o resp man) :
    ∃ o', (o'.out = o.out ∧ o'.ranHere = o.ranHere) ∧
      realMain H w j.commandLine o = fetchOutput H w j.out man o' := by
  obtain ⟨deps, hdeps⟩ := h.deps
  obtain ⟨trace, htrace⟩ := h.trace
  let ok := if w.canWrite j.remoteOk then some (H.bytes "ok\n".toList) else o.remoteOk
  refine ⟨{ o with deps := deps, trace := trace, remoteOk := ok }, ⟨rfl, rfl⟩, ?_⟩
  rw [h.toSucceeds.main h.toSends, collect, hdeps]
  simp only [htrace, h.named_output]
  rfl

/-- A step that fails without a way back ends the process. -/
theorem World.Breaks.ends {file : Option Body} (h : w.Breaks H j o stop file) :
    mainExit H w j.commandLine o = stop.seen file := by
  have hstop : ∀ o' : Outputs Body, realMain H w j.commandLine o = (.error stop, o') → o'.out = file →
      mainExit H w j.commandLine o = stop.seen file := fun o' hmain hout => by
    rw [mainExit, hmain, ← hout]
  cases h with
  | unnamed h =>
    refine hstop o ?_ rfl
    rw [realMain_commandLine, if_pos]
    by_contra hne
    simp only [not_or] at hne
    exact h ⟨hne.1, hne.2.1, hne.2.2⟩
  | input asks split uploads ne h =>
    refine hstop o ?_ rfl
    rw [asks.main, split, uploadInputs_error (fun rel hmem => absurd hmem List.not_mem_nil) uploads ne h]
  | outside asks uploads h =>
    obtain ⟨sent, hsent⟩ := uploadInputs_ok (fun rel hmem => absurd hmem List.not_mem_nil) uploads
    refine hstop o ?_ rfl
    rw [asks.main, hsent]
    rcases h with h | h
    · simp only [h]
    · cases hdeps : w.underBase j.depsOut0 <;> simp only [h]
  | request sends h ne =>
    refine hstop o ?_ rfl
    rw [sends.main, h]
    simp only [execV1, if_neg ne]
  | deps sends succeeds h =>
    refine hstop o ?_ rfl
    rw [succeeds.main sends, collect, h]
  | @trace resp file _ sends succeeds deps h =>
    refine hstop { o with deps := file } ?_ rfl
    rw [succeeds.main sends, collect, deps]
    simp only [h]
  | manifest delivers h =>
    obtain ⟨o', ⟨hout, -⟩, hmain⟩ := delivers.main
    refine hstop o' ?_ hout
    rw [hmain, fetchOutput, h]
  | dir delivers manifest h =>
    obtain ⟨o', ⟨hout, -⟩, hmain⟩ := delivers.main
    refine hstop o' ?_ hout
    rw [hmain, fetchOutput, manifest]
    simp [h]
  | download delivers manifest dir h =>
    obtain ⟨o', -, hmain⟩ := delivers.main
    refine hstop { o' with out := file } ?_ rfl
    rw [hmain, fetchOutput, manifest]
    simp only [dir, if_true, h]

theorem World.Delivers.answered (h : w.Delivers H j o resp man) : w.Answered j :=
  ⟨h.configured, resp, h.toSucceeds, by rw [h.named_output]; rfl⟩

/-- When the output can be fetched too, it is the one that the answer names. -/
theorem World.Delivers.ends (h : w.Delivers H j o resp man) (hno : ∀ stop file, ¬w.Breaks H j o stop file) :
    ∃ m body, w.manifest H man = .ok m ∧ H.sha body = m.blobSha256 ∧
      mainExit H w j.commandLine o = some (0, some body) ∧
      (realMain H w j.commandLine o).2.ranHere = o.ranHere := by
  obtain ⟨o', ⟨-, hran⟩, hmain⟩ := h.main
  cases hm : w.manifest H man with
  | error stop => exact absurd (.manifest h hm) (hno _ _)
  | ok m =>
    cases hdir : w.canMakeDir j.out with
    | false => exact absurd (.dir h hm hdir) (hno _ _)
    | true =>
      rcases hdown : downloadBlobToFileVerified H m.blobSha256 w.download with ⟨stop | _, file⟩
      · exact absurd (.download h hm hdir hdown) (hno _ _)
      · obtain ⟨body, rfl, hsha⟩ := downloadBlobToFileVerified_sha hdown
        have hfetch : realMain H w j.commandLine o = (.ok 0, { o' with out := some body }) := by
          rw [hmain, fetchOutput, hm]
          simp only [hdir, if_true, hdown]
        refine ⟨m, body, rfl, hsha, ?_, ?_⟩
        · rw [mainExit, hfetch]
        · rw [hfetch, hran]

/-- When no step fails that has no way back, the output comes or the recipe is run here. -/
theorem ends_of_not_breaks (hno : ∀ stop file, ¬w.Breaks H j o stop file) :
    (∃ resp man, w.Delivers H j o resp man) ∨
      ¬w.Answered j ∧ ∃ o', o'.out = o.out ∧ realMain H w j.commandLine o = fallback w o' := by
  have hnamed : j.Named := by
    by_contra h
    exact hno _ _ (.unnamed h)
  cases hc : w.configured with
  | false =>
    refine .inr ⟨fun h => by simp [World.Answered, hc] at h, o, rfl, ?_⟩
    rw [realMain_commandLine, if_neg (by simp [hnamed.cwdRel, hnamed.targetRel, hnamed.tmpRel]),
      if_pos (by simp [hc])]
  | true =>
    have hasks : w.Asks j := ⟨hnamed, hc⟩
    have huploads : w.Uploads j.inputs := by
      refine (uploads_or_first j.inputs).resolve_right ?_
      rintro ⟨before, rel, after, stop, hsplit, hbefore, hne, h⟩
      exact hno _ _ (.input hasks hsplit hbefore hne h)
    have hsends : w.Sends j := by
      refine ⟨hasks, huploads, Option.isSome_iff_ne_none.mpr fun h => ?_, Option.isSome_iff_ne_none.mpr fun h => ?_⟩
      · exact hno _ _ (.outside hasks huploads (.inl h))
      · exact hno _ _ (.outside hasks huploads (.inr h))
    have hlocal : ∀ {stop}, execV1 (w.postExec (w.request j)) = .error stop → stop = .error := fun h => by
      by_contra hne
      exact hno _ _ (.request hsends (execV1_error h hne) hne)
    cases hexec : execV1 (w.postExec (w.request j)) with
    | error stop =>
      refine .inr ⟨fun ⟨_, resp, h, _⟩ => ?_, o, rfl, ?_⟩
      · rw [h.answer] at hexec
        cases hexec
      · rw [hsends.main, hexec]
        simp only [hlocal hexec, if_true]
    | ok resp =>
      by_cases hcode : resp.exitCode = 0
      · have hs : w.Succeeds j resp := ⟨hexec, hcode⟩
        cases hdeps : fetchDeps H w j.depsOut0 resp o with
        | error stop => exact absurd (.deps hsends hs hdeps) (hno _ _)
        | ok deps =>
          cases htrace : fetchTrace H w j.traceOut0 resp o with
          | error stop => exact absurd (.trace hsends hs hdeps htrace) (hno _ _)
          | ok trace =>
            cases hman : resp.outputManifestSha256 with
            | some man => exact .inl ⟨resp, man, hsends, hs, ⟨deps, hdeps⟩, ⟨trace, htrace⟩, hman⟩
            | none =>
              refine .inr ⟨fun ⟨_, resp', h, hsome⟩ => ?_, { o with deps := deps, trace := trace }, rfl, ?_⟩
              · rw [h.unique hs, hman] at hsome
                cases hsome
              · rw [hs.main hsends, collect, hdeps]
                simp only [htrace, hman]
      · refine .inr ⟨fun ⟨_, resp', h, _⟩ => ?_, o, rfl, ?_⟩
        · have hsame := h.answer
          rw [hexec] at hsame
          exact hcode (Except.ok.inj hsame ▸ h.exitCode)
        · rw [hsends.main, hexec]
          simp [hcode]

/-- The wrapper hands on the code of a recipe that it runs, but for signals and for what cannot be
started, where it says 201. -/
theorem fallback_ends (hout : o'.out = o.out) (hmain : realMain H w j.commandLine o = fallback w o') :
    (mainExit H w j.commandLine o = w.ending o ↔ (w.here o).Plain) ∧
      ((w.here o).Plain ∨ ∃ file, mainExit H w j.commandLine o = some (201, file)) := by
  have hhere : w.here o' = w.here o := by rw [World.here, hout, World.here]
  rw [mainExit, hmain, fallback, hhere, World.ending]
  cases hrun : w.here o with
  | unstartable => simp [LocalRun.Plain, LocalRun.seen, Stop.seen]
  | exited code out => simp [LocalRun.Plain, LocalRun.seen]
  | endless => simp [LocalRun.Plain, LocalRun.seen, Stop.seen]
  | killed signal out =>
    have hne : (201 : ℤ) ≠ -signal := by omega
    simp [LocalRun.Plain, LocalRun.seen, hne]

theorem Stop.seen_ne_zero (stop : Stop) (file file' : Option Body) : stop.seen file ≠ some (0, file') := by
  intro h
  cases stop with
  | killed signal pos =>
    simp only [Stop.seen, Option.some.injEq, Prod.mk.injEq] at h
    omega
  | _ => simp [Stop.seen] at h

/-- Behind a code 0 there is the answer of a server, or the recipe has been run here. -/
theorem ranHere_of_zero {file : Option Body} (h : mainExit H w j.commandLine o = some (0, file)) :
    w.Answered j ∧ (realMain H w j.commandLine o).2.ranHere = o.ranHere ∨
      ¬w.Answered j ∧ (realMain H w j.commandLine o).2.ranHere = true := by
  have hno : ∀ stop file, ¬w.Breaks H j o stop file := fun stop file' hbreaks =>
    stop.seen_ne_zero file' file (hbreaks.ends.symm.trans h)
  rcases ends_of_not_breaks hno with ⟨resp, man, hdelivers⟩ | ⟨hanswered, o', -, hmain⟩
  · obtain ⟨-, -, -, -, -, hran⟩ := hdelivers.ends hno
    exact .inl ⟨hdelivers.answered, hran⟩
  · refine .inr ⟨hanswered, ?_⟩
    rw [mainExit, hmain, fallback] at h
    rw [hmain, fallback]
    cases hrun : w.here o' with
    | unstartable =>
      rw [hrun] at h
      exact absurd h (Stop.seen_ne_zero .error _ _)
    | _ => rfl

end

theorem text_id (t : Text) : id (id t) = t := rfl

def plainHashing : Hashing Text where
  bytes := id
  text := id
  sha _ := List.replicate 64 'c'
  text_bytes := text_id
  sha_isDigest _ := by decide

/-- The server refuses the connection; the recipe itself would succeed. -/
def refused : World Text where
  redoStrict := []
  configured := true
  lstat _ := some (true, 0o644)
  sha256FileHex _ := some (List.replicate 64 'c')
  putBlobFromFile _ _ := .error .error
  underBase path := some path
  postExec _ := .error .error
  getDeps := .error .error
  getTrace := .error .error
  getManifest := .error .error
  download := .error .error
  canMakeDir _ := true
  canWrite _ := true
  runHere _ _ := .exited 0 (some "hello".toList)

def compileJob : Job where
  out := "sub/out.redo.tmp".toList
  depsOut0 := ".redo/remote/deps".toList
  traceOut0 := ".redo/trace/read".toList
  remoteOk := ".redo/remote/ok".toList
  cwdRel := "sub".toList
  targetRel := "sub/out".toList
  tmpRel := "sub/out.redo.tmp".toList
  inputs := ["sub/out.do".toList]
  command := "/bin/sh".toList
  arguments := ["-e".toList, "out.do".toList]

end Redo.Remote
