import Redo.Remote.Requests

/-! # Requests that may not write

Any number of connections are served at once, call by call, and around the server anything may
happen. A request that may not write, or that only asks, changes nothing in any of its calls.
-/
namespace Redo.Remote.Requests
open Library Relation Downloads

/-- A connection that is served: what comes over it, and what is left to do. -/
inductive Thread where
  | idle
  | serving (s : Stream) (p : Program Reply)

/-- What the sandbox does to the host is not known. -/
abbrev Sandbox := List Text → ExecRequest → Host → Launched → Host → Prop

inductive Performs (cfg : Config) (sandbox : Sandbox) :
    (op : Call) → Host → op.Answer → Host → Prop
  | file (op : FileOp) (m : Host) :
    Performs cfg sandbox (.file op) m (op.act cfg m).answer (op.act cfg m).after
  | fileFailed {op : FileOp} {a : op.Answer} (h : op.failure = some a) (m : Host) :
    Performs cfg sandbox (.file op) m a m
  | partly (p : Path) (part rest : Bytes) (m : Host) :
    Performs cfg sandbox (.file (.append p (part ++ rest))) m false
      ((FileOp.append p part).act cfg m).after
  | setPermissions (p : Path) (mode : ℕ) (m : Host) :
    Performs cfg sandbox (.setPermissions p mode) m (Host.onTree (Kernel.setMode p mode) m).answer
      (Host.onTree (Kernel.setMode p mode) m).after
  | setPermissionsFailed (p : Path) (mode : ℕ) (m : Host) :
    Performs cfg sandbox (.setPermissions p mode) m false m
  | removeDirAll (p : Path) (m : Host) :
    Performs cfg sandbox (.removeDirAll p) m (Host.onTree (Kernel.removeAll p) m).answer
      (Host.onTree (Kernel.removeAll p) m).after
  | removeDirAllFailed (p : Path) (m : Host) : Performs cfg sandbox (.removeDirAll p) m false m
  | bwrap {work : List Text} {req : ExecRequest} {m m' : Host} {l : Launched}
    (h : sandbox work req m l m') : Performs cfg sandbox (.bwrap work req) m l m'

/-- A handler may end at any time, and between the calls of the server others change files. -/
inductive Serves (H : Hashing Bytes) (parse : Bytes → Option ExecRequest) (cfg : ServerConfig)
    (sandbox : Sandbox) : Moves Host Thread
  | accept (m : Host) (s : Stream) :
    Serves H parse cfg sandbox m .idle m (.serving s (handleOne H parse cfg s))
  | call {m m' : Host} {s : Stream} {op : Call} {next : op.Answer → Program Reply} {a : op.Answer}
    (h : Performs cfg.toConfig sandbox op m a m') :
    Serves H parse cfg sandbox m (.serving s (.call op next)) m' (.serving s (next a))
  | stop (m : Host) (t : Thread) : Serves H parse cfg sandbox m t m .idle
  | around (m m' : Host) : Serves H parse cfg sandbox m .idle m' .idle

/-! ## What a request carries -/

/-- The lines up to the empty one. -/
def headLines (content : Bytes) : List Bytes :=
  if _h : (cutLine content).1 = [] ∨ (cutLine content).1 = [13, 10] then []
  else (cutLine content).1 :: headLines (cutLine content).2
termination_by content.length
decreasing_by exact length_cutLine fun hnil => _h (.inl hnil)

/-- Behind the first line of the request there is a header with the token. -/
def Carries (s : Stream) (tok : Text) : Prop :=
  ∃ bytes ∈ headLines (cutLine s.content).2, ∃ line k v, decode bytes = some line ∧
    splitOnce ':' line = some (k, v) ∧ toAsciiLowercase (trim k) = "authorization".toList ∧
      trim v = "Bearer ".toList ++ tok

def methodOf (s : Stream) : Option Text :=
  (decode (cutLine s.content).1).bind fun line => (requestWords line)[0]?

/-- The server is read-only, or the request lacks the token, or it is a GET. -/
def Harmless (cfg : ServerConfig) (s : Stream) : Prop :=
  cfg.readOnly = true ∨ (∃ tok, cfg.requireBearer = some tok ∧ ¬Carries s tok) ∨ methodOf s = some GET

theorem trim_trim (t : Text) : trim (trim t) = trim t := by
  have hstart : trimStart (trimEnd (trimStart t)) = trimEnd (trimStart t) := by
    cases htrim : trimEnd (trimStart t) with
    | nil => rfl
    | cons c rest =>
      obtain ⟨back, hback⟩ : c :: rest <+: trimStart t := by
        rw [← htrim]
        exact List.rdropWhile_prefix isSpace _
      have hhead := List.head?_dropWhile_not isSpace t
      have hsplit : t.dropWhile isSpace = c :: (rest ++ back) := hback.symm
      rw [hsplit] at hhead
      have hspace : isSpace c = false := by simpa using hhead
      exact List.dropWhile_cons_of_neg (by simp [hspace])
  have hend : ∀ x, trimEnd (trimEnd x) = trimEnd x := fun x => List.rdropWhile_idempotent isSpace x
  unfold trim
  rw [hstart, hend]

/-- A line of the head, read. -/
theorem readLine_head {s s' : Stream} {line : Text} (h : s.readLine = .ok (line, s')) (hnil : line ≠ [])
    (hend : line ≠ ['\r', '\n']) :
    decode (cutLine s.content).1 = some line ∧
      headLines s.content = (cutLine s.content).1 :: headLines s'.content := by
  unfold Stream.readLine at h
  dsimp only at h
  split_ifs at h with hfail
  split at h
  · cases h
  · next text hdecode =>
    cases h
    refine ⟨hdecode, ?_⟩
    have hbytes := encode_of_decode hdecode
    rw [headLines, dif_neg]
    rintro (hempty | hblank)
    · rw [hempty] at hdecode
      exact hnil (Option.some.inj hdecode).symm
    · rw [hblank] at hdecode
      exact hend (Option.some.inj (hdecode.symm.trans (by decide)))

/-- The headers that are found come from the lines of the head. -/
theorem eachHeader_mem {a headers : List (Text × Text)} {s s' : Stream}
    (h : eachHeader putHeader a s = .ok (headers, s')) {p : Text × Text} (hp : p ∈ headers) :
    p ∈ a ∨ ∃ bytes ∈ headLines s.content, ∃ line k v, decode bytes = some line ∧
      splitOnce ':' line = some (k, v) ∧ p = (toAsciiLowercase (trim k), trim v) := by
  fun_induction eachHeader putHeader a s with
  | case1 a s e hread => cases h
  | case2 a s s' hread =>
    cases h
    exact .inl hp
  | case3 a s s' hread =>
    cases h
    exact .inl hp
  | case4 a s line s' hread hnil hend hsplit ih =>
    obtain ⟨hdecode, hline⟩ := readLine_head hread hnil hend
    rcases ih h with hmem | ⟨bytes, hbytes, hrest⟩
    · exact .inl hmem
    · exact .inr ⟨bytes, by rw [hline]; exact List.mem_cons_of_mem _ hbytes, hrest⟩
  | case5 a s line s' hread hnil hend k v hsplit e hheader => cases h
  | case6 a s line s' hread hnil hend k v hsplit a' hheader ih =>
    obtain ⟨hdecode, hline⟩ := readLine_head hread hnil hend
    rw [hline]
    cases hheader
    rcases ih h with hmem | ⟨bytes, hbytes, hrest⟩
    · rcases List.mem_cons.mp hmem with rfl | hmem
      · exact .inr ⟨_, List.mem_cons_self, line, k, v, hdecode, hsplit, rfl⟩
      · exact .inl hmem
    · exact .inr ⟨bytes, List.mem_cons_of_mem _ hbytes, hrest⟩

theorem readLine_rest {s s' : Stream} {line : Text} (h : s.readLine = .ok (line, s')) :
    decode (cutLine s.content).1 = some line ∧ s'.content = (cutLine s.content).2 := by
  unfold Stream.readLine at h
  dsimp only at h
  split_ifs at h with hfail
  split at h
  · cases h
  · next text hdecode =>
    cases h
    exact ⟨hdecode, rfl⟩

/-- Only a request that carries the token is let through. -/
theorem carries_of_authOk {s s₁ s₂ : Stream} {line tok : Text} {headers : List (Text × Text)}
    (hline : s.readLine = .ok (line, s₁)) (hheaders : eachHeader putHeader [] s₁ = .ok (headers, s₂))
    (hok : authOk headers (some tok) = true) : Carries s tok := by
  rw [authOk, decide_eq_true_eq] at hok
  cases hfound : headers.lookup "authorization".toList with
  | none =>
    rw [hfound] at hok
    cases hok
  | some got =>
    rw [hfound, Option.map_some, Option.getD_some] at hok
    obtain ⟨l, l', hsplit, -⟩ := List.lookup_eq_some_iff.mp hfound
    have hmem : ("authorization".toList, got) ∈ headers := by
      rw [hsplit]
      exact List.mem_append_right l List.mem_cons_self
    rcases eachHeader_mem hheaders hmem with hnil | ⟨bytes, hbytes, text, k, v, hdecode, hcut, heq⟩
    · cases hnil
    · obtain ⟨hname, rfl⟩ := Prod.mk.inj heq
      rw [trim_trim] at hok
      rw [(readLine_rest hline).2] at hbytes
      exact ⟨bytes, hbytes, text, k, v, hdecode, hcut, hname.symm, hok⟩

/-! ## The handlers that only look -/

def Call.looks : Call → Prop
  | .file (.metadata _) => True
  | .file (.read _) => True
  | _ => False

abbrev Looks {α : Type} (p : Program α) : Prop := p.Only Call.looks

theorem looks_pure {α : Type} (a : α) : Looks (pure a : Program α) := trivial

theorem looks_notFound (p : Path) : Looks (lift (notFound p)) := by
  refine ⟨trivial, fun kind => ?_⟩
  cases kind with
  | none => exact looks_pure _
  | some kind => exact looks_pure _

section
variable {H : Hashing Bytes} {parse : Bytes → Option ExecRequest} {cfg : ServerConfig}

theorem looks_handleGetBlob (key : Text) : Looks (lift (handleGetBlob cfg key)) := by
  refine ⟨trivial, fun content => ?_⟩
  cases content with
  | none => exact looks_notFound _
  | some content => exact looks_pure _

theorem looks_handleGetAction (key : Text) : Looks (lift (handleGetAction cfg key)) := by
  refine ⟨trivial, fun content => ?_⟩
  cases content with
  | none => exact looks_notFound _
  | some content => exact looks_pure _

/-- A method that does not write leads to no handler that does. -/
theorem looks_route {method : Text} (hput : method ≠ PUT) (hpost : method ≠ POST) (path : Text)
    (clen : ℕ) (s : Stream) : Looks (route H parse cfg method path clen s) := by
  unfold route
  split_ifs with hexec
  · exact looks_pure _
  · split
    · unfold blobs
      dsimp only
      split_ifs with hkey hget
      · exact looks_pure _
      · exact looks_handleGetBlob _
      · exact looks_pure _
    · split
      · unfold actions
        dsimp only
        split_ifs with hkey hget
        · exact looks_pure _
        · exact looks_handleGetAction _
        · exact looks_pure _
      · exact looks_pure _

/-- The program of a request that may not write only looks. -/
theorem looks_handleOne {s : Stream} (h : Harmless cfg s) : Looks (handleOne H parse cfg s) := by
  unfold handleOne
  cases hline : s.readLine with
  | error e => exact looks_pure _
  | ok first =>
    obtain ⟨line, s₁⟩ := first
    dsimp only
    split_ifs with hnil
    · exact looks_pure _
    · cases hheaders : eachHeader putHeader [] s₁ with
      | error e => exact looks_pure _
      | ok second =>
        obtain ⟨headers, s₂⟩ := second
        dsimp only
        unfold respond
        dsimp only
        split_ifs with hwrites hreadOnly hauth
        · exact looks_pure _
        · exact looks_pure _
        · rcases h with honly | ⟨tok, hbearer, hlacks⟩ | hget
          · exact absurd honly hreadOnly
          · rw [hbearer] at hauth
            exact absurd (carries_of_authOk hline hheaders (by simpa using hauth)) hlacks
          · rw [methodOf, (readLine_rest hline).1, Option.bind_some] at hget
            rw [hget] at hwrites
            exact absurd hwrites (by decide)
        · obtain ⟨hput, hpost⟩ := not_or.mp hwrites
          exact looks_route hput hpost _ _ _

/-! ## Runs -/

variable {sandbox : Sandbox}

theorem Performs.host_eq {op : Call} {m m' : Host} {a : op.Answer}
    (h : Performs cfg.toConfig sandbox op m a m') (hlooks : op.looks) : m' = m := by
  cases h with
  | file op m =>
    cases op with
    | metadata p => simp [FileOp.act, Host.onTree, Kernel.metadata_after]
    | read p => simp [FileOp.act, Host.onTree, Kernel.read_after]
    | _ => cases hlooks
  | fileFailed => rfl
  | partly => cases hlooks
  | setPermissions => cases hlooks
  | setPermissionsFailed => cases hlooks
  | removeDirAll => cases hlooks
  | removeDirAllFailed => cases hlooks
  | bwrap => cases hlooks

/-- What is left of a request that may not write only looks. -/
def Thread.Calm (cfg : ServerConfig) : Host → Thread → Prop
  | _, .idle => True
  | _, .serving s p => Harmless cfg s → Looks p

theorem serves_keeps : Keeps (Serves H parse cfg sandbox) (fun _ => True) (Thread.Calm cfg) where
  shared _ _ _ := trivial
  own := by
    intro m t m' t' h _ hcalm
    cases h with
    | accept => exact fun hharmless => looks_handleOne hharmless
    | call hperforms => exact fun hharmless => (hcalm hharmless).2 _
    | stop => trivial
    | around => trivial
  others := by
    intro m t m' t' u _ _ _ hu
    cases u <;> exact hu

variable {ι : Type*} [DecidableEq ι] {c₀ c : Crowd ι Host Thread}

/-- In every run of any number of requests: no step of a request that may not write, or of a GET,
changes anything on the host. -/
theorem harmless_changes_nothing (hstart : ∀ i, c₀.threads i = .idle)
    (hrun : ReflTransGen (Crowd.Step (Serves H parse cfg sandbox)) c₀ c) {i : ι} {s : Stream}
    {p : Program Reply} (hserving : c.threads i = .serving s p) (hharmless : Harmless cfg s) {m : Host}
    {t : Thread} (hstep : Serves H parse cfg sandbox c.shared (c.threads i) m t) : m = c.shared := by
  have hinit : c₀.Holds (fun _ => True) (Thread.Calm cfg) :=
    ⟨trivial, fun j => by rw [hstart j]; trivial⟩
  have hcalm := (serves_keeps.run hinit hrun).threads i
  rw [hserving] at hstep hcalm
  cases hstep with
  | call hperforms => exact hperforms.host_eq (hcalm hharmless).1
  | stop => rfl

end

def guarded : ServerConfig where
  toConfig := cacheServer
  readOnly := false
  requireBearer := some "token".toList
  enableExec := true

/-- A request of one line without a token. -/
def plainGet : Stream where
  content := encode ("GET /v1/blobs/".toList ++ List.replicate 64 'a' ++ " HTTP/1.1\n".toList)
  failing := false
  cuts := []

theorem plainGet_harmless : Harmless guarded plainGet := .inr (.inr (by decide +kernel))

theorem handleOne_plainGet : handleOne summing (fun _ => none) guarded plainGet =
    lift (handleGetBlob guarded (List.replicate 64 'a')) := by
  have hline : plainGet.readLine =
      .ok ("GET /v1/blobs/".toList ++ List.replicate 64 'a' ++ " HTTP/1.1\n".toList, ⟨[], false, []⟩) := by
    decide +kernel
  have hheaders : eachHeader putHeader [] ⟨[], false, []⟩ = .ok ([], ⟨[], false, []⟩) := by
    rw [eachHeader]
    rfl
  have hwords : requestWords ("GET /v1/blobs/".toList ++ List.replicate 64 'a' ++ " HTTP/1.1\n".toList) =
      [GET, "/v1/blobs/".toList ++ List.replicate 64 'a', "HTTP/1.1".toList] := by
    decide +kernel
  have hexec : trimSlashes ("/v1/blobs/".toList ++ List.replicate 64 'a') ≠ "/v1/exec".toList := by
    decide +kernel
  have hrest : Cache.afterStart "/v1/blobs/".toList ("/v1/blobs/".toList ++ List.replicate 64 'a') =
      some (List.replicate 64 'a') := by
    decide +kernel
  have hkey : trimSlashes (List.replicate 64 'a') = List.replicate 64 'a' := by decide +kernel
  have hdigest : isDigest (List.replicate 64 'a') = true := by decide +kernel
  have hget : ¬(GET = PUT ∨ GET = POST) := by decide
  rw [handleOne, hline]
  dsimp only
  rw [if_neg (by decide), hheaders]
  dsimp only
  rw [respond, hwords]
  simp only [List.getElem?_cons_zero, List.getElem?_cons_succ, Option.getD_some, if_neg hget]
  rw [route, if_neg hexec, hrest]
  dsimp only
  rw [blobs, hkey, hdigest]
  rfl

/-- Nothing in the sandbox runs. -/
def noSandbox : Sandbox := fun _ _ _ _ _ => False

def quietServer : Crowd Unit Host Thread := ⟨server [] [], fun _ => .idle⟩

def asked : Crowd Unit Host Thread :=
  ⟨server [] [], fun _ => .serving plainGet (lift (handleGetBlob guarded (List.replicate 64 'a')))⟩

theorem asked_run : ReflTransGen (Crowd.Step (Serves summing (fun _ => none) guarded noSandbox))
    quietServer asked := by
  have haccept : Serves summing (fun _ => none) guarded noSandbox quietServer.shared .idle
      quietServer.shared (asked.threads ()) := by
    have hprogram : asked.threads () =
        .serving plainGet (handleOne summing (fun _ => none) guarded plainGet) := by
      rw [handleOne_plainGet]
      rfl
    rw [hprogram]
    exact .accept _ _
  have hthreads : asked =
      ⟨quietServer.shared, Function.update quietServer.threads () (asked.threads ())⟩ := by
    congr 1
  rw [hthreads]
  exact .single (.move () haccept)

/-- The file of the blob is looked for. -/
theorem harmless_changes_nothing_get :
    ∃ m t, Serves summing (fun _ => none) guarded noSandbox asked.shared (asked.threads ()) m t ∧
      t ≠ .idle ∧ m = asked.shared := by
  have hstep : Serves summing (fun _ => none) guarded noSandbox asked.shared (asked.threads ()) _ _ :=
    .call (.file (.read ((blobPath cacheServer.root (List.replicate 64 'a')).map .down)) asked.shared)
  refine ⟨_, _, hstep, by rintro ⟨⟩, ?_⟩
  exact harmless_changes_nothing (fun _ => rfl) asked_run rfl plainGet_harmless hstep

end Redo.Remote.Requests
