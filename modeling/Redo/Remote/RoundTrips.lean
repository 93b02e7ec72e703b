import Redo.Remote.Authorization
import Redo.Remote.Push

/-! # What is stored comes back

The texts that a client sends are taken apart by the server, stored, put together again and taken
apart by a client. The fields are found by their quoted names, and no digest, size or mode has a
quote in it.
-/
namespace Redo.Remote.Requests
open Library Downloads

/-- What a program answers, and the host behind it, while nothing else happens. -/
def answer {α : Type} (cfg : Config) (p : Serve α) (m : Host) : α := (p.run (FileOp.act cfg) m).answer

def after {α : Type} (cfg : Config) (p : Serve α) (m : Host) : Host := (p.run (FileOp.act cfg) m).after

section
variable {cfg : Config} {α β : Type} {m : Host}

@[simp] theorem answer_done (a : α) : answer cfg (.done a) m = a := rfl

@[simp] theorem after_done (a : α) : after cfg (.done a : Serve α) m = m := rfl

@[simp] theorem answer_bind (p : Serve α) (f : α → Serve β) :
    answer cfg (p >>= f) m = answer cfg (f (answer cfg p m)) (after cfg p m) := by
  simp only [answer, after, Script.run_bind]

@[simp] theorem after_bind (p : Serve α) (f : α → Serve β) :
    after cfg (p >>= f) m = after cfg (f (answer cfg p m)) (after cfg p m) := by
  simp only [answer, after, Script.run_bind]

@[simp] theorem answer_read (p : Path) :
    answer cfg (Serve.read p) m = ((Kernel.read p).on m.tree).answer := rfl

@[simp] theorem after_read (p : Path) : after cfg (Serve.read p) m = m := by
  simp [after, Serve.read, Script.perform, Script.run_call, FileOp.act, Host.onTree, Kernel.read_after]

@[simp] theorem answer_metadata (p : Path) :
    answer cfg (Serve.metadata p) m = ((Kernel.metadata p).on m.tree).answer := rfl

@[simp] theorem after_metadata (p : Path) : after cfg (Serve.metadata p) m = m := by
  simp [after, Serve.metadata, Script.perform, Script.run_call, FileOp.act, Host.onTree,
    Kernel.metadata_after]

@[simp] theorem answer_nextTmp : answer cfg Serve.nextTmp m = m.counter := rfl

theorem answer_rename (a b : Path) :
    answer cfg (Serve.rename a b) m = ((Kernel.rename a b).on m.tree).answer := rfl

@[simp] theorem after_pathExists (p : Path) : after cfg (Serve.pathExists p) m = m := by
  simp [Serve.pathExists]

@[simp] theorem after_isDir (p : Path) : after cfg (Serve.isDir p) m = m := by
  simp [Serve.isDir]

end

/-! ## Manifests -/

section
variable {H : Hashing Bytes} {cfg : Config} {m : Host} {path : Path}

theorem storeBlobBytes_yields (bytes : Bytes) :
    (Serve.storeBlobBytes H cfg bytes).Yields fun r => ∀ hex, r = some hex → hex = H.sha bytes := by
  unfold Serve.storeBlobBytes
  refine Script.yields_bind _ fun stored => ?_
  split_ifs
  · rintro hex ⟨⟩
    rfl
  · rintro hex ⟨⟩

/-- The digest and the size of a file that was copied into the store. -/
theorem storeBlobFromFileCompute_yields {size mode : ℕ}
    (hfile : ((Kernel.metadata path).on m.tree).answer = some (.file size mode)) {r : Text × ℕ}
    (h : answer cfg (Serve.storeBlobFromFileCompute H cfg path) m = some r) :
    isDigest r.1 ∧ r.2 = size := by
  unfold Serve.storeBlobFromFileCompute at h
  rw [answer_bind, answer_metadata, hfile] at h
  refine Script.Yields.run (P := fun s => ∀ r, s = some r → isDigest r.1 ∧ r.2 = size) ?_ _ r h
  refine Script.yields_bind _ fun c => ?_
  refine Script.yields_bind _ fun made => ?_
  split_ifs
  · refine Script.yields_bind _ fun copied => ?_
    cases copied with
    | none => rintro r ⟨⟩
    | some content =>
      refine Script.yields_bind _ fun made' => ?_
      split_ifs
      · refine Script.yields_bind _ fun isThere => ?_
        split_ifs
        · refine Script.yields_bind _ fun _ => ?_
          rintro r ⟨⟩
          exact ⟨H.sha_isDigest content, rfl⟩
        · refine Script.yields_bind _ fun settled => ?_
          split_ifs
          · rintro r ⟨⟩
            exact ⟨H.sha_isDigest content, rfl⟩
          · rintro r ⟨⟩
      · rintro r ⟨⟩
  · rintro r ⟨⟩

/-- What the exec handler writes down of the file at `path`: its digest, size and permissions. -/
theorem collectTarget_manifest {man : Text} (h : answer cfg (Serve.collectTarget H cfg path 0) m = some man) :
    ∃ blobHex size mode, isDigest blobHex ∧
      ((Kernel.metadata path).on m.tree).answer = some (.file size mode) ∧
      man = H.sha (H.bytes (manifestJson { blobSha256 := blobHex, size := size, mode := mode &&& 0o777 })) := by
  unfold Serve.collectTarget at h
  rw [if_neg (by simp), answer_bind, answer_metadata, after_metadata] at h
  cases hfile : ((Kernel.metadata path).on m.tree).answer with
  | none =>
    rw [hfile] at h
    cases h
  | some kind =>
    rw [hfile] at h
    cases kind with
    | dir => cases h
    | file size mode =>
      rw [answer_bind] at h
      cases hstored : answer cfg (Serve.storeBlobFromFileCompute H cfg path) m with
      | none =>
        rw [hstored] at h
        cases h
      | some r =>
        rw [hstored] at h
        obtain ⟨hdigest, rfl⟩ := storeBlobFromFileCompute_yields hfile hstored
        exact ⟨r.1, r.2, mode, hdigest, rfl, (storeBlobBytes_yields _).run _ man h⟩

end

/-! ## Mappings -/

/-- The body of the request of `put_action_mapping`. -/
def putBody (manifest : Text) : Bytes := encode (mappingJson manifest)

/-- `put_action_mapping` succeeds with this answer. -/
def Reply.Accepted (r : Reply) : Prop := ∃ response, r = .text response ∧ response.code ∈ [200, 201, 204]

def getActionManifestSha256 (s : Stream) : Except Failure (Option Text) := do
  let (status, body) ← readHttpResponse s
  if status = 200 then return mappingManifest (lossy body)
  else if status = 404 then return none
  else throw (.http status)

/-- The response of `write_json` with the status 200. -/
def jsonOk (body : Text) : Answer where
  version := "HTTP/1.1".toList
  reason := "OK".toList
  headers := [("Content-Length".toList, ' ' :: Nat.toDigits 10 (encode body).length),
    ("Content-Type".toList, " application/json".toList), ("Connection".toList, " close".toList)]
  framing := .length []
  body := encode body

/-- The store lies at `root`, wherever links to it lie, and no link is in the bucket of the key. -/
def NoLinks (cfg : Config) (key : Text) (m : Host) : Prop :=
  ∀ p, p <+: bucketDir cfg.root "actions".toList key ∨ bucketDir cfg.root "actions".toList key <+: p →
    ∀ fromRoot target, m.tree.node p ≠ some (.link fromRoot target)

/-- Entries are kept, or directories have been made. -/
def OnlyDirs (m m' : Host) : Prop :=
  ∀ p, m'.tree.node p = m.tree.node p ∨ m'.tree.node p = some .dir

theorem OnlyDirs.refl (m : Host) : OnlyDirs m m := fun _ => .inl rfl

theorem OnlyDirs.trans {m m' m'' : Host} (h : OnlyDirs m m') (h' : OnlyDirs m' m'') : OnlyDirs m m'' := by
  intro p
  rcases h' p with hsame | hdir
  · rw [hsame]
    exact h p
  · exact .inr hdir

theorem OnlyDirs.plain {m m' : Host} (h : OnlyDirs m m') {p : List Text} (hp : m.tree.Plain p) :
    m'.tree.Plain p := by
  intro q hq fromRoot target hlink
  rcases h q with hsame | hdir
  · exact hp q hq fromRoot target (hsame ▸ hlink)
  · rw [hdir] at hlink
    cases hlink

variable {cfg : Config} {m : Host}

theorem mkdir_onlyDirs {dir : List Text} (h : m.tree.Plain dir) (name : Text) :
    OnlyDirs m (after cfg (Serve.mkdir ((dir ++ [name]).map .down)) m) := by
  have hafter : (after cfg (Serve.mkdir ((dir ++ [name]).map .down)) m).tree =
      ((Kernel.mkdir ((dir ++ [name]).map .down)).on m.tree).after := rfl
  intro p
  rw [hafter]
  rcases Kernel.mkdir_cases h name with hsame | ⟨-, hput⟩
  · exact .inl (by rw [hsame])
  · rw [hput, Tree.node_put, Function.update_apply]
    split_ifs
    · exact .inr rfl
    · exact .inl rfl

theorem onlyDirs_bind {α β : Type} {p : Serve α} {f : α → Serve β} (h : OnlyDirs m (after cfg p m))
    (hf : ∀ a m', OnlyDirs m m' → OnlyDirs m' (after cfg (f a) m')) :
    OnlyDirs m (after cfg (p >>= f) m) := by
  rw [after_bind]
  exact h.trans (hf _ _ h)

theorem createDirs_onlyDirs (names : List Text) (h : m.tree.Plain names.reverse) :
    OnlyDirs m (after cfg (Serve.createDirs names) m) := by
  induction names generalizing m with
  | nil => exact .refl m
  | cons name above ih =>
    rw [List.reverse_cons] at h
    have hmkdir : ∀ m', OnlyDirs m m' →
        OnlyDirs m' (after cfg (Serve.mkdir ((name :: above).reverse.map .down)) m') := by
      intro m' hm
      rw [List.reverse_cons]
      exact mkdir_onlyDirs (fun q hq => hm.plain h q (hq.trans (List.prefix_append _ _))) name
    have hisDir : ∀ p m', OnlyDirs m' (after cfg (Serve.isDir p) m') := by
      intro p m'
      rw [after_isDir]
      exact .refl m'
    unfold Serve.createDirs
    refine onlyDirs_bind (hmkdir m (.refl m)) fun made m₁ h₁ => ?_
    split_ifs
    · exact .refl m₁
    · refine onlyDirs_bind (hisDir _ m₁) fun isDir m₂ h₂ => ?_
      split_ifs
      · exact .refl m₂
      · have hm₂ := h₁.trans h₂
        have habove : m₂.tree.Plain above.reverse :=
          fun q hq => hm₂.plain h q (hq.trans (List.prefix_append _ _))
        refine onlyDirs_bind (ih habove) fun upper m₃ h₃ => ?_
        split_ifs
        · refine onlyDirs_bind (hmkdir m₃ (hm₂.trans h₃)) fun made' m₄ _ => ?_
          split_ifs
          · exact .refl m₄
          · exact hisDir _ m₄
        · exact .refl m₃

/-! ## A mapping that is put -/

variable {key man : Text}

theorem firstLine_man (hman : isDigest man) : firstLine (man ++ ['\n']) = man :=
  firstLine_of_hex (isDigest_isHex hman)

/-- What a GET answers when the first line of the mapping file is the digest. -/
theorem mappingReply_of_firstLine {text : Text} (hman : isDigest man) (h : firstLine text = man) :
    mappingReply (some text) = .json ⟨200, mappingJson man⟩ := by
  have hhex := isDigest_isHex hman
  simp only [mappingReply, h, hhex, Bool.not_true, Bool.false_eq_true, if_false]

/-- A mapping file whose first line is the digest. -/
def Holds (cfg : Config) (key man : Text) (m : Host) : Prop :=
  ∃ content text, ((Kernel.read ((actionPath cfg.root key).map .down)).on m.tree).answer = some content ∧
    decode content = some text ∧ firstLine text = man

theorem Holds.get {cfg : ServerConfig} (h : Holds cfg.toConfig key man m) (hman : isDigest man) :
    answer cfg.toConfig (handleGetAction cfg key) m = .json ⟨200, mappingJson man⟩ := by
  obtain ⟨content, text, hread, hdecode, hline⟩ := h
  unfold handleGetAction
  simp only [answer_bind, answer_read, after_read, hread, Script.pure_eq, answer_done, hdecode]
  exact mappingReply_of_firstLine hman hline

theorem plain_put {t : Tree Text UInt8} {p : List Text} (h : t.Plain p) (content : Bytes) (mode : ℕ) :
    (t.put p (.file content mode)).Plain p := by
  intro q hq fromRoot target
  by_cases hqp : q = p
  · rw [Tree.node_put, hqp, Function.update_self]
    rintro ⟨⟩
  · rw [Tree.node_put, Function.update_of_ne hqp]
    exact h q hq fromRoot target

/-- The file that is written before the rename. -/
theorem write_node {cfg : Config} {p : List Text} {content : Bytes} (hplain : m.tree.Plain p)
    (h : answer cfg (Serve.write (p.map .down) content) m = true) :
    ∃ mode, (after cfg (Serve.write (p.map .down) content) m).tree.node =
      Function.update m.tree.node p (some (.file content mode)) := by
  have hcreate : answer cfg (Serve.create (p.map .down)) m =
      ((Kernel.create cfg.newMode (p.map .down)).on m.tree).answer := rfl
  have hcreated : (after cfg (Serve.create (p.map .down)) m).tree =
      ((Kernel.create cfg.newMode (p.map .down)).on m.tree).after := rfl
  unfold Serve.write at h ⊢
  simp only [answer_bind, after_bind, hcreate] at h ⊢
  rcases Kernel.create_cases hplain cfg.newMode with ⟨hfalse, -⟩ | ⟨htrue, mode, hput⟩
  · rw [hfalse] at h
    cases h
  · rw [if_pos htrue] at h ⊢
    rw [hput] at hcreated
    generalize after cfg (Serve.create (p.map .down)) m = m₁ at h hcreated ⊢
    have hplain₁ : m₁.tree.Plain p := by
      rw [hcreated]
      exact plain_put hplain _ _
    have happend : answer cfg (Serve.append (p.map .down) content) m₁ =
        ((Kernel.append (p.map .down) content).on m₁.tree).answer := rfl
    have happended : (after cfg (Serve.append (p.map .down) content) m₁).tree =
        ((Kernel.append (p.map .down) content).on m₁.tree).after := rfl
    rcases Kernel.append_cases hplain₁ content with ⟨hfalse, -⟩ | ⟨-, old, mode', hfile, hput'⟩
    · rw [happend, hfalse] at h
      cases h
    · rw [hcreated, Tree.node_put, Function.update_self] at hfile
      cases hfile
      refine ⟨mode, ?_⟩
      rw [happended, hput', Tree.node_put, hcreated, Tree.node_put, Function.update_idem, List.nil_append]

/-! ## The files of a bucket -/

theorem tmpAction_ne (hkey : isDigest key) (c : ℕ) : tmpAction cfg key c ≠ actionPath cfg.root key := by
  intro he
  have hname := List.append_cancel_left he
  have hdot : '.' ∈ key := by
    rw [← (List.cons.inj hname).1]
    exact List.mem_cons_self
  exact dot_not_digest hkey hdot

section
variable {t : Tree Text UInt8} {dir : List Text} {a b : Text}

theorem not_prefix_dir {q : List Text} (hq : q <+: dir) : ¬dir ++ [a] <+: q := by
  intro h
  have hlength := (h.trans hq).length_le
  rw [List.length_append, List.length_singleton] at hlength
  omega

theorem move_node_above {q : List Text} (hq : q <+: dir) :
    (t.move (dir ++ [a]) (dir ++ [b])).node q = t.node q := by
  rw [Tree.node_move, if_neg (not_prefix_dir hq), if_neg (not_prefix_dir hq)]

theorem move_node_self : (t.move (dir ++ [a]) (dir ++ [b])).node (dir ++ [b]) = t.node (dir ++ [a]) := by
  rw [Tree.node_move, if_pos (List.prefix_refl _), List.drop_length, List.append_nil]

theorem prefix_cases {q : List Text} (hq : q <+: dir ++ [b]) : q = dir ++ [b] ∨ q <+: dir :=
  List.prefix_concat_iff.mp hq

/-- What was moved to the name is read from there. -/
theorem read_moved (hplain : t.Plain dir) {content : Bytes} {mode : ℕ}
    (hfile : t.node (dir ++ [a]) = some (.file content mode)) (hdirs : t.DirsOn [] (dir ++ [b])) :
    ((Kernel.read ((dir ++ [b]).map .down)).on (t.move (dir ++ [a]) (dir ++ [b]))).answer = some content := by
  have hplain' : (t.move (dir ++ [a]) (dir ++ [b])).Plain (dir ++ [b]) := by
    intro q hq fromRoot target
    rcases prefix_cases hq with rfl | hq
    · rw [move_node_self, hfile]
      rintro ⟨⟩
    · rw [move_node_above hq]
      exact hplain q hq fromRoot target
  rw [Kernel.read_iff hplain']
  refine ⟨?_, mode, by rw [move_node_self, hfile]⟩
  intro k hk
  rw [List.length_append, List.length_singleton] at hk
  have hq : [] ++ (dir ++ [b]).take k <+: dir := by
    rw [List.nil_append, List.take_append_of_le_length (by omega)]
    exact List.take_prefix _ _
  rw [move_node_above hq]
  exact hdirs k (by simpa using hk)

/-- Another file of the directory may go. -/
theorem read_cleared (hplain : t.Plain (dir ++ [b])) (hne : dir ++ [a] ≠ dir ++ [b]) {content : Bytes}
    (h : ((Kernel.read ((dir ++ [b]).map .down)).on t).answer = some content) :
    ((Kernel.read ((dir ++ [b]).map .down)).on (t.clear (dir ++ [a]))).answer = some content := by
  have hkept : ∀ q, q <+: dir ++ [b] → (t.clear (dir ++ [a])).node q = t.node q := by
    intro q hq
    rw [Tree.node_clear, if_neg]
    rcases prefix_cases hq with rfl | hq
    · intro hpre
      exact hne (hpre.eq_of_length (by simp))
    · exact not_prefix_dir hq
  have hplain' : (t.clear (dir ++ [a])).Plain (dir ++ [b]) := by
    intro q hq fromRoot target
    rw [hkept q hq]
    exact hplain q hq fromRoot target
  rw [Kernel.read_iff hplain] at h
  rw [Kernel.read_iff hplain']
  obtain ⟨hdirs, mode, hfile⟩ := h
  refine ⟨?_, mode, by rw [hkept _ (List.prefix_refl _), hfile]⟩
  intro k hk
  rw [List.nil_append, hkept _ (List.take_prefix _ _)]
  exact hdirs k hk

end

/-! ## The round trip -/

theorem accepted_compare {existing : Text} (h : (compare man existing).Accepted) :
    firstLine existing = man := by
  unfold compare at h
  split_ifs at h with hline
  · exact hline
  · obtain ⟨response, heq, hcode⟩ := h
    cases heq
    exact absurd hcode (by decide)

theorem not_accepted_dropped : ¬Reply.dropped.Accepted := by
  rintro ⟨response, heq, -⟩
  cases heq

variable {cfg : ServerConfig}

/-- A digest was read if it is the first line of what was read. -/
theorem read_of_firstLine {got : Option Bytes} (hman : isDigest man)
    (h : firstLine ((got.bind decode).getD []) = man) :
    ∃ content text, got = some content ∧ decode content = some text ∧ firstLine text = man := by
  cases hgot : got.bind decode with
  | none =>
    rw [hgot] at h
    exact absurd h.symm (isDigest_ne_nil hman)
  | some text =>
    rw [hgot] at h
    obtain ⟨content, hcontent, hdecode⟩ := Option.bind_eq_some_iff.mp hgot
    exact ⟨content, text, hcontent, hdecode, h⟩

/-- Either the file that was written aside is moved, or another one that says the same is there. -/
theorem replaceAction_holds {dir : List Text} {a : Text} (hman : isDigest man)
    (hplain : m.tree.Plain (dir ++ [key])) (hne : dir ++ [a] ≠ dir ++ [key]) {mode : ℕ}
    (hfile : m.tree.node (dir ++ [a]) = some (.file (encode (man ++ ['\n'])) mode))
    (h : (answer cfg.toConfig (replaceAction (dir ++ [a]) (dir ++ [key]) man) m).Accepted) :
    ∃ content text, ((Kernel.read ((dir ++ [key]).map .down)).on
        (after cfg.toConfig (replaceAction (dir ++ [a]) (dir ++ [key]) man) m).tree).answer = some content ∧
      decode content = some text ∧ firstLine text = man := by
  have habove : m.tree.Plain dir := fun q hq => hplain q (hq.trans (List.prefix_append _ _))
  have hrenamed : (after cfg.toConfig (Serve.rename ((dir ++ [a]).map .down) ((dir ++ [key]).map .down))
      m).tree = ((Kernel.rename ((dir ++ [a]).map .down) ((dir ++ [key]).map .down)).on m.tree).after := rfl
  unfold replaceAction at h ⊢
  rw [answer_bind, answer_rename] at h
  rw [after_bind, answer_rename]
  generalize after cfg.toConfig (Serve.rename ((dir ++ [a]).map .down) ((dir ++ [key]).map .down)) m = m₁
    at h hrenamed ⊢
  rcases Kernel.rename_file habove a habove key hfile hne with ⟨hans, hafter⟩ | ⟨hans, hdirs, -, hafter⟩
  · rw [hans, if_neg Bool.false_ne_true] at h ⊢
    rw [hafter] at hrenamed
    rw [answer_bind, after_pathExists] at h
    rw [after_bind, after_pathExists]
    cases hexists : answer cfg.toConfig (Serve.pathExists ((dir ++ [key]).map .down)) m₁ with
    | false =>
      rw [hexists, if_neg Bool.false_ne_true] at h
      exact absurd h not_accepted_dropped
    | true =>
      rw [hexists, if_pos rfl, answer_bind, answer_read, after_read] at h
      rw [if_pos rfl, after_bind, after_read]
      have hline := accepted_compare h
      obtain ⟨content, text, hread, hdecode, hfirst⟩ := read_of_firstLine hman hline
      rw [hrenamed] at hread
      refine ⟨content, text, ?_, hdecode, hfirst⟩
      have hunlinked : (after cfg.toConfig (Serve.unlink ((dir ++ [a]).map .down)) m₁).tree =
          ((Kernel.unlink ((dir ++ [a]).map .down)).on m.tree).after := by
        rw [← hrenamed]
        rfl
      have hend : (after cfg.toConfig (Serve.unlink ((dir ++ [a]).map .down)) m₁).tree = m.tree ∨
          (after cfg.toConfig (Serve.unlink ((dir ++ [a]).map .down)) m₁).tree =
            m.tree.clear (dir ++ [a]) := by
        rw [hunlinked]
        exact Kernel.unlink_cases habove a
      rw [after_bind, Script.pure_eq, after_done]
      rcases hend with hsame | hcleared
      · rw [hsame]
        exact hread
      · rw [hcleared]
        exact read_cleared hplain hne hread
  · rw [if_pos hans, Script.pure_eq, after_done, hrenamed, hafter]
    exact ⟨_, _, read_moved habove hfile hdirs, decode_encode _, firstLine_man hman⟩

theorem NoLinks.plain {cfg : Config} (h : NoLinks cfg key m) (name : Text) :
    m.tree.Plain (bucketDir cfg.root "actions".toList key ++ [name]) := by
  intro q hq
  rcases prefix_cases hq with rfl | hq
  · exact h _ (.inr (List.prefix_append _ _))
  · exact h q (.inl hq)

theorem storeAction_holds (hkey : isDigest key) (hman : isDigest man) (hlinks : NoLinks cfg.toConfig key m)
    (h : (answer cfg.toConfig (storeAction cfg key man) m).Accepted) :
    Holds cfg.toConfig key man (after cfg.toConfig (storeAction cfg key man) m) := by
  have hdest : actionPath cfg.root key = bucketDir cfg.root "actions".toList key ++ [key] := rfl
  obtain ⟨name, hname⟩ : ∃ name, tmpAction cfg.toConfig key m.counter =
      bucketDir cfg.root "actions".toList key ++ [name] := ⟨_, rfl⟩
  have hne : tmpAction cfg.toConfig key m.counter ≠ actionPath cfg.root key := tmpAction_ne hkey m.counter
  have hfresh : (after cfg.toConfig Serve.nextTmp m).tree = m.tree := rfl
  rw [hname, hdest] at hne
  unfold storeAction at h ⊢
  unfold Holds
  rw [answer_bind, answer_nextTmp, hname, hdest] at h
  rw [after_bind, answer_nextTmp, hname, hdest]
  generalize after cfg.toConfig Serve.nextTmp m = m₁ at h hfresh ⊢
  have hplain : m₁.tree.Plain (bucketDir cfg.root "actions".toList key ++ [name]) := by
    rw [hfresh]
    exact hlinks.plain name
  dsimp only at h ⊢
  rw [answer_bind] at h
  rw [after_bind]
  cases hwritten : answer cfg.toConfig (Serve.write
      ((bucketDir cfg.root "actions".toList key ++ [name]).map .down) (encode (man ++ ['\n']))) m₁ with
  | false =>
    rw [hwritten, if_neg Bool.false_ne_true] at h
    exact absurd h not_accepted_dropped
  | true =>
    rw [hwritten, if_pos rfl] at h
    rw [if_pos rfl]
    obtain ⟨mode, hnode⟩ := write_node hplain hwritten
    refine replaceAction_holds hman ?_ hne (by rw [hnode, Function.update_self]) h
    intro q hq
    rw [hnode, Function.update_of_ne, hfresh]
    · exact hlinks.plain key q hq
    · rintro rfl
      exact hne (hq.eq_of_length (by simp))

/-- A PUT with the body of a client that is answered 200 leaves the digest in the mapping file. -/
theorem handlePutAction_holds (hkey : isDigest key) (hman : isDigest man)
    (hlinks : NoLinks cfg.toConfig key m) {clen : ℕ} {s : Stream}
    (hbody : s.readExact clen = .ok (putBody man))
    (h : (answer cfg.toConfig (handlePutAction cfg key clen s) m).Accepted) :
    Holds cfg.toConfig key man (after cfg.toConfig (handlePutAction cfg key clen s) m) := by
  have hdirs : OnlyDirs m (after cfg.toConfig
      (Serve.createDirAll (bucketDir cfg.root "actions".toList key)) m) := by
    refine createDirs_onlyDirs _ ?_
    rw [List.reverse_reverse]
    exact fun q hq => hlinks q (.inl hq)
  have hextract : (mappingManifest (lossy (putBody man))).getD [] = man := by
    rw [putBody, lossy_encode, mappingManifest_mappingJson (isDigest_isHex hman), Option.getD_some]
  unfold handlePutAction at h ⊢
  rw [answer_bind] at h
  rw [after_bind]
  cases hmade : answer cfg.toConfig (Serve.createDirAll (bucketDir cfg.root "actions".toList key)) m with
  | false =>
    rw [hmade, if_neg Bool.false_ne_true] at h
    exact absurd h not_accepted_dropped
  | true =>
    rw [hmade, if_pos rfl] at h
    rw [if_pos rfl]
    generalize after cfg.toConfig (Serve.createDirAll (bucketDir cfg.root "actions".toList key)) m = m₁
      at h hdirs ⊢
    have hlinks₁ : NoLinks cfg.toConfig key m₁ := by
      intro p hp fromRoot target hlink
      rcases hdirs p with hsame | hdir
      · exact hlinks p hp fromRoot target (hsame ▸ hlink)
      · rw [hdir] at hlink
        cases hlink
    simp only [hbody, hextract, hman, Bool.not_true, Bool.false_eq_true, if_false] at h ⊢
    rw [answer_bind, answer_read, after_read] at h
    rw [after_bind, answer_read, after_read]
    cases hfound : ((Kernel.read ((actionPath cfg.root key).map .down)).on m₁.tree).answer.bind decode with
    | none =>
      simp only [hfound] at h ⊢
      exact storeAction_holds hkey hman hlinks₁ h
    | some existing =>
      simp only [hfound] at h ⊢
      obtain ⟨content, hread, hdecode⟩ := Option.bind_eq_some_iff.mp hfound
      exact ⟨content, existing, hread, hdecode, accepted_compare h⟩

/-! ## The client -/

theorem counts_toDigits (n : ℕ) : Counts n (' ' :: Nat.toDigits 10 n) := by
  have hspace : ∀ c ∈ Nat.toDigits 10 n, isSpace c = false := fun c hc =>
    isDigit_not_space (isDigit_toDigits hc)
  have htrim : trim (' ' :: Nat.toDigits 10 n) = Nat.toDigits 10 n := trim_of_not_space hspace
  constructor
  · rw [htrim]
    exact Nat.toDigits_ne_nil
  · rw [htrim]
    exact List.all_eq_true.mpr fun c hc => isDigit_toDigits hc
  · rw [htrim, Nat.ofDigitChars_ten_toDigits]

theorem jsonOk_headers {body : Text} {h : Text × Text} (hh : h ∈ (jsonOk body).headers) :
    h = ("Content-Length".toList, ' ' :: Nat.toDigits 10 (encode body).length) ∨
      h ∈ [("Content-Type".toList, " application/json".toList), ("Connection".toList, " close".toList)] :=
  List.mem_cons.mp hh

theorem proper_name {h : Text × Text} {body : Text} (hh : h ∈ (jsonOk body).headers) :
    (∀ c ∈ h.1, isSpace c = false ∧ c ≠ ':') ∧ ¬Named "transfer-encoding" h := by
  have hall : ∀ name ∈ ["Content-Length".toList, "Content-Type".toList, "Connection".toList],
      (name.all fun c => decide (isSpace c = false ∧ c ≠ ':')) = true ∧
        toAsciiLowercase name ≠ "transfer-encoding".toList := by
    decide +kernel
  have hname : h.1 ∈ ["Content-Length".toList, "Content-Type".toList, "Connection".toList] := by
    rcases jsonOk_headers hh with rfl | hmem
    · exact List.mem_cons_self
    · exact List.mem_cons_of_mem _ (List.mem_map_of_mem hmem)
  exact ⟨forall_of_all (hall _ hname).1, (hall _ hname).2⟩

theorem jsonOk_wellFormed (body : Text) : (jsonOk body).WellFormed where
  version := by
    change "HTTP/1.1".toList ≠ [] ∧ ∀ c ∈ "HTTP/1.1".toList, isSpace c = false
    exact ⟨by decide, not_space_of_all (by decide +kernel)⟩
  reason := by
    change '\n' ∉ "OK".toList
    decide
  names _ hh := (proper_name hh).1
  values := by
    intro h hh
    rcases jsonOk_headers hh with rfl | hmem
    · intro hnewline
      rcases List.mem_cons.mp hnewline with hspace | hnewline
      · cases hspace
      · have hdigit := isDigit_toDigits hnewline
        cases hdigit
    · have hother : ∀ h ∈ [("Content-Type".toList, " application/json".toList),
          ("Connection".toList, " close".toList)], '\n' ∉ h.2 := by
        decide +kernel
      exact hother h hmem
  announced := by
    have hlength : toAsciiLowercase "Content-Length".toList = "content-length".toList := by decide +kernel
    refine ⟨⟨_, List.mem_cons_self, hlength⟩, ?_⟩
    intro h hh hname
    rcases jsonOk_headers hh with rfl | hmem
    · exact counts_toDigits _
    · have hother : ∀ h ∈ [("Content-Type".toList, " application/json".toList),
          ("Connection".toList, " close".toList)], toAsciiLowercase h.1 ≠ "content-length".toList := by
        decide +kernel
      exact absurd hname (hother h hmem)
  chunked := by
    constructor
    · rintro ⟨h, hh, hname, -⟩
      exact absurd hname (proper_name hh).2
    · rintro ⟨pieces, hpieces⟩
      cases hpieces

theorem length_encode_le (t : Text) : (encode t).length ≤ 4 * t.length := by
  induction t with
  | nil => exact Nat.le_refl 0
  | cons c t ih =>
    rw [encode_cons, List.length_append, List.length_cons]
    have hchar : (String.utf8EncodeChar c).length ≤ 4 := by
      rw [String.length_utf8EncodeChar]
      exact c.utf8Size_le_four
    omega

/-- The client finds the digest in the response to its GET. -/
theorem getActionManifestSha256_jsonOk (hman : isDigest man) {s : Stream}
    (hsent : s.content = (jsonOk (mappingJson man)).bytes) :
    getActionManifestSha256 s = .ok (some man) := by
  have hlength : (jsonOk (mappingJson man)).body.length ≤ ISIZE_MAX := by
    refine (length_encode_le (mappingJson man)).trans ?_
    unfold mappingJson
    rw [List.length_append, List.length_append, isDigest_length hman]
    decide
  have hresponse := readHttpResponse_ok (jsonOk_wellFormed (mappingJson man))
    (fun pieces hpieces => by cases hpieces) hlength ⟨hsent, fun _ => ⟨[], rfl⟩⟩
  have hbody : (jsonOk (mappingJson man)).body = encode (mappingJson man) := rfl
  have hextract := mappingManifest_mappingJson (isDigest_isHex hman)
  rw [getActionManifestSha256, hresponse, hbody]
  simp only [bind, Except.bind, if_true, lossy_encode, hextract]
  rfl

/-- What is printed for a digest, a size and a mode is read back by the client, whether the builder or
the server has printed it. What a PUT has stored is what the next GET gives back. -/
theorem round_trips (H : Hashing Bytes) (cfg : ServerConfig) :
    (∀ p : Pushed, isDigest p.cached.sha256 → p.cached.mode ≤ 0o777 →
      parseArtifactManifestV1 (manifestJson p.manifest) =
        some ⟨p.cached.sha256, p.cached.size.toNat, p.cached.mode.toNat⟩) ∧
    (∀ path m man, answer cfg.toConfig (Serve.collectTarget H cfg.toConfig path 0) m = some man →
      ∃ blobHex size mode text, isDigest blobHex ∧
        ((Kernel.metadata path).on m.tree).answer = some (.file size mode) ∧
        man = H.sha (H.bytes text) ∧ (size < 18446744073709551616 → mode ≤ 0o777 →
          parseArtifactManifestV1 text = some ⟨blobHex, size, mode⟩)) ∧
    ∀ key man m clen s, isDigest key → isDigest man → NoLinks cfg.toConfig key m →
      s.readExact clen = .ok (putBody man) →
      (answer cfg.toConfig (handlePutAction cfg key clen s) m).Accepted →
      ∃ body, answer cfg.toConfig (handleGetAction cfg key)
          (after cfg.toConfig (handlePutAction cfg key clen s) m) = .json ⟨200, body⟩ ∧
        ∀ s' : Stream, s'.content = (jsonOk body).bytes → getActionManifestSha256 s' = .ok (some man) := by
  refine ⟨?_, ?_, ?_⟩
  · intro p hdigest hmode
    have hle : p.cached.mode.toNat ≤ 0o777 := UInt32.le_iff_toNat_le.mp hmode
    have hmask : p.cached.mode &&& 0o777 = p.cached.mode := by
      rw [← UInt32.toNat_inj, UInt32.toNat_and]
      refine (Nat.and_two_pow_sub_one_eq_mod p.cached.mode.toNat 9).trans ?_
      omega
    have hparse := parse_manifestJson (m := p.manifest) (isDigest_isHex hdigest) p.cached.size.toNat_lt
      (p.cached.mode &&& 0o777).toNat_lt
    rw [hparse, Pushed.manifest, hmask]
  · intro path m man h
    obtain ⟨blobHex, size, mode, hdigest, hfile, hman⟩ := collectTarget_manifest h
    refine ⟨blobHex, size, mode, _, hdigest, hfile, hman, ?_⟩
    intro hsize hmode
    have hmask : mode &&& 0o777 = mode := by
      rw [Nat.and_two_pow_sub_one_eq_mod mode 9]
      omega
    rw [hmask]
    exact parse_manifestJson (isDigest_isHex hdigest) hsize (by dsimp only; omega)
  · intro key man m clen s hkey hman hlinks hbody h
    exact ⟨_, (handlePutAction_holds hkey hman hlinks hbody h).get hman,
      fun s' hsent => getActionManifestSha256_jsonOk hman hsent⟩

/-- The bytes of a request behind its head. -/
def putStream : Stream where
  content := putBody (List.replicate 64 'B')
  failing := false
  cuts := []

def isLink : Node Text UInt8 → Bool
  | .link _ _ => true
  | _ => false

theorem noLinks_server : NoLinks cacheServer (List.replicate 64 'a') (server [] []) := by
  intro p _ fromRoot target hlink
  have hall : ∀ q ∈ (server [] []).tree.names, ((server [] []).tree.node q).all (!isLink ·) := by
    decide +kernel
  have hmem := hall p ((server [] []).tree.complete p (by rw [hlink]; rfl))
  rw [hlink] at hmem
  cases hmem

theorem round_trips_upper_case :
    ∃ body, answer cacheServer (handleGetAction guarded (List.replicate 64 'a'))
        (after cacheServer (handlePutAction guarded (List.replicate 64 'a') putStream.content.length putStream)
          (server [] [])) = .json ⟨200, body⟩ ∧
      ∀ s' : Stream, s'.content = (jsonOk body).bytes →
        getActionManifestSha256 s' = .ok (some (List.replicate 64 'B')) := by
  have haccepted : (answer cacheServer (handlePutAction guarded (List.replicate 64 'a')
      putStream.content.length putStream) (server [] [])).Accepted :=
    ⟨⟨200, "ok\n".toList⟩, by decide +kernel, by decide⟩
  exact (round_trips summing guarded).2.2 (List.replicate 64 'a') (List.replicate 64 'B') (server [] []) _
    putStream (by decide +kernel) (by decide +kernel) noLinks_server (by decide +kernel) haccepted

end Redo.Remote.Requests
