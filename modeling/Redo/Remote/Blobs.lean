import Redo.Library.Interference
import Redo.Remote.Exec

/-! # The blob store

Uploads and collections of outputs run in the threads of the server, call by call. A call may
fail, a write may end half-way, and a thread may end anywhere. Around the server anything may
happen to the files outside the store.
-/
namespace Redo.Remote
open Library Relation

/-- The server and who has drawn which number for a temporary file. -/
structure Shared (ι : Type) where
  host : Host
  drawn : ℕ → Option ι

inductive Request where
  | put (key : Text) (clen : ℕ) (reads : List (Option Bytes))
  | exec (c : ℕ) (req : ExecRequest) (ran : Ran)

/-- Keys of uploads are checked before. -/
def Request.Routed : Request → Prop
  | put key _ _ => isDigest key
  | exec _ _ _ => True

/-- What a call answers when it fails. -/
def FileOp.failure : (op : FileOp) → Option op.Answer
  | mkdir _ => some false
  | metadata _ => some none
  | read _ => some none
  | create _ => some false
  | append _ _ => some false
  | rename _ _ => some false
  | unlink _ => some false
  | nextTmp => none

def FileOp.paths : FileOp → List Path
  | mkdir p => [p]
  | metadata p => [p]
  | read p => [p]
  | create p => [p]
  | append p _ => [p]
  | rename a b => [a, b]
  | unlink p => [p]
  | nextTmp => []

def Config.store (cfg : Config) : List Text := cfg.root ++ ["blobs".toList]

def Config.execs (cfg : Config) : List Text := cfg.root ++ ["exec".toList]

section
variable (H : Hashing Bytes) (cfg : Config) {ι : Type}

def Request.program : Request → Serve Unit
  | put key clen reads => do
    let _ ← Serve.handlePutBlob H cfg key clen reads
    pure ()
  | exec c req ran => do
    let _ ← Serve.handlePostExec H cfg (cfg.workHost c) req ran
    pure ()

def FileOp.draws (i : ι) (s : Shared ι) : FileOp → ℕ → Option ι
  | nextTmp => Function.update s.drawn s.host.counter (some i)
  | _ => s.drawn

inductive Does (i : ι) : (op : FileOp) → Shared ι → op.Answer → Shared ι → Prop
  | answered (op : FileOp) (s : Shared ι) : Does i op s (op.act cfg s.host).answer
    ⟨(op.act cfg s.host).after, op.draws i s⟩
  | failed {op : FileOp} {a : op.Answer} (h : op.failure = some a) (s : Shared ι) : Does i op s a s
  | partly (p : Path) (part rest : Bytes) (s : Shared ι) : Does i (.append p (part ++ rest)) s false
    ⟨((FileOp.append p part).act cfg s.host).after, s.drawn⟩

/-- A call of a collection changes nothing in the store or above it, and a blob is replaced
by no other content with its digest. -/
structure Guarded (op : FileOp) (s : Host) : Prop where
  confined : (∀ path ∈ op.paths, cfg.execs.map .down <+: path) →
    ∀ p, some (.below p) ∈ (op.act cfg s).touched → ¬p <+: cfg.store ∧ ¬cfg.store <+: p
  noCollision : ∀ tmp key, op = .rename (tmp.map .down) ((blobPath cfg.root key).map .down) →
    ∀ x y m m', s.tree.node tmp = some (.file x m) →
      s.tree.node (blobPath cfg.root key) = some (.file y m') → H.sha x = H.sha y → x = y

def Serves : Acts ι (Shared ι) FileOp FileOp.Answer := fun i op s a s' => Does cfg i op s a s'

def ServesGuarded : Acts ι (Shared ι) FileOp FileOp.Answer :=
  fun i op s a s' => Does cfg i op s a s' ∧ Guarded H cfg op s.host

/-- Files of other programs change, and those of commands in their sandboxes. -/
structure Around (s s' : Shared ι) : Prop where
  store : ∀ p, p <+: cfg.store ∨ cfg.store <+: p → s'.host.tree.node p = s.host.tree.node p
  counter : s'.host.counter = s.host.counter
  drawn : s'.drawn = s.drawn

def Starts (p : Serve Unit) : Prop := ∃ r : Request, r.Routed ∧ p = r.program H cfg

structure Content (s : Shared ι) : Prop where
  plain : ∀ p, p <+: cfg.store ∨ cfg.store <+: p → ∀ fromRoot target,
    s.host.tree.node p ≠ some (.link fromRoot target)
  addressed : ∀ key x m, isDigest key →
    s.host.tree.node (blobPath cfg.root key) = some (.file x m) → H.sha x = key
  fresh : ∀ n, s.host.counter ≤ n → s.drawn n = none

structure Kept (s s' : Shared ι) : Prop where
  dirs : ∀ key p, isDigest key → p <+: bucketDir cfg.root "blobs".toList key →
    s.host.tree.node p = some .dir → s'.host.tree.node p = some .dir
  blobs : ∀ key x m, isDigest key → s.host.tree.node (blobPath cfg.root key) = some (.file x m) →
    ∃ m', s'.host.tree.node (blobPath cfg.root key) = some (.file x m')

/-- A temporary file with the number. -/
def Config.Temp (n : ℕ) (p : List Text) : Prop :=
  p = cfg.tmpFile n ∨ ∃ key, isDigest key ∧ p = cfg.tmpPath key n

structure Undisturbed (i : ι) (s s' : Shared ι) : Prop where
  drawn : ∀ n, s.drawn n = some i → s'.drawn n = some i
  temps : ∀ n p, s.drawn n = some i → cfg.Temp n p → s'.host.tree.node p = s.host.tree.node p

variable {cfg} in
theorem Undisturbed.trans {i : ι} {s s' s'' : Shared ι} (h : Undisturbed cfg i s s')
    (h' : Undisturbed cfg i s' s'') : Undisturbed cfg i s s'' where
  drawn n hn := h'.drawn n (h.drawn n hn)
  temps n p hn hp := by rw [h'.temps n p (h.drawn n hn) hp, h.temps n p hn hp]

def blobContract : Contract ι (Shared ι) where
  inv := Content H cfg
  keeps := Kept cfg
  rely := Undisturbed cfg
  keeps_refl s := ⟨fun _ _ _ _ h => h, fun _ _ m _ h => ⟨m, h⟩⟩
  keeps_trans h h' := by
    constructor
    · exact fun key p hkey hp hdir => h'.dirs key p hkey hp (h.dirs key p hkey hp hdir)
    · intro key x m hkey hfile
      obtain ⟨m', hfile'⟩ := h.blobs key x m hkey hfile
      exact h'.blobs key x m' hkey hfile'
  rely_refl i s := ⟨fun _ h => h, fun _ _ _ _ => rfl⟩
  rely_trans := Undisturbed.trans

end

section
variable {cfg : Config} {key key' : Text} {n n' : ℕ} {t t' p : List Text}

theorem toDigits_inj {a b : ℕ} (h : Nat.toDigits 10 a = Nat.toDigits 10 b) : a = b := by
  have h' := congrArg (fun l => Nat.ofDigitChars 10 l 0) h
  simpa [Nat.ofDigitChars_toDigits] using h'

theorem isDigest_length (h : isDigest key) : key.length = 64 := by
  simp only [isDigest, Bool.and_eq_true, beq_iff_eq] at h
  exact h.1

/-- Names of temporary files begin with a dot. -/
theorem dot_not_digest (h : isDigest key) : '.' ∉ key :=
  fun hm => isHexDigit_ne (isHex_digits (isDigest_isHex h) _ hm) (by decide) rfl

theorem dot_cons_ne_take (h : isDigest key) (rest : Text) : '.' :: rest ≠ key.take 2 := by
  intro he
  apply dot_not_digest h
  apply List.mem_of_mem_take (i := 2)
  rw [← he]
  exact List.mem_cons_self

theorem dot_cons_ne (h : isDigest key) (rest : Text) : '.' :: rest ≠ key := by
  rintro rfl
  exact dot_not_digest h List.mem_cons_self

/-- Every path in the store by what stands below it. -/
theorem Config.Temp.cases (h : cfg.Temp n t) :
    (∃ name, t = cfg.root ++ ["blobs".toList, '.' :: name]) ∨
      ∃ key name, isDigest key ∧ t = cfg.root ++ ["blobs".toList, key.take 2, '.' :: name] := by
  rcases h with rfl | ⟨key, hkey, rfl⟩
  · left
    refine ⟨"tmp.".toList ++ Nat.toDigits 10 cfg.pid ++ '.' :: Nat.toDigits 10 n, ?_⟩
    rfl
  · right
    refine ⟨key, key ++ '.' :: Nat.toDigits 10 cfg.pid ++ '.' :: Nat.toDigits 10 n ++ ".tmp".toList,
      hkey, ?_⟩
    rw [tmpPath, bucketDir, List.append_assoc]
    rfl

theorem Config.Temp.not_blob (h : cfg.Temp n t) (hkey : isDigest key) :
    ¬t <+: blobPath cfg.root key := by
  rw [blobPath, bucketDir, List.append_assoc]
  rcases h.cases with ⟨name, rfl⟩ | ⟨key', name, hkey', rfl⟩ <;>
    rw [List.prefix_append_right_inj] <;>
    simp [dot_cons_ne_take hkey, dot_cons_ne hkey]

theorem Config.Temp.not_dir (h : cfg.Temp n t) (hkey : isDigest key)
    (hp : p <+: bucketDir cfg.root "blobs".toList key) : ¬t <+: p := by
  intro htp
  have hdir := htp.trans hp
  rw [bucketDir] at hdir
  rcases h.cases with ⟨name, rfl⟩ | ⟨key', name, hkey', rfl⟩ <;>
    rw [List.prefix_append_right_inj] at hdir <;>
    simp [dot_cons_ne_take hkey] at hdir

theorem Config.Temp.not_below (h : cfg.Temp n t) (hkey : isDigest key) :
    ¬blobPath cfg.root key <+: t := by
  rw [blobPath, bucketDir, List.append_assoc]
  rcases h.cases with ⟨name, rfl⟩ | ⟨key', name, hkey', rfl⟩ <;>
    rw [List.prefix_append_right_inj] <;>
    simp [(dot_cons_ne hkey _).symm]

theorem tmpFile_eq (h : cfg.tmpFile n <+: cfg.tmpFile n') : n = n' := by
  have heq := List.append_cancel_left (h.eq_of_length (by simp [Config.tmpFile]))
  simp only [List.cons.injEq, true_and, and_true] at heq
  rw [List.append_cancel_left_eq, List.cons_inj_right] at heq
  exact toDigits_inj heq

theorem tmpPath_eq (hkey : isDigest key) (hkey' : isDigest key')
    (h : cfg.tmpPath key n <+: cfg.tmpPath key' n') : n = n' := by
  have heq := h.eq_of_length (by simp [Config.tmpPath, bucketDir])
  have hname := List.singleton_inj.mp (List.append_inj' heq rfl).2
  simp only [List.cons_append, List.append_assoc, List.cons.injEq, true_and] at hname
  have hdigits := (List.append_inj hname (by rw [isDigest_length hkey, isDigest_length hkey'])).2
  simp only [List.cons.injEq, true_and, List.append_cancel_left_eq] at hdigits
  exact toDigits_inj (List.append_cancel_right hdigits)

/-- Temporary files with different numbers are different. -/
theorem Config.Temp.eq (h : cfg.Temp n t) (h' : cfg.Temp n' t') (ht : t <+: t') : n = n' := by
  rcases h with rfl | ⟨key, hkey, rfl⟩ <;> rcases h' with rfl | ⟨key', hkey', rfl⟩
  · exact tmpFile_eq ht
  · have hdir : cfg.tmpFile n <+: bucketDir cfg.root "blobs".toList key' :=
      List.prefix_of_prefix_length_le ht (List.prefix_append _ _) (by simp [tmpFile, bucketDir])
    exact absurd hdir (Config.Temp.not_dir (.inl rfl) hkey' (List.prefix_refl _))
  · have hlen := ht.length_le
    simp [tmpPath, tmpFile, bucketDir] at hlen
  · exact tmpPath_eq hkey hkey' ht

theorem blobPath_inj (h : blobPath cfg.root key <+: blobPath cfg.root key') : key = key' := by
  rw [blobPath, blobPath, bucketDir, bucketDir, List.append_assoc, List.append_assoc,
    List.prefix_append_right_inj] at h
  simp at h
  exact h.2

theorem blobPath_not_dir (hp : p <+: bucketDir cfg.root "blobs".toList key') :
    ¬blobPath cfg.root key <+: p := by
  intro h
  have hlen := (h.trans hp).length_le
  simp [blobPath, bucketDir] at hlen

theorem bucketDir_near (hp : p <+: bucketDir cfg.root "blobs".toList key) :
    p <+: cfg.store ∨ cfg.store <+: p := by
  have hstore : cfg.store <+: bucketDir cfg.root "blobs".toList key :=
    ⟨[key.take 2], by simp [Config.store, bucketDir]⟩
  exact List.prefix_or_prefix_of_prefix hp hstore

theorem store_blobPath : cfg.store <+: blobPath cfg.root key :=
  ⟨[key.take 2, key], by simp [Config.store, blobPath, bucketDir]⟩

theorem Config.Temp.store (h : cfg.Temp n t) : cfg.store <+: t := by
  rcases h.cases with ⟨name, rfl⟩ | ⟨key, name, -, rfl⟩
  · exact ⟨['.' :: name], by simp [Config.store]⟩
  · exact ⟨[key.take 2, '.' :: name], by simp [Config.store]⟩

end

section
variable {H : Hashing Bytes} {cfg : Config} {ι : Type} {s s' : Shared ι}

/-- A step changes entries with `X` only: neither blobs nor directories of the store. -/
structure Beside (cfg : Config) (X : List Text → Prop) (s s' : Shared ι) : Prop where
  same : ∀ q, ¬X q → s'.host.tree.node q = s.host.tree.node q
  plain : ∀ q, X q → q <+: cfg.store ∨ cfg.store <+: q → ∀ fromRoot target,
    s'.host.tree.node q ≠ some (.link fromRoot target)
  blobs : ∀ key, isDigest key → ¬X (blobPath cfg.root key)
  dirs : ∀ key p, isDigest key → p <+: bucketDir cfg.root "blobs".toList key →
    s.host.tree.node p = some .dir → ¬X p
  counter : s'.host.counter = s.host.counter
  drawn : s'.drawn = s.drawn

variable {X : List Text → Prop}

theorem Beside.content (h : Beside cfg X s s') (hs : Content H cfg s) : Content H cfg s' where
  plain := by
    intro p hp fromRoot target
    by_cases hX : X p
    · exact h.plain p hX hp fromRoot target
    · rw [h.same p hX]
      exact hs.plain p hp fromRoot target
  addressed := by
    intro key x m hkey hfile
    rw [h.same _ (h.blobs key hkey)] at hfile
    exact hs.addressed key x m hkey hfile
  fresh := by
    rw [h.counter, h.drawn]
    exact hs.fresh

theorem Beside.kept (h : Beside cfg X s s') : Kept cfg s s' where
  dirs := by
    intro key p hkey hp hdir
    rw [h.same p (h.dirs key p hkey hp hdir), hdir]
  blobs := by
    intro key x m hkey hfile
    rw [h.same _ (h.blobs key hkey)]
    exact ⟨m, hfile⟩

theorem Beside.undisturbed (h : Beside cfg X s s') {j : ι}
    (htemp : ∀ n t, cfg.Temp n t → X t → s.drawn n ≠ some j) : Undisturbed cfg j s s' where
  drawn := by
    rw [h.drawn]
    exact fun n hn => hn
  temps := by
    intro n t hn ht
    exact h.same t fun hX => htemp n t ht hX hn

theorem Beside.honours (h : Beside cfg X s s') (hs : Content H cfg s) {i : ι}
    (htemp : ∀ n t, cfg.Temp n t → X t → s.drawn n = some i) :
    (blobContract H cfg).Honours i s s' where
  inv := h.content hs
  keeps := h.kept
  others := by
    intro j hj
    apply h.undisturbed
    intro n t ht hX hn
    rw [htemp n t ht hX] at hn
    exact hj (Option.some_inj.mp hn).symm

theorem Around.beside (h : Around cfg s s') :
    Beside cfg (fun q => ¬(q <+: cfg.store ∨ cfg.store <+: q)) s s' where
  same q hq := h.store q (not_not.mp hq)
  plain _ hq hstore := absurd hstore hq
  blobs _ _ hX := hX (.inr store_blobPath)
  dirs _ _ _ hp _ hX := hX (bucketDir_near hp)
  counter := h.counter
  drawn := h.drawn

theorem beside_temp {n : ℕ} {t : List Text} (ht : cfg.Temp n t)
    (hsame : ∀ q, ¬t <+: q → s'.host.tree.node q = s.host.tree.node q)
    (hplain : ∀ q, t <+: q → ∀ fromRoot target,
      s'.host.tree.node q ≠ some (.link fromRoot target))
    (hcounter : s'.host.counter = s.host.counter) (hdrawn : s'.drawn = s.drawn) :
    Beside cfg (t <+: ·) s s' where
  same := hsame
  plain q hq _ := hplain q hq
  blobs _ hkey := ht.not_blob hkey
  dirs _ _ hkey hp _ := ht.not_dir hkey hp
  counter := hcounter
  drawn := hdrawn

/-- A thread may do with its own temporary file what it wants. -/
theorem honours_temp {i : ι} {n : ℕ} {t : List Text} (hs : Content H cfg s) (ht : cfg.Temp n t)
    (hn : s.drawn n = some i) (h : Beside cfg (t <+: ·) s s') :
    (blobContract H cfg).Honours i s s' := by
  apply h.honours hs
  intro n' t' ht' hX
  rw [← ht.eq ht' hX, hn]

theorem honours_refl {i : ι} (hs : Content H cfg s) : (blobContract H cfg).Honours i s s where
  inv := hs
  keeps := (blobContract H cfg).keeps_refl s
  others j _ := (blobContract H cfg).rely_refl j s

/-- A step that leaves all temporary files alone, those of its own thread as well. -/
structure Quietly (H : Hashing Bytes) (cfg : Config) (i : ι) (s s' : Shared ι) : Prop where
  honours : (blobContract H cfg).Honours i s s'
  own : Undisturbed cfg i s s'

theorem quietly_refl {i : ι} (hs : Content H cfg s) : Quietly H cfg i s s :=
  ⟨honours_refl hs, (blobContract H cfg).rely_refl i s⟩

theorem Beside.quietly (h : Beside cfg X s s') (hs : Content H cfg s) (i : ι)
    (htemp : ∀ n t, cfg.Temp n t → ¬X t) : Quietly H cfg i s s' where
  honours := h.honours hs fun n t ht hX => absurd hX (htemp n t ht)
  own := h.undisturbed fun n t ht hX => absurd hX (htemp n t ht)

theorem mkdir_quietly {key : Text} {p : List Text} (hs : Content H cfg s) (i : ι)
    (hkey : isDigest key) (hp : p <+: bucketDir cfg.root "blobs".toList key)
    (hnone : s.host.tree.node p = none) :
    Quietly H cfg i s ⟨{ s.host with tree := s.host.tree.put p .dir }, s.drawn⟩ := by
  have hbeside : Beside cfg (· = p) s ⟨{ s.host with tree := s.host.tree.put p .dir }, s.drawn⟩ := by
    constructor
    · intro q hq
      exact Function.update_of_ne hq _ _
    · rintro q rfl _ fromRoot target
      simp
    · rintro key' hkey' rfl
      exact blobPath_not_dir hp (List.prefix_refl _)
    · rintro key' q hkey' hq hdir rfl
      rw [hnone] at hdir
      cases hdir
    · rfl
    · rfl
  apply hbeside.quietly hs
  rintro n t ht rfl
  exact ht.not_dir hkey hp (List.prefix_refl t)

/-- A blob appears with the content that its key names, or keeps the content that it has. -/
theorem honours_rename {i : ι} {n m : ℕ} {t : List Text} {key : Text} {x : Bytes}
    (hs : Content H cfg s) (ht : cfg.Temp n t) (hn : s.drawn n = some i) (hkey : isDigest key)
    (hfile : s.host.tree.node t = some (.file x m)) (hx : H.sha x = key)
    (hcollision : ∀ y m', s.host.tree.node (blobPath cfg.root key) = some (.file y m') →
      H.sha x = H.sha y → x = y)
    (h : s' = ⟨{ s.host with tree := s.host.tree.move t (blobPath cfg.root key) }, s.drawn⟩) :
    (blobContract H cfg).Honours i s s' := by
  have hold : ∀ q, ¬t <+: q → ¬blobPath cfg.root key <+: q →
      s'.host.tree.node q = s.host.tree.node q := by
    intro q hq hq'
    subst h
    simp [hq, hq']
  have hnew : s'.host.tree.node (blobPath cfg.root key) = some (.file x m) := by
    subst h
    simp [hfile]
  refine ⟨⟨?_, ?_, ?_⟩, ⟨?_, ?_⟩, ?_⟩
  · intro q hq fromRoot target
    subst h
    simp only [Library.Tree.node_move]
    split
    · exact hs.plain _ (.inr (ht.store.trans (List.prefix_append _ _))) fromRoot target
    · split
      · simp
      · exact hs.plain q hq fromRoot target
  · intro key' y m' hkey' hfile'
    by_cases hkeys : key = key'
    · subst hkeys
      rw [hnew] at hfile'
      simp only [Option.some.injEq, Node.file.injEq] at hfile'
      rw [← hfile'.1, hx]
    · rw [hold _ (ht.not_blob hkey') fun hp => hkeys (blobPath_inj hp)] at hfile'
      exact hs.addressed key' y m' hkey' hfile'
  · subst h
    exact hs.fresh
  · intro key' p hkey' hp hdir
    rw [hold p (ht.not_dir hkey' hp) (blobPath_not_dir hp), hdir]
  · intro key' y m' hkey' hfile'
    by_cases hkeys : key = key'
    · subst hkeys
      refine ⟨m, ?_⟩
      rw [hnew, hcollision y m' hfile' (by rw [hx, hs.addressed key y m' hkey hfile'])]
    · refine ⟨m', ?_⟩
      rw [hold _ (ht.not_blob hkey') fun hp => hkeys (blobPath_inj hp), hfile']
  · intro j hj
    subst h
    refine ⟨fun _ hn' => hn', ?_⟩
    intro n' t' hn' ht'
    apply hold t' _ (ht'.not_below hkey)
    intro htt
    rw [← ht.eq ht' htt, hn] at hn'
    exact hj (Option.some_inj.mp hn').symm

theorem honours_nextTmp {i : ι} (hs : Content H cfg s)
    (h : s' = ⟨{ s.host with counter := s.host.counter + 1 },
      Function.update s.drawn s.host.counter (some i)⟩) :
    (blobContract H cfg).Honours i s s' := by
  subst h
  refine ⟨⟨hs.plain, hs.addressed, ?_⟩, ⟨fun _ _ _ _ hdir => hdir, fun _ _ m _ hfile => ⟨m, hfile⟩⟩, ?_⟩
  · intro n hn
    have hlt : s.host.counter < n := hn
    simp only [Function.update_of_ne (by omega : n ≠ s.host.counter)]
    exact hs.fresh n (by omega)
  · intro j _
    refine ⟨?_, fun _ _ _ _ => rfl⟩
    intro n hn
    have hne : n ≠ s.host.counter := by
      rintro rfl
      rw [hs.fresh _ (le_refl _)] at hn
      cases hn
    simp only [Function.update_of_ne hne, hn]

theorem plain_near (hs : Content H cfg s) {p : List Text} (hp : p <+: cfg.store ∨ cfg.store <+: p) :
    s.host.tree.Plain p := by
  intro q hq
  rcases hp with hp | hp
  · exact hs.plain q (.inl (hq.trans hp))
  · exact hs.plain q (List.prefix_or_prefix_of_prefix hq hp)

/-- What the calls of a thread end with. -/
abbrev Serve.Sound (H : Hashing Bytes) (cfg : Config) (i : ι) {α : Type} (Q : α → Shared ι → Prop)
    (p : Serve α) (s : Shared ι) : Prop :=
  (blobContract H cfg).Sound (ServesGuarded H cfg) i Q p s

/-- The thread holds a temporary file with this content. -/
structure HoldsTemp (i : ι) (n : ℕ) (t : List Text) (x : Bytes) (s : Shared ι) : Prop where
  drawn : s.drawn n = some i
  file : ∃ m, s.host.tree.node t = some (.file x m)

theorem HoldsTemp.later {i : ι} {n : ℕ} {t : List Text} {x : Bytes} (h : HoldsTemp i n t x s)
    (ht : cfg.Temp n t) (hr : Undisturbed cfg i s s') : HoldsTemp i n t x s' where
  drawn := hr.drawn n h.drawn
  file := by
    rw [hr.temps n t h.drawn ht]
    exact h.file

/-- Such a part of a program leaves the temporary files of its thread alone. -/
abbrev Serve.Quiet (H : Hashing Bytes) (cfg : Config) (i : ι) {α : Type} (p : Serve α)
    (s : Shared ι) : Prop :=
  Serve.Sound H cfg i (fun _ s' => Undisturbed cfg i s s') p s

theorem quiet_perform {i : ι} {op : FileOp} (h : ∀ s₁ a s₂, Content H cfg s₁ →
    ServesGuarded H cfg i op s₁ a s₂ → Quietly H cfg i s₁ s₂) :
    Serve.Quiet H cfg i (Script.perform op) s := by
  refine Contract.Sound.perform fun s₁ hinv hr a s₂ hact => ?_
  have hstep := h s₁ a s₂ hinv hact
  refine ⟨hstep.honours, fun s₃ _ hr' => ?_⟩
  exact Undisturbed.trans (Undisturbed.trans hr hstep.own) hr'

theorem quiet_pure {i : ι} {α : Type} (a : α) : Serve.Quiet H cfg i (pure a : Serve α) s :=
  fun _ _ hr => hr

theorem Serve.Quiet.bind {i : ι} {α β : Type} {p : Serve α} {f : α → Serve β}
    (h : Serve.Quiet H cfg i p s) (hf : ∀ a s, Serve.Quiet H cfg i (f a) s) :
    Serve.Quiet H cfg i (p >>= f) s := by
  refine Contract.Sound.bind h fun a s₁ _ hr => (hf a s₁).imp fun b s₂ _ hr' => ?_
  exact Undisturbed.trans hr hr'

theorem mkdir_quiet {i : ι} {key name : Text} {dir : List Text} (hkey : isDigest key)
    (hp : dir ++ [name] <+: bucketDir cfg.root "blobs".toList key) :
    Serve.Quiet H cfg i (Serve.mkdir ((dir ++ [name]).map .down)) s := by
  apply quiet_perform
  intro s₁ a s₂ hinv hact
  have hplain := plain_near hinv (bucketDir_near ((List.prefix_append dir [name]).trans hp))
  cases hact.1 with
  | failed h => exact quietly_refl hinv
  | answered =>
    rcases Kernel.mkdir_cases hplain name with h | ⟨hnone, h⟩
    · simp only [FileOp.act, Host.onTree, FileOp.draws, h]
      exact quietly_refl hinv
    · simp only [FileOp.act, Host.onTree, FileOp.draws, h]
      exact mkdir_quietly hinv i hkey hp hnone

theorem metadata_quiet {i : ι} (p : Path) : Serve.Quiet H cfg i (Serve.metadata p) s := by
  apply quiet_perform
  intro s₁ a s₂ hinv hact
  cases hact.1 with
  | failed h => exact quietly_refl hinv
  | answered =>
    simp only [FileOp.act, Host.onTree, FileOp.draws, Kernel.metadata_after]
    exact quietly_refl hinv

theorem read_quiet {i : ι} (p : Path) : Serve.Quiet H cfg i (Serve.read p) s := by
  apply quiet_perform
  intro s₁ a s₂ hinv hact
  cases hact.1 with
  | failed h => exact quietly_refl hinv
  | answered =>
    simp only [FileOp.act, Host.onTree, FileOp.draws, Kernel.read_after]
    exact quietly_refl hinv

theorem nextTmp_sound {i : ι} :
    Serve.Sound H cfg i (fun n s' => s'.drawn n = some i) Serve.nextTmp s := by
  refine Contract.Sound.perform fun s₁ hinv _ a s₂ hact => ?_
  cases hact.1 with
  | failed h => cases h
  | answered =>
    refine ⟨honours_nextTmp hinv rfl, ?_⟩
    intro s₃ _ hr
    exact hr.drawn _ (Function.update_self ..)

theorem Config.Temp.split {n : ℕ} {t : List Text} (h : cfg.Temp n t) :
    ∃ dir name, t = dir ++ [name] ∧ (dir <+: cfg.store ∨ cfg.store <+: dir) := by
  rcases h.cases with ⟨name, rfl⟩ | ⟨key, name, -, rfl⟩
  · exact ⟨cfg.store, '.' :: name, by simp [Config.store], .inl (List.prefix_refl _)⟩
  · exact ⟨cfg.store ++ [key.take 2], '.' :: name, by simp [Config.store],
      .inr (List.prefix_append _ _)⟩

section
variable {i : ι} {n : ℕ} {t : List Text} (ht : cfg.Temp n t)
include ht

theorem put_beside (hs : Content H cfg s) (content : Bytes) (m : ℕ) :
    Beside cfg (t <+: ·) s
      ⟨{ s.host with tree := s.host.tree.put t (.file content m) }, s.drawn⟩ := by
  apply beside_temp ht
  · intro q hq
    apply Function.update_of_ne
    rintro rfl
    exact hq (List.prefix_refl q)
  · intro q hq fromRoot target
    by_cases hqt : q = t
    · subst hqt
      simp
    · simp only [Library.Tree.node_put, Function.update_of_ne hqt]
      exact hs.plain q (.inr (ht.store.trans hq)) fromRoot target
  · rfl
  · rfl

theorem put_holds {m : ℕ} {x : Bytes} (hn : s.drawn n = some i)
    (hr : Undisturbed cfg i
      ⟨{ s.host with tree := s.host.tree.put t (.file x m) }, s.drawn⟩ s') :
    HoldsTemp i n t x s' := by
  have hholds : HoldsTemp i n t x
      ⟨{ s.host with tree := s.host.tree.put t (.file x m) }, s.drawn⟩ :=
    ⟨hn, m, Function.update_self ..⟩
  exact hholds.later ht hr

theorem create_sound (hn : s.drawn n = some i) :
    Serve.Sound H cfg i (fun ok s' => ok = true → HoldsTemp i n t [] s')
      (Serve.create (t.map .down)) s := by
  refine Contract.Sound.perform fun s₁ hinv hr a s₂ hact => ?_
  have hn₁ := hr.drawn n hn
  cases hact.1 with
  | failed h =>
    refine ⟨honours_refl hinv, ?_⟩
    rintro s₃ _ _ rfl
    cases h
  | answered =>
    rcases Kernel.create_cases (plain_near hinv (.inr ht.store)) cfg.newMode with ⟨hans, h⟩ | ⟨-, m, h⟩
    · simp only [FileOp.act, Host.onTree, FileOp.draws, h, hans]
      refine ⟨honours_refl hinv, ?_⟩
      rintro s₃ _ _ hok
      cases hok
    · simp only [FileOp.act, Host.onTree, FileOp.draws, h]
      exact ⟨honours_temp hinv ht hn₁ (put_beside ht hinv [] m),
        fun s₃ _ hr' _ => put_holds ht hn₁ hr'⟩

theorem append_sound {x : Bytes} (h : HoldsTemp i n t x s) (more : Bytes) :
    Serve.Sound H cfg i (fun ok s' => ok = true → HoldsTemp i n t (x ++ more) s')
      (Serve.append (t.map .down) more) s := by
  refine Contract.Sound.perform fun s₁ hinv hr a s₂ hact => ?_
  have hholds := h.later ht hr
  have hplain := plain_near hinv (.inr ht.store)
  obtain ⟨m, hfile⟩ := hholds.file
  cases hact.1 with
  | failed h =>
    refine ⟨honours_refl hinv, ?_⟩
    rintro s₃ _ _ rfl
    cases h
  | answered =>
    rcases Kernel.append_cases hplain more with ⟨hans, h⟩ | ⟨-, x', m', hfile', h⟩
    · simp only [FileOp.act, Host.onTree, FileOp.draws, h, hans]
      refine ⟨honours_refl hinv, ?_⟩
      rintro s₃ _ _ hok
      cases hok
    · rw [hfile] at hfile'
      cases hfile'
      simp only [FileOp.act, Host.onTree, FileOp.draws, h]
      exact ⟨honours_temp hinv ht hholds.drawn (put_beside ht hinv _ _),
        fun s₃ _ hr' _ => put_holds ht hholds.drawn hr'⟩
  | partly _ part rest =>
    refine ⟨?_, fun _ _ _ hok => by cases hok⟩
    rcases Kernel.append_cases hplain part with ⟨-, h⟩ | ⟨-, x', m', -, h⟩
    · simp only [FileOp.act, Host.onTree, h]
      exact honours_refl hinv
    · simp only [FileOp.act, Host.onTree, h]
      exact honours_temp hinv ht hholds.drawn (put_beside ht hinv _ _)

theorem unlink_sound (hn : s.drawn n = some i) :
    Serve.Sound H cfg i (fun _ _ => True) (Serve.unlink (t.map .down)) s := by
  refine Contract.Sound.perform fun s₁ hinv hr a s₂ hact => ⟨?_, fun _ _ _ => trivial⟩
  have hn₁ := hr.drawn n hn
  cases hact.1 with
  | failed h => exact honours_refl hinv
  | answered =>
    obtain ⟨dir, name, rfl, hdir⟩ := ht.split
    rcases Kernel.unlink_cases (plain_near hinv hdir) name with h | h
    · simp only [FileOp.act, Host.onTree, FileOp.draws, h]
      exact honours_refl hinv
    · simp only [FileOp.act, Host.onTree, FileOp.draws, h]
      apply honours_temp hinv ht hn₁
      apply beside_temp ht
      · intro q hq
        simp [hq]
      · intro q hq fromRoot target
        simp [hq]
      · rfl
      · rfl

/-- The temporary file becomes the blob that its content has the digest of. -/
theorem rename_sound {key : Text} {x : Bytes} (h : HoldsTemp i n t x s) (hkey : isDigest key)
    (hx : H.sha x = key) :
    Serve.Sound H cfg i (fun _ s' => s'.drawn n = some i)
      (Serve.rename (t.map .down) ((blobPath cfg.root key).map .down)) s := by
  refine Contract.Sound.perform fun s₁ hinv hr a s₂ hact => ?_
  have hholds := h.later ht hr
  obtain ⟨m, hfile⟩ := hholds.file
  cases hact.1 with
  | failed h => exact ⟨honours_refl hinv, fun s₃ _ hr' => hr'.drawn n hholds.drawn⟩
  | answered =>
    refine ⟨?_, fun s₃ _ hr' => hr'.drawn n hholds.drawn⟩
    have hcollision := hact.2.noCollision t key rfl x
    obtain ⟨dir, name, rfl, hdir⟩ := ht.split
    have hne : dir ++ [name] ≠ blobPath cfg.root key := by
      intro he
      exact ht.not_blob hkey (by rw [he])
    have hbucket : s₁.host.tree.Plain (bucketDir cfg.root "blobs".toList key) :=
      plain_near hinv (bucketDir_near (List.prefix_refl _))
    rcases Kernel.rename_cases (plain_near hinv hdir) name hbucket key hfile hne with h | ⟨-, h⟩
    · simp only [FileOp.act, Host.onTree, FileOp.draws, blobPath, h]
      exact honours_refl hinv
    · apply honours_rename hinv ht hholds.drawn hkey hfile hx
      · exact fun y m' hy => hcollision y m m' hfile hy
      · simp only [FileOp.act, Host.onTree, FileOp.draws, blobPath, h]

end

/-- A call that changes nothing in the store or above it is like one of another program. -/
theorem around_of_guard (op : FileOp) (hop : op ≠ .nextTmp)
    (hguard : ∀ p, some (.below p) ∈ (op.act cfg s.host).touched →
      ¬p <+: cfg.store ∧ ¬cfg.store <+: p) :
    Around cfg s ⟨(op.act cfg s.host).after, s.drawn⟩ where
  store := by
    intro q hq
    have hframe := FileOp.act_frames cfg op s.host (some q) ?_
    · simpa [Host.view] using hframe
    · intro area harea hchanges
      cases area with
      | none => cases hchanges
      | some a =>
        cases a with
        | below p =>
          obtain ⟨habove, hbelow⟩ := hguard p harea
          have hp : p <+: q := hchanges
          rcases hq with hq | hq
          · exact habove (hp.trans hq)
          · exact (List.prefix_or_prefix_of_prefix hp hq).elim habove hbelow
        | _ => cases hchanges
  counter := by
    cases op with
    | nextTmp => exact absurd rfl hop
    | _ => rfl
  drawn := rfl

theorem Around.quietly (h : Around cfg s s') (hs : Content H cfg s) (i : ι) :
    Quietly H cfg i s s' :=
  h.beside.quietly hs i fun _ _ ht hX => hX (.inr ht.store)

/-- A call of a collection does nothing in the store. -/
theorem collecting_quiet {i : ι} (op : FileOp) (hop : op ≠ .nextTmp)
    (hpaths : ∀ path ∈ op.paths, cfg.execs.map .down <+: path) :
    Serve.Quiet H cfg i (Script.perform op) s := by
  apply quiet_perform
  intro s₁ a s₂ hinv hact
  have hguard := hact.2.confined hpaths
  cases hact.1 with
  | failed h => exact quietly_refl hinv
  | answered =>
    have haround := around_of_guard op hop hguard
    cases op with
    | nextTmp => exact absurd rfl hop
    | _ => exact haround.quietly hinv i
  | partly p part rest =>
    have htouched : ((FileOp.append p part).act cfg s₁.host).touched =
        ((FileOp.append p (part ++ rest)).act cfg s₁.host).touched :=
      congrArg (List.map some) (Kernel.append_touched p part (part ++ rest) s₁.host.tree)
    rw [← htouched] at hguard
    exact (around_of_guard (.append p part) (fun h => by cases h) hguard).quietly hinv i

theorem pathExists_quiet {i : ι} (p : Path) : Serve.Quiet H cfg i (Serve.pathExists p) s :=
  (metadata_quiet p).bind fun _ _ => quiet_pure _

theorem isDir_quiet {i : ι} (p : Path) : Serve.Quiet H cfg i (Serve.isDir p) s :=
  (metadata_quiet p).bind fun _ _ => quiet_pure _

/-- Making directories is quiet where making one is. -/
theorem createDirs_quiet {i : ι} (names : List Text)
    (hmkdir : ∀ (dir : List Text) (name : Text), dir ++ [name] <+: names.reverse → ∀ s,
      Serve.Quiet H cfg i (Serve.mkdir ((dir ++ [name]).map .down)) s) :
    Serve.Quiet H cfg i (Serve.createDirs names) s := by
  induction names generalizing s with
  | nil => exact quiet_pure _
  | cons name above ih =>
    have hone : ∀ s, Serve.Quiet H cfg i (Serve.mkdir ((name :: above).reverse.map .down)) s := by
      intro s
      rw [List.reverse_cons]
      exact hmkdir _ _ (by simp) s
    have habove : ∀ s, Serve.Quiet H cfg i (Serve.createDirs above) s := by
      intro s
      apply ih
      intro dir name' hdir
      exact hmkdir dir name' (hdir.trans (by simp))
    rw [Serve.createDirs]
    refine (hone s).bind fun made s₁ => ?_
    split
    · exact quiet_pure _
    · refine (isDir_quiet _).bind fun there s₂ => ?_
      split
      · exact quiet_pure _
      · refine (habove s₂).bind fun ok s₃ => ?_
        split
        · refine (hone s₃).bind fun made' s₄ => ?_
          split
          · exact quiet_pure _
          · exact isDir_quiet _
        · exact quiet_pure _

theorem createDirAll_store_quiet {i : ι} {key : Text} {p : List Text} (hkey : isDigest key)
    (hp : p <+: bucketDir cfg.root "blobs".toList key) :
    Serve.Quiet H cfg i (Serve.createDirAll p) s := by
  apply createDirs_quiet
  intro dir name hdir s
  rw [List.reverse_reverse] at hdir
  exact mkdir_quiet hkey (hdir.trans hp)

section
variable {i : ι} {n : ℕ} {t : List Text} (ht : cfg.Temp n t)
include ht

theorem settle_sound {key : Text} {x : Bytes} (h : HoldsTemp i n t x s) (hkey : isDigest key)
    (hx : H.sha x = key) :
    Serve.Sound H cfg i (fun _ _ => True) (Serve.settle t (blobPath cfg.root key)) s := by
  refine (rename_sound ht h hkey hx).bind fun ok s₁ _ hn => ?_
  split
  · exact fun _ _ _ => trivial
  · refine Contract.Sound.bind (pathExists_quiet _) fun there s₂ _ hr => ?_
    have hn₂ := hr.drawn n hn
    split
    · exact (unlink_sound ht hn₂).bind fun _ _ _ _ _ _ _ => trivial
    · exact (unlink_sound ht hn₂).bind fun _ _ _ _ _ _ _ => trivial

theorem write_sound (hn : s.drawn n = some i) (content : Bytes) :
    Serve.Sound H cfg i (fun ok s' => ok = true → HoldsTemp i n t content s')
      (Serve.write (t.map .down) content) s := by
  refine (create_sound ht hn).bind fun ok s₁ _ hok => ?_
  split
  · next h => exact append_sound ht (hok h) content
  · exact fun _ _ _ hfalse => by cases hfalse

end

theorem pure_sound {i : ι} {α : Type} (a : α) :
    Serve.Sound H cfg i (fun _ _ => True) (pure a : Serve α) s :=
  fun _ _ _ => trivial

theorem Serve.Quiet.sound {i : ι} {α : Type} {p : Serve α} (h : Serve.Quiet H cfg i p s) :
    Serve.Sound H cfg i (fun _ _ => True) p s :=
  Contract.Sound.imp h fun _ _ _ _ => trivial

theorem storeBlobBytesKnown_sound {i : ι} (bytes : Bytes) :
    Serve.Sound H cfg i (fun _ _ => True) (Serve.storeBlobBytesKnown H cfg (H.sha bytes) bytes) s := by
  have hkey := H.sha_isDigest bytes
  rw [Serve.storeBlobBytesKnown, if_neg (not_not.mpr rfl)]
  refine Contract.Sound.bind (createDirAll_store_quiet hkey (List.prefix_refl _)) fun ok s₁ _ _ => ?_
  split
  · refine Contract.Sound.bind (pathExists_quiet _) fun there s₂ _ _ => ?_
    split
    · exact pure_sound _
    · refine Contract.Sound.bind nextTmp_sound fun n s₃ _ hn => ?_
      have ht : cfg.Temp n (cfg.tmpPath (H.sha bytes) n) := .inr ⟨_, hkey, rfl⟩
      refine Contract.Sound.bind (write_sound ht hn bytes) fun written s₄ _ hwritten => ?_
      split
      · next h => exact settle_sound ht (hwritten h) hkey rfl
      · exact pure_sound _
  · exact pure_sound _

theorem storeBlobBytes_sound {i : ι} (bytes : Bytes) :
    Serve.Sound H cfg i (fun _ _ => True) (Serve.storeBlobBytes H cfg bytes) s := by
  refine (storeBlobBytesKnown_sound bytes).bind fun ok s₁ _ _ => ?_
  split <;> exact pure_sound _

theorem copyHashed_sound {i : ι} {n : ℕ} {t : List Text} (ht : cfg.Temp n t)
    (hn : s.drawn n = some i) (src : Path) :
    Serve.Sound H cfg i (fun copy s' => ∀ content, copy = some content → HoldsTemp i n t content s')
      (Serve.copyHashed src t) s := by
  refine Contract.Sound.bind (read_quiet src) fun opened s₁ _ hr => ?_
  split
  · refine Contract.Sound.bind (create_sound ht (hr.drawn n hn)) fun ok s₂ _ hok => ?_
    split
    · next h =>
      refine Contract.Sound.bind (read_quiet src) fun content s₃ _ hr' => ?_
      cases content with
      | none => exact fun _ _ _ _ hnone => by cases hnone
      | some content =>
        refine Contract.Sound.bind (append_sound ht ((hok h).later ht hr') content)
          fun written s₄ _ hwritten => ?_
        split
        · next h' =>
          intro s₅ _ hr'' content' hcontent
          cases hcontent
          exact (hwritten h').later ht hr''
        · exact fun _ _ _ _ hnone => by cases hnone
    · exact fun _ _ _ _ hnone => by cases hnone
  · exact fun _ _ _ _ hnone => by cases hnone

theorem storeBlobFromFileCompute_sound {i : ι} (src : Path) :
    Serve.Sound H cfg i (fun _ _ => True) (Serve.storeBlobFromFileCompute H cfg src) s := by
  refine Contract.Sound.bind (metadata_quiet src) fun kind s₁ _ _ => ?_
  split
  · refine Contract.Sound.bind nextTmp_sound fun n s₂ _ hn => ?_
    have ht : cfg.Temp n (cfg.tmpFile n) := .inl rfl
    have hstore : cfg.root ++ ["blobs".toList] <+: bucketDir cfg.root "blobs".toList (H.sha []) :=
      ⟨[(H.sha []).take 2], by simp [bucketDir]⟩
    refine Contract.Sound.bind (createDirAll_store_quiet (H.sha_isDigest []) hstore)
      fun ok s₃ _ hr => ?_
    split
    · refine Contract.Sound.bind (copyHashed_sound ht (hr.drawn n hn) src) fun copy s₄ _ hcopy => ?_
      cases copy with
      | none => exact pure_sound _
      | some content =>
        have hkey := H.sha_isDigest content
        have hholds := hcopy content rfl
        refine Contract.Sound.bind (createDirAll_store_quiet hkey (List.prefix_refl _))
          fun ok' s₅ _ hr₅ => ?_
        split
        · refine Contract.Sound.bind (pathExists_quiet _) fun there s₆ _ hr₆ => ?_
          have hholds' := (hholds.later ht hr₅).later ht hr₆
          split
          · exact (unlink_sound ht hholds'.drawn).bind fun _ _ _ _ => pure_sound _
          · refine (settle_sound ht hholds' hkey rfl).bind fun settled s₇ _ _ => ?_
            split <;> exact pure_sound _
        · exact pure_sound _
    · exact pure_sound _
  · exact pure_sound _

/-- What has been received is in the temporary file. -/
theorem receive_sound {i : ι} {n : ℕ} {t : List Text} (ht : cfg.Temp n t) (remaining : ℕ)
    {sofar : Bytes} (h : HoldsTemp i n t sofar s) (reads : List (Option Bytes)) :
    Serve.Sound H cfg i (fun body s' => ∀ x, body = some x → HoldsTemp i n t x s')
      (Serve.receive t remaining sofar reads) s := by
  induction reads generalizing remaining sofar s with
  | nil =>
    intro s₁ _ hr x hx
    cases hx
    exact h.later ht hr
  | cons got reads ih =>
    rw [Serve.receive]
    split
    · intro s₁ _ hr x hx
      cases hx
      exact h.later ht hr
    · split
      · exact fun _ _ _ _ hnone => by cases hnone
      · intro s₁ _ hr x hx
        cases hx
        exact h.later ht hr
      · next byte bytes _ =>
        refine Contract.Sound.bind (append_sound ht h (byte :: bytes)) fun ok s₁ _ hok => ?_
        split
        · next h' => exact ih _ (hok h')
        · exact fun _ _ _ _ hnone => by cases hnone

theorem handlePutBlob_sound {i : ι} {key : Text} (hkey : isDigest key) (clen : ℕ)
    (reads : List (Option Bytes)) :
    Serve.Sound H cfg i (fun _ _ => True) (Serve.handlePutBlob H cfg key clen reads) s := by
  refine Contract.Sound.bind (createDirAll_store_quiet hkey (List.prefix_refl _)) fun ok s₁ _ _ => ?_
  split
  · refine Contract.Sound.bind nextTmp_sound fun n s₂ _ hn => ?_
    have ht : cfg.Temp n (cfg.tmpPath key n) := .inr ⟨key, hkey, rfl⟩
    refine Contract.Sound.bind (create_sound ht hn) fun created s₃ _ hcreated => ?_
    split
    · next h =>
      refine Contract.Sound.bind (receive_sound ht clen (hcreated h) reads) fun body s₄ _ hbody => ?_
      cases body with
      | none => exact pure_sound _
      | some body =>
        have hholds := hbody body rfl
        simp only
        split
        · exact (unlink_sound ht hholds.drawn).bind fun _ _ _ _ => pure_sound _
        · next hsha =>
          refine Contract.Sound.bind (pathExists_quiet _) fun there s₅ _ hr => ?_
          split
          · exact (unlink_sound ht (hr.drawn n hholds.drawn)).bind fun _ _ _ _ => pure_sound _
          · refine (settle_sound ht (hholds.later ht hr) hkey (not_not.mp hsha)).bind
              fun settled s₆ _ _ => ?_
            split <;> exact pure_sound _
    · exact pure_sound _
  · exact pure_sound _

theorem execs_relPath (cfg : Config) (c : ℕ) (rel : Text) :
    cfg.execs.map .down <+: relPath (cfg.workHost c) rel := by
  have hwork : cfg.execs <+: cfg.workHost c := by
    rw [Config.execs, Config.workHost]
    exact ⟨_, List.append_assoc ..⟩
  exact (hwork.map Hop.down).trans (List.prefix_append _ _)

theorem createDirAll_parent_quiet {i : ι} (c : ℕ) (rel : Text) :
    Serve.Quiet H cfg i (Serve.createDirAll (relParent (cfg.workHost c) rel)) s := by
  apply createDirs_quiet
  intro dir name hdir s
  rw [List.reverse_reverse, relParent] at hdir
  have hwork : cfg.execs <+: cfg.workHost c ++ (Cache.components rel).filterMap Component.name := by
    rw [Config.execs, Config.workHost]
    exact ⟨_, by rw [List.append_assoc, List.append_assoc]; rfl⟩
  have hroot : cfg.root <+: bucketDir cfg.root "blobs".toList (H.sha []) := List.prefix_append _ _
  have hexecs : cfg.execs <+: dir ++ [name] →
      Serve.Quiet H cfg i (Serve.mkdir ((dir ++ [name]).map .down)) s := by
    intro h
    apply collecting_quiet (.mkdir _) (fun h => by cases h)
    intro path hpath
    rw [List.mem_singleton.mp hpath]
    exact h.map Hop.down
  rcases List.prefix_or_prefix_of_prefix (hdir.trans (List.dropLast_prefix _)) hwork with h | h
  · rcases List.prefix_concat_iff.mp h with h | h
    · exact hexecs (by rw [h, Config.execs])
    · exact mkdir_quiet (H.sha_isDigest []) (h.trans hroot)
  · exact hexecs h

section
variable {i : ι} (c : ℕ) (rel rel' : Text)

theorem write_collecting_quiet (content : Bytes) :
    Serve.Quiet H cfg i (Serve.write (relPath (cfg.workHost c) rel) content) s := by
  have hpath := execs_relPath cfg c rel
  refine (collecting_quiet (.create _) (fun h => by cases h) ?_).bind fun ok s₁ => ?_
  · intro path h
    rwa [List.mem_singleton.mp h]
  · split
    · apply collecting_quiet (.append _ _) (fun h => by cases h)
      intro path h
      rwa [List.mem_singleton.mp h]
    · exact quiet_pure _

theorem unlink_collecting_quiet :
    Serve.Quiet H cfg i (Serve.unlink (relPath (cfg.workHost c) rel)) s := by
  apply collecting_quiet (.unlink _) (fun h => by cases h)
  intro path h
  rw [List.mem_singleton.mp h]
  exact execs_relPath cfg c rel

theorem rename_collecting_quiet :
    Serve.Quiet H cfg i
      (Serve.rename (relPath (cfg.workHost c) rel) (relPath (cfg.workHost c) rel')) s := by
  apply collecting_quiet (.rename _ _) (fun h => by cases h)
  intro path h
  simp only [FileOp.paths, List.mem_cons, List.not_mem_nil, or_false] at h
  rcases h with rfl | rfl <;> exact execs_relPath cfg c _

end

theorem produce_quiet {i : ι} (c : ℕ) (req : ExecRequest) (ran : Ran) :
    Serve.Quiet H cfg i (Serve.produce (cfg.workHost c) req ran) s := by
  refine (pathExists_quiet _).bind fun tmpExists s₁ => ?_
  split
  · exact quiet_pure _
  · split
    · exact quiet_pure _
    · have hstdout : ∀ s, Serve.Quiet H cfg i (Serve.writeStdout (cfg.workHost c) req ran.stdout) s := by
        intro s
        rw [Serve.writeStdout]
        split
        · exact quiet_pure _
        · exact (createDirAll_parent_quiet c _).bind fun _ _ =>
            (write_collecting_quiet c _ _).bind fun _ _ => quiet_pure _
      have hmove : ∀ s, Serve.Quiet H cfg i (Serve.moveOutput (cfg.workHost c) req) s := by
        intro s
        refine (pathExists_quiet _).bind fun there s₁ => ?_
        split
        · exact (createDirAll_parent_quiet c _).bind fun _ _ =>
            (rename_collecting_quiet c _ _).bind fun _ _ => quiet_pure _
        · exact (unlink_collecting_quiet c _).bind fun _ _ => quiet_pure _
      exact (hstdout _).bind fun _ _ => (hmove _).bind fun _ _ => quiet_pure _

theorem ensureTrace_quiet {i : ι} (c : ℕ) (req : ExecRequest) :
    Serve.Quiet H cfg i (Serve.ensureTrace H (cfg.workHost c) req) s := by
  refine (pathExists_quiet _).bind fun there s₁ => ?_
  split
  · exact quiet_pure _
  · exact (write_collecting_quiet c _ _).bind fun _ _ => quiet_pure _

theorem collectFile_sound {i : ι} (path : Path) :
    Serve.Sound H cfg i (fun _ _ => True) (Serve.collectFile H cfg path) s := by
  refine Contract.Sound.bind (read_quiet path) fun content s₁ _ _ => ?_
  cases content with
  | none => exact pure_sound _
  | some content => exact storeBlobBytes_sound content

theorem collectTarget_sound {i : ι} (path : Path) (finalExit : ℕ) :
    Serve.Sound H cfg i (fun _ _ => True) (Serve.collectTarget H cfg path finalExit) s := by
  rw [Serve.collectTarget]
  split
  · exact pure_sound _
  · refine Contract.Sound.bind (metadata_quiet path) fun kind s₁ _ _ => ?_
    split
    · refine (storeBlobFromFileCompute_sound path).bind fun stored s₂ _ _ => ?_
      split
      · exact pure_sound _
      · exact storeBlobBytes_sound _
    · exact pure_sound _

theorem handlePostExec_sound {i : ι} (c : ℕ) (req : ExecRequest) (ran : Ran) :
    Serve.Sound H cfg i (fun _ _ => True)
      (Serve.handlePostExec H cfg (cfg.workHost c) req ran) s := by
  have hcollect : Serve.Sound H cfg i (fun _ _ => True)
      (Serve.collectOutputs H cfg (cfg.workHost c) req ran) s :=
    (produce_quiet c req ran).sound.bind fun finalExit _ _ _ =>
    (ensureTrace_quiet c req).sound.bind fun _ _ _ _ =>
    (storeBlobBytes_sound _).bind fun _ _ _ _ =>
    (storeBlobBytes_sound _).bind fun _ _ _ _ =>
    (collectFile_sound _).bind fun _ _ _ _ =>
    (collectFile_sound _).bind fun _ _ _ _ =>
    (collectTarget_sound _ finalExit).bind fun _ _ _ _ => pure_sound _
  rw [Serve.handlePostExec]
  split
  · exact pure_sound _
  · exact hcollect.bind fun _ _ _ _ => pure_sound _

theorem blobContract_admits : (blobContract (ι := ι) H cfg).Admits (ServesGuarded H cfg)
    (Starts H cfg) (Around cfg) where
  starts := by
    rintro p ⟨r, hr, rfl⟩ i s _
    cases r with
    | put key clen reads =>
      exact (handlePutBlob_sound hr clen reads).bind fun _ _ _ _ => pure_sound _
    | exec c req ran => exact (handlePostExec_sound c req ran).bind fun _ _ _ _ => pure_sound _
  inv s s' hs h := h.beside.content hs
  keeps s s' _ h := h.beside.kept
  rely s s' hs h i := (h.quietly (H := H) hs i).own

theorem visible_iff (hs : Content H cfg s) (key : Text) (x : Bytes) :
    s.host.visible cfg key = some x ↔ s.host.tree.DirsOn [] (blobPath cfg.root key) ∧
      ∃ m, s.host.tree.node (blobPath cfg.root key) = some (.file x m) :=
  Kernel.read_iff (plain_near hs (.inr store_blobPath)) x

/-- What can be fetched stays so. -/
theorem Kept.visible (h : Kept cfg s s') (hs : Content H cfg s) (hs' : Content H cfg s') {key : Text}
    {x : Bytes} (hkey : isDigest key) (hx : s.host.visible cfg key = some x) :
    s'.host.visible cfg key = some x := by
  rw [visible_iff hs] at hx
  obtain ⟨hdirs, m, hfile⟩ := hx
  rw [visible_iff hs']
  refine ⟨?_, h.blobs key x m hkey hfile⟩
  intro k hk
  have hbelow : [] ++ (blobPath cfg.root key).take k <+: bucketDir cfg.root "blobs".toList key := by
    rw [blobPath, List.length_append, List.length_singleton] at hk
    rw [List.nil_append, blobPath, List.take_append_of_le_length (by omega)]
    exact List.take_prefix _ _
  exact h.dirs key _ hkey hbelow (hdirs k hk)

end

section
variable {ι : Type} [DecidableEq ι]

/-- Nothing is being served, and the store is in order. -/
structure Begun (H : Hashing Bytes) (cfg : Config) (c : Pool ι (Shared ι) FileOp FileOp.Answer) :
    Prop where
  content : Content H cfg c.memory
  threads : ∀ i, c.threads i = .done ()

/-- For every run of uploads and collections in which no call of a collection changes
anything in the store, or above it, and no blob meets another content with its digest: what can
be fetched under a key has the key as its digest, and can be fetched from then on. -/
theorem blobs_content_addressed (H : Hashing Bytes) (cfg : Config)
    {c c' c'' : Pool ι (Shared ι) FileOp FileOp.Answer} (h : Begun H cfg c)
    (hrun : ReflTransGen (Pool.Step (ServesGuarded H cfg) (Starts H cfg) (Around cfg)) c c')
    (hlater : ReflTransGen (Pool.Step (ServesGuarded H cfg) (Starts H cfg) (Around cfg)) c' c'')
    {key : Text} (hkey : isDigest key) {x : Bytes} (hx : c'.memory.host.visible cfg key = some x) :
    H.sha x = key ∧ c''.memory.host.visible cfg key = some x := by
  have hstart : c.Holds (blobContract H cfg) (ServesGuarded H cfg) :=
    ⟨h.content, fun i => by rw [h.threads]; exact pure_sound ()⟩
  have hfirst := (Pool.run_holds blobContract_admits hrun hstart).1
  obtain ⟨hlast, hkept⟩ := Pool.run_holds blobContract_admits hlater hfirst
  constructor
  · obtain ⟨-, m, hfile⟩ := (visible_iff hfirst.inv key x).mp hx
    exact hfirst.inv.addressed key x m hkey hfile
  · exact Kept.visible hkept hfirst.inv hlast.inv hkey hx

end

/-- A thread that the others leave alone. -/
def alone (cfg : Config) (op : FileOp) (s : Shared Unit) : Outcome (Shared Unit) Spots op.Answer :=
  ⟨(op.act cfg s.host).answer, ⟨(op.act cfg s.host).after, op.draws () s⟩,
    (op.act cfg s.host).touched⟩

def downNames (p : Path) : List Text :=
  p.filterMap fun
    | .down name => some name
    | _ => none

theorem downNames_map (p : List Text) : downNames (p.map .down) = p := by
  simp [downNames, List.filterMap_map]

/-- A call on the store that puts no file in the place of another. -/
def Plainly (cfg : Config) (op : FileOp) (s : Shared Unit) : Prop :=
  (op = .nextTmp ∨ ∃ path ∈ op.paths, ¬cfg.execs.map .down <+: path) ∧
    ∀ b ∈ op.paths.drop 1, (s.host.tree.node (downNames b)).isNone

instance (cfg : Config) (op : FileOp) (s : Shared Unit) : Decidable (Plainly cfg op s) :=
  inferInstanceAs (Decidable (_ ∧ _))

theorem Plainly.guarded {H : Hashing Bytes} {cfg : Config} {op : FileOp} {s : Shared Unit}
    (h : Plainly cfg op s) : Guarded H cfg op s.host where
  confined := by
    intro hpaths p hp
    rcases h.1 with rfl | ⟨path, hpath, hnot⟩
    · cases List.mem_singleton.mp hp
    · exact absurd (hpaths path hpath) hnot
  noCollision := by
    rintro tmp key rfl x y m m' - hy -
    have hnone := h.2 _ (List.mem_singleton.mpr rfl)
    rw [downNames_map, hy] at hnone
    cases hnone

def idle (s : Host) : Pool Unit (Shared Unit) FileOp FileOp.Answer :=
  ⟨⟨s, fun _ => none⟩, fun _ => .done ()⟩

/-- A store without files is in order. -/
theorem begun_of_dirs {H : Hashing Bytes} {cfg : Config} {s : Host}
    (h : ∀ p ∈ s.tree.names, p <+: cfg.store ∨ cfg.store <+: p → (s.tree.node p).all Node.isDir) :
    Begun H cfg (idle s) where
  threads _ := rfl
  content := by
    have hdir : ∀ p n, s.tree.node p = some n → p <+: cfg.store ∨ cfg.store <+: p → n.isDir := by
      intro p n hn hp
      have hall := h p (s.tree.complete p (by rw [hn]; rfl)) hp
      rw [hn] at hall
      exact hall
    constructor
    · intro p hp fromRoot target hlink
      cases hdir p _ hlink hp
    · intro key x m _ hfile
      cases hdir _ _ hfile (.inr store_blobPath)
    · exact fun _ _ => rfl

/-- One request, served while no other is. -/
theorem run_alone {H : Hashing Bytes} {cfg : Config} {G : FileOp → Shared Unit → Prop}
    (acts : Acts Unit (Shared Unit) FileOp FileOp.Answer)
    (h : ∀ op s, G op s → acts () op s (alone cfg op s).answer (alone cfg op s).after) {r : Request}
    (hr : r.Routed) {m : Shared Unit} (hmeets : (r.program H cfg).Meets (alone cfg) G m) :
    ReflTransGen (Pool.Step acts (Starts H cfg) (Around cfg)) ⟨m, fun _ => .done ()⟩
      ⟨((r.program H cfg).run (alone cfg) m).after, fun _ => .done ()⟩ := by
  refine .head (.start () rfl ⟨r, hr, rfl⟩) ?_
  have hrun : ReflTransGen (Pool.Step acts (Starts H cfg) (Around cfg)) _ _ :=
    Pool.run_thread h (r.program H cfg) m hmeets
      (Function.update (fun _ => .done ()) () (r.program H cfg)) (Function.update_self ..)
  have hdone : Function.update (Function.update (fun _ : Unit => (.done () : Serve Unit)) ()
      (r.program H cfg)) () (.done ()) = fun _ => .done () := by
    funext i
    rfl
  rw [hdone] at hrun
  exact hrun

/-- An upload in two pieces. -/
def upload : Request := .put (summing.sha [72, 105]) 2 [some [72], some [105]]

/-- Another upload, of a file that differs. -/
def uploadNext : Request := .put (summing.sha [73]) 1 [some [73]]

/-- The store after the first upload. -/
def uploaded : Shared Unit :=
  ((upload.program summing cacheServer).run (alone cacheServer) ⟨server [] [], fun _ => none⟩).after

theorem blobs_content_addressed_upload :
    summing.sha [72, 105] = summing.sha [72, 105] ∧
      ((uploadNext.program summing cacheServer).run (alone cacheServer) uploaded).after.host.visible
        cacheServer (summing.sha [72, 105]) = some [72, 105] := by
  have hbegun : Begun summing cacheServer (idle (server [] [])) := begun_of_dirs (by decide +kernel)
  have hacts : ∀ op s, Plainly cacheServer op s →
      ServesGuarded summing cacheServer () op s (alone cacheServer op s).answer
        (alone cacheServer op s).after := fun op s h => ⟨.answered op s, Plainly.guarded h⟩
  have hfirst : (upload.program summing cacheServer).Meets (alone cacheServer) (Plainly cacheServer)
      ⟨server [] [], fun _ => none⟩ := by decide +kernel
  have hnext : (uploadNext.program summing cacheServer).Meets (alone cacheServer)
      (Plainly cacheServer) uploaded := by decide +kernel
  have hrun := run_alone (r := upload) _ hacts (summing.sha_isDigest _) hfirst
  have hlater := run_alone (r := uploadNext) _ hacts (summing.sha_isDigest _) hnext
  exact blobs_content_addressed summing cacheServer hbegun hrun hlater (summing.sha_isDigest _)
    (by decide +kernel)

/-- The target lies behind a link to a directory of the store. -/
def overwriting : Request :=
  .exec 0 { compile with targetRel := "d/".toList ++ List.replicate 64 'a' } ⟨0, [], []⟩

def linked : Host :=
  let s := server [] [(["d".toList],
      .link true [.down "srv".toList, .down "blobs".toList, .down "aa".toList]),
    (["tmp".toList], .file [2] 0o644)]
  let blobs := s.tree.put ["srv".toList, "blobs".toList] .dir
  ⟨blobs.put ["srv".toList, "blobs".toList, "aa".toList] .dir, s.counter⟩

/-- The collection moves its output into the store, under a name that is no digest of it. -/
theorem not_blobs_content_addressed :
    ¬∀ (H : Hashing Bytes) (cfg : Config) (c c' c'' : Pool Unit (Shared Unit) FileOp FileOp.Answer),
      Begun H cfg c → ReflTransGen (Pool.Step (Serves cfg) (Starts H cfg) (Around cfg)) c c' →
      ReflTransGen (Pool.Step (Serves cfg) (Starts H cfg) (Around cfg)) c' c'' →
      ∀ (key : Text) (x : Bytes), isDigest key → c'.memory.host.visible cfg key = some x →
        H.sha x = key ∧ c''.memory.host.visible cfg key = some x := by
  intro h
  have hbegun : Begun summing cacheServer (idle linked) := begun_of_dirs (by decide +kernel)
  have hmeets : (overwriting.program summing cacheServer).Meets (alone cacheServer)
      (fun _ _ => True) ⟨linked, fun _ => none⟩ := by decide +kernel
  have hrouted : overwriting.Routed := trivial
  have hrun := run_alone (Serves cacheServer) (fun op s _ => .answered op s) hrouted hmeets
  have hsha := (h summing cacheServer _ _ _ hbegun hrun .refl (List.replicate 64 'a') [2]
    (by decide +kernel) (by decide +kernel)).1
  revert hsha
  decide +kernel

end Redo.Remote
