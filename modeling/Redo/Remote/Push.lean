import Mathlib.Data.Set.Function
import Redo.Remote.Actions

/-! # Pushing to the remote cache

A client uploads the artifact, then its manifest, then the mapping, and does not look at
how the uploads before went. No mapping dangles in a run whose clients go on only when the
server holds the blob that they have tried to upload.
-/
namespace Redo.Remote
open Library Relation

/-- What the local cache has written down of an artifact. -/
structure CachedMeta where
  mode : UInt32
  size : UInt64
  sha256 : Text
deriving DecidableEq, Repr

structure Pushed where
  key : Text
  cached : CachedMeta
deriving DecidableEq, Repr

def Pushed.manifest (p : Pushed) : ArtifactManifest where
  blobSha256 := p.cached.sha256
  size := p.cached.size.toNat
  mode := (p.cached.mode &&& 0o777).toNat

variable {Body : Type*} (H : Hashing Body) (bodies : Set Body)

def Pushed.manHex (p : Pushed) : Text := H.sha (H.bytes (manifestJson p.manifest))

structure Store (Body : Type*) where
  server : Server
  blobs : Text → Option Body

/-- A body that is there already is not replaced. -/
def Store.putBlob (s : Store Body) (b : Body) : Store Body :=
  if (s.blobs (H.sha b)).isSome then s
  else { s with blobs := Function.update s.blobs (H.sha b) (some b) }

/-- What a client, or the server's thread for its last request, is about to do. -/
inductive Push where
  | idle
  | blob (p : Pushed)
  | manifest (p : Pushed)
  | mapping (p : Pushed)
  | serving (h : Handler)
deriving DecidableEq, Repr

/-- All uploads of a run are among `bodies`. -/
inductive PushStep : Moves (Store Body) Push
  | start {s : Store Body} {p : Pushed} (hsha : p.cached.sha256 ≠ [])
    (hbody : H.bytes (manifestJson p.manifest) ∈ bodies) : PushStep s .idle s (.blob p)
  -- the server takes the file of the local cache only if it has the digest of the metadata
  | blobStored {s : Store Body} {p : Pushed} {b : Body} (hb : b ∈ bodies)
    (hsha : H.sha b = p.cached.sha256) : PushStep s (.blob p) (s.putBlob H b) (.manifest p)
  | blobFailed {s : Store Body} {p : Pushed} : PushStep s (.blob p) s (.manifest p)
  | manifestStored {s : Store Body} {p : Pushed} : PushStep s (.manifest p)
    (s.putBlob H (H.bytes (manifestJson p.manifest))) (.mapping p)
  | manifestFailed {s : Store Body} {p : Pushed} : PushStep s (.manifest p) s (.mapping p)
  | send {s : Store Body} {p : Pushed} {manifest : Text} (hkey : isDigest p.key)
    (hbody : mappingManifest (mappingJson (p.manHex H)) = some manifest)
    (hman : isDigest manifest) : PushStep s (.mapping p) s (.serving (.looking p.key manifest))
  | serve {s : Store Body} {server : Server} {t t' : Handler}
    (h : HandlePutAction s.server t server t') :
    PushStep s (.serving t) { s with server := server } (.serving t')
  -- an upload whose answer was lost, or an output of an execution on the server
  | late {s : Store Body} {t : Push} {b : Body} (hb : b ∈ bodies) : PushStep s t (s.putBlob H b) t
  | stop {s : Store Body} {t : Push} : PushStep s t s .idle

/-- The manifest is stored and parses, and the blob that it names is stored. -/
def Store.Complete (s : Store Body) (man : Text) : Prop :=
  ∃ b m, s.blobs man = some b ∧ parseArtifactManifestV1 (H.text b) = some m ∧
    (s.blobs m.blobSha256).isSome

def Store.NoDangling (s : Store Body) : Prop :=
  ∀ key text, s.server.actions key = some text → s.Complete H (firstLine text)

/-- A client goes on after an upload only when the server holds the blob. -/
structure Uploaded (s : Store Body) (t : Push) (s' : Store Body) (t' : Push) : Prop where
  blob : ∀ p, t = .blob p → t' = .manifest p → (s'.blobs p.cached.sha256).isSome
  manifest : ∀ p, t = .manifest p → t' = .mapping p → (s'.blobs (p.manHex H)).isSome

structure Fresh {ι : Type*} (c : Crowd ι (Store Body) Push) : Prop where
  actions : ∀ key, c.shared.server.actions key = none
  blobs : ∀ h b, c.shared.blobs h = some b → b ∈ bodies ∧ H.sha b = h
  threads : ∀ i, c.threads i = .idle

structure Store.Valid (s : Store Body) : Prop where
  blobs : ∀ h b, s.blobs h = some b → b ∈ bodies ∧ H.sha b = h
  noDangling : s.NoDangling H

def Handler.Maps (s : Store Body) : Handler → Prop
  | .looking _ man => s.Complete H man ∧ isDigest man
  | .creating _ man => s.Complete H man ∧ isDigest man
  | .replacing _ man temp => s.Complete H man ∧ isDigest man ∧ temp = man ++ ['\n']
  | .rechecking _ man => s.Complete H man ∧ isDigest man
  | .answered => True
  | .dropped => True
  | _ => False

def Push.Valid (s : Store Body) : Push → Prop
  | .idle => True
  | .blob p => H.bytes (manifestJson p.manifest) ∈ bodies
  | .manifest p => H.bytes (manifestJson p.manifest) ∈ bodies ∧ (s.blobs p.cached.sha256).isSome
  | .mapping p => H.bytes (manifestJson p.manifest) ∈ bodies ∧ (s.blobs p.cached.sha256).isSome ∧
    (s.blobs (p.manHex H)).isSome
  | .serving h => h.Maps H s

/-- No blob is lost. -/
structure Store.Grows (s s' : Store Body) : Prop where
  blobs : ∀ h b, s.blobs h = some b → s'.blobs h = some b

section
variable {H bodies} {s s' : Store Body}

theorem Pushed.manHex_isHex (p : Pushed) : isHex (p.manHex H) := isDigest_isHex (H.sha_isDigest _)

theorem Store.Grows.isSome (h : s.Grows s') {man : Text} (hs : (s.blobs man).isSome) :
    (s'.blobs man).isSome := by
  obtain ⟨b, hb⟩ := Option.isSome_iff_exists.mp hs
  rw [h.blobs man b hb]
  rfl

theorem Store.Grows.complete (h : s.Grows s') {man : Text} (hs : s.Complete H man) :
    s'.Complete H man := by
  obtain ⟨b, m, hb, hm, hblob⟩ := hs
  exact ⟨b, m, h.blobs man b hb, hm, h.isSome hblob⟩

theorem Store.grows_putBlob (s : Store Body) (b : Body) : s.Grows (s.putBlob H b) := by
  constructor
  intro h x hx
  rw [Store.putBlob]
  split
  · exact hx
  · next hnone =>
    have hne : h ≠ H.sha b := by
      rintro rfl
      exact hnone (Option.isSome_iff_exists.mpr ⟨x, hx⟩)
    simpa only [Function.update_of_ne hne] using hx

theorem Store.putBlob_server (s : Store Body) (b : Body) : (s.putBlob H b).server = s.server := by
  rw [Store.putBlob]
  split <;> rfl

theorem Store.Valid.putBlob (h : s.Valid H bodies) {b : Body} (hb : b ∈ bodies) :
    (s.putBlob H b).Valid H bodies where
  blobs := by
    intro k x hx
    rw [Store.putBlob] at hx
    split at hx
    · exact h.blobs k x hx
    · by_cases hk : k = H.sha b
      · subst hk
        simp only [Function.update_self, Option.some.injEq] at hx
        subst hx
        exact ⟨hb, rfl⟩
      · simp only [Function.update_of_ne hk] at hx
        exact h.blobs k x hx
  noDangling := by
    intro key text htext
    rw [Store.putBlob_server] at htext
    exact (s.grows_putBlob b).complete (h.noDangling key text htext)

theorem Handler.Maps.grows (h : s.Grows s') {t : Handler} (ht : t.Maps H s) : t.Maps H s' := by
  cases t with
  | looking => exact ⟨h.complete ht.1, ht.2⟩
  | creating => exact ⟨h.complete ht.1, ht.2⟩
  | replacing => exact ⟨h.complete ht.1, ht.2⟩
  | rechecking => exact ⟨h.complete ht.1, ht.2⟩
  | answered => trivial
  | dropped => trivial
  | _ => exact ht.elim

theorem Push.Valid.grows (h : s.Grows s') {t : Push} (ht : t.Valid H bodies s) :
    t.Valid H bodies s' := by
  cases t with
  | idle => trivial
  | blob => exact ht
  | manifest => exact ⟨ht.1, h.isSome ht.2⟩
  | mapping => exact ⟨ht.1, h.isSome ht.2.1, h.isSome ht.2.2⟩
  | serving => exact Handler.Maps.grows h ht

theorem pushStep_grows {t t' : Push} (h : PushStep H bodies s t s' t') : s.Grows s' := by
  cases h with
  | blobStored => exact s.grows_putBlob _
  | manifestStored => exact s.grows_putBlob _
  | late => exact s.grows_putBlob _
  | _ => exact ⟨fun _ _ hb => hb⟩

/-- A manifest that the server holds is the one that was printed: no other body of the run
has its digest. -/
theorem Store.Valid.complete (h : s.Valid H bodies) (inj : Set.InjOn H.sha bodies) {p : Pushed}
    (hp : Push.Valid H bodies s (.mapping p)) : s.Complete H (p.manHex H) := by
  obtain ⟨hbody, hblob, hman⟩ := hp
  obtain ⟨x, hx⟩ := Option.isSome_iff_exists.mp hblob
  obtain ⟨b, hb⟩ := Option.isSome_iff_exists.mp hman
  have hhex : isHex p.manifest.blobSha256 := by
    have hdigest := H.sha_isDigest x
    rw [(h.blobs _ _ hx).2] at hdigest
    exact isDigest_isHex hdigest
  have hprinted : b = H.bytes (manifestJson p.manifest) :=
    inj (h.blobs _ _ hb).1 hbody (h.blobs _ _ hb).2
  refine ⟨b, p.manifest, hb, ?_, hblob⟩
  rw [hprinted, H.text_bytes]
  exact parse_manifestJson hhex p.cached.size.toNat_lt (p.cached.mode &&& 0o777).toNat_lt

theorem handlePutAction_maps {t t' : Handler} {server : Server}
    (h : HandlePutAction s.server t server t') (ht : t.Maps H s) :
    t'.Maps H { s with server := server } := by
  have hgrows : s.Grows { s with server := server } := ⟨fun _ _ hb => hb⟩
  cases h with
  | request => exact ht.elim
  | invalid => exact ht.elim
  | absent => exact ⟨hgrows.complete ht.1, ht.2⟩
  | unreadable => exact ⟨hgrows.complete ht.1, ht.2⟩
  | create => exact ⟨hgrows.complete ht.1, ht.2, rfl⟩
  | renameFailed => exact ⟨hgrows.complete ht.1, ht.2.1⟩
  | _ => trivial

/-- Only the rename makes a mapping. -/
theorem handlePutAction_noDangling {t t' : Handler} {server : Server}
    (h : HandlePutAction s.server t server t') (ht : t.Maps H s) (hs : s.NoDangling H) :
    Store.NoDangling H { s with server := server } := by
  have hgrows : s.Grows { s with server := server } := ⟨fun _ _ hb => hb⟩
  cases h with
  | @rename _ key man temp =>
    intro k text htext
    simp only [Server.answer, Server.rename] at htext
    by_cases hk : k = key
    · subst hk
      rw [Function.update_self] at htext
      rw [← Option.some.inj htext, ht.2.2, firstLine_of_hex (isDigest_isHex ht.2.1)]
      exact hgrows.complete ht.1
    · rw [Function.update_of_ne hk] at htext
      exact hgrows.complete (hs k text htext)
  | _ => exact fun k text htext => hgrows.complete (hs k text htext)

theorem pushStep_keeps (inj : Set.InjOn H.sha bodies) :
    Keeps ((PushStep H bodies).given (Uploaded H)) (Store.Valid H bodies)
      (Push.Valid H bodies) where
  shared := by
    rintro s t s' t' ⟨h, -⟩ hs ht
    cases h with
    | blobStored hb => exact hs.putBlob hb
    | manifestStored => exact hs.putBlob ht.1
    | late hb => exact hs.putBlob hb
    | serve h => exact ⟨hs.blobs, handlePutAction_noDangling h ht hs.noDangling⟩
    | _ => exact hs
  own := by
    rintro s t s' t' ⟨h, hup⟩ hs ht
    have hgrows := pushStep_grows h
    cases h with
    | start _ hbody => exact hbody
    | blobStored => exact ⟨ht, hup.blob _ rfl rfl⟩
    | blobFailed => exact ⟨ht, hup.blob _ rfl rfl⟩
    | manifestStored => exact ⟨ht.1, hgrows.isSome ht.2, hup.manifest _ rfl rfl⟩
    | manifestFailed => exact ⟨ht.1, ht.2, hup.manifest _ rfl rfl⟩
    | send _ hbody hman =>
      rw [mappingManifest_mappingJson (Pushed.manHex_isHex _)] at hbody
      rw [← Option.some.inj hbody] at hman ⊢
      exact ⟨hs.complete inj ht, hman⟩
    | serve h => exact handlePutAction_maps h ht
    | late => exact ht.grows hgrows
    | stop => trivial
  others := by
    rintro s t s' t' u ⟨h, -⟩ _ _ hu
    exact hu.grows (pushStep_grows h)

end

variable {ι : Type*} [DecidableEq ι] {c₀ c : Crowd ι (Store Body) Push}

/-- In every interleaving of any number of pushes: when every client goes on only after
uploads whose blob the server holds, every mapping leads to a manifest that parses and to
the blob that it names. -/
theorem mappings_never_dangle (inj : Set.InjOn H.sha bodies) (start : Fresh H bodies c₀)
    (run : ReflTransGen (Crowd.Step ((PushStep H bodies).given (Uploaded H))) c₀ c) :
    c.shared.NoDangling H := by
  have hinit : c₀.Holds (Store.Valid H bodies) (Push.Valid H bodies) := by
    constructor
    · constructor
      · exact start.blobs
      · intro key text htext
        rw [start.actions key] at htext
        cases htext
    · intro i
      rw [start.threads i]
      trivial
  exact ((pushStep_keeps inj).run hinit run).shared.noDangling

/-- A hash in which the manifests of the run below have one digest, all else another. -/
def twoDigests : Hashing Text where
  bytes := id
  text := id
  sha b := if '\x7b' ∈ b then digest 'b' else digest 'c'
  text_bytes _ := rfl
  sha_isDigest b := by split <;> decide

def pushed : Pushed where
  key := digest 'a'
  cached := { mode := 0o644, size := 0, sha256 := digest 'c' }

def uploads : Set Text := {[], manifestJson pushed.manifest}

def newServer : Crowd Unit (Store Text) Push :=
  ⟨{ server := { actions := fun _ => none, log := [] }, blobs := fun _ => none }, fun _ => .idle⟩

theorem fresh_newServer : Fresh twoDigests uploads newServer where
  actions _ := rfl
  blobs _ _ h := by cases h
  threads _ := rfl

theorem twoDigests_injOn : Set.InjOn twoDigests.sha uploads := by
  rintro x (rfl | rfl) y (rfl | rfl) h
  · rfl
  · exact absurd h (by decide)
  · exact absurd h (by decide)
  · rfl

def mappingText : Text := pushed.manHex twoDigests ++ ['\n']

/-- All three uploads succeed. -/
theorem mappings_never_dangle_pushed :
    ∃ c : Crowd Unit (Store Text) Push,
      c.shared.server.actions pushed.key = some mappingText ∧ c.shared.NoDangling twoDigests := by
  have run : ReflTransGen (Crowd.Step ((PushStep twoDigests uploads).given (Uploaded twoDigests)))
      newServer _ :=
    .tail (.tail (.tail (.tail (.tail (.tail (.tail .refl
      (.move () ⟨.start (p := pushed) (by decide) (.inr rfl), ⟨nofun, nofun⟩⟩))
      (.move () ⟨.blobStored (b := []) (.inl rfl) rfl,
        ⟨fun _ hp _ => by cases hp; rfl, nofun⟩⟩))
      (.move () ⟨.manifestStored, ⟨nofun, fun _ hp _ => by cases hp; rfl⟩⟩))
      (.move () ⟨.send (by decide) rfl (by decide), ⟨nofun, nofun⟩⟩))
      (.move () ⟨.serve (.absent rfl), ⟨nofun, nofun⟩⟩))
      (.move () ⟨.serve .create, ⟨nofun, nofun⟩⟩))
      (.move () ⟨.serve .rename, ⟨nofun, nofun⟩⟩)
  exact ⟨_, rfl, mappings_never_dangle twoDigests uploads twoDigests_injOn fresh_newServer run⟩

/-- The upload of the artifact fails, the other two succeed. -/
theorem not_mappings_never_dangle :
    ¬∀ c₀ c : Crowd Unit (Store Text) Push, Fresh twoDigests uploads c₀ →
      ReflTransGen (Crowd.Step (PushStep twoDigests uploads)) c₀ c →
      c.shared.NoDangling twoDigests := by
  intro h
  have run : ReflTransGen (Crowd.Step (PushStep twoDigests uploads)) newServer _ :=
    .tail (.tail (.tail (.tail (.tail (.tail (.tail .refl
      (.move () (.start (p := pushed) (by decide) (.inr rfl))))
      (.move () .blobFailed))
      (.move () .manifestStored))
      (.move () (.send (by decide) rfl (by decide))))
      (.move () (.serve (.absent rfl))))
      (.move () (.serve .create)))
      (.move () (.serve .rename))
  obtain ⟨b, m, hb, hm, hblob⟩ := h _ _ fresh_newServer run pushed.key mappingText rfl
  have hbody : b = manifestJson pushed.manifest := (Option.some.inj hb).symm
  have hman : m = pushed.manifest := by
    rw [hbody] at hm
    exact (Option.some.inj ((parse_manifestJson (by decide) (by decide) (by decide)).symm.trans hm)).symm
  rw [hman] at hblob
  cases hblob

end Redo.Remote
