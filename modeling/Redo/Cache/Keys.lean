import Redo.Cache.Schedule
import Redo.Library.PrefixCode

/-! # The bytes that are hashed for an action key

Texts stand with their length in front, lists with their number of elements. So policy,
target and dependencies are read back from the bytes, and keys of different policies never
have the same bytes.
-/
namespace Redo.Cache
open State Library

def TAG : String := "0.42d"

def utf8 (s : String) : List UInt8 := s.toList.flatMap String.utf8EncodeChar

def hashStr (s : String) : List UInt8 := leBytes (utf8 s).length ++ utf8 s

/-- The length of a text is a 64-bit number. -/
def Fits (s : String) : Prop := (utf8 s).length < 18446744073709551616

instance (s : String) : Decidable (Fits s) := inferInstanceAs (Decidable (_ < _))

def policyBytes : Option String → List UInt8
  | none => []
  | some p => hashStr ("policy=" ++ p)

def modeByte (c : Char) : List UInt8 := [UInt8.ofNat c.toNat]

/-- A list of dependencies, whatever is hashed of the state of each. -/
def depsBytes {κ : Type} (state : κ → List UInt8) (deps : List (Char × String × κ)) : List UInt8 :=
  leBytes deps.length ++ deps.flatMap fun d => modeByte d.1 ++ (hashStr d.2.1 ++ state d.2.2)

/-- `compute_action_key_v0`, and with a policy `compute_action_key_v0_policy`. -/
def keyBytesV0 (policy : Option String) (k : ActionKey) : List UInt8 :=
  hashStr "redo-action-key-v0" ++
    (policyBytes policy ++ (hashStr TAG ++ (hashStr k.target ++ depsBytes hashStr k.deps)))

/-- What a link leads to. -/
inductive Referent where
  | missing
  | dir
  | file (sha256 : String) (mode : ℕ)
  | other
deriving DecidableEq, Repr

/-- What stands at the path of a dependency: a link with the text that is read from it, or
that says that none can be read. -/
inductive Content where
  | missing
  | dir
  | symlink (link : String) (referent : Referent)
  | file (sha256 : String) (mode : ℕ)
deriving DecidableEq, Repr

def Referent.tag : Referent → String
  | .missing => "REF_MISSING"
  | .dir => "REF_DIR"
  | .file .. => "REF_FILE"
  | .other => "REF_OTHER"

def Referent.rest : Referent → List UInt8
  | .file sha256 mode => hashStr sha256 ++ leBytes mode
  | _ => []

def Referent.bytes (r : Referent) : List UInt8 := hashStr r.tag ++ r.rest

def Content.tag : Content → String
  | .missing => "MISSING"
  | .dir => "DIR"
  | .symlink .. => "SYMLINK"
  | .file .. => "FILE"

def Content.rest : Content → List UInt8
  | .symlink link referent => hashStr link ++ referent.bytes
  | .file sha256 mode => hashStr sha256 ++ leBytes mode
  | _ => []

def Content.bytes (c : Content) : List UInt8 := hashStr c.tag ++ c.rest

structure RemoteKey where
  os : String
  arch : String
  target : String
  deps : List (Char × String × Content)
deriving DecidableEq, Repr

/-- `compute_action_key_v1_remote`, and with a policy `compute_action_key_v1_remote_policy`. -/
def keyBytesV1 (policy : Option String) (k : RemoteKey) : List UInt8 :=
  hashStr "redo-action-key-v1-remote" ++
    (policyBytes policy ++ (hashStr TAG ++ (hashStr k.os ++ (hashStr k.arch ++
      (hashStr k.target ++ depsBytes Content.bytes k.deps)))))

def FileFits (sha256 : String) (mode : ℕ) : Prop := Fits sha256 ∧ mode < 18446744073709551616

def Referent.Fits : Referent → Prop
  | .file sha256 mode => FileFits sha256 mode
  | _ => True

def Content.Fits : Content → Prop
  | .symlink link referent => Cache.Fits link ∧ referent.Fits
  | .file sha256 mode => FileFits sha256 mode
  | _ => True

structure DepsFit {κ : Type} (state : κ → Prop) (deps : List (Char × String × κ)) : Prop where
  length : deps.length < 18446744073709551616
  each : ∀ d ∈ deps, d.1.toNat < 256 ∧ Fits d.2.1 ∧ state d.2.2

structure KeyFits (policy : Option String) (k : ActionKey) : Prop where
  policy : ∀ p, policy = some p → Fits ("policy=" ++ p)
  target : Fits k.target
  deps : DepsFit Fits k.deps

structure RemoteKeyFits (policy : Option String) (k : RemoteKey) : Prop where
  policy : ∀ p, policy = some p → Fits ("policy=" ++ p)
  os : Fits k.os
  arch : Fits k.arch
  target : Fits k.target
  deps : DepsFit Content.Fits k.deps

theorem utf8_injective : Function.Injective utf8 := by
  intro s t h
  have hbytes : s.toList.utf8Encode = t.toList.utf8Encode := by
    simp only [List.utf8Encode]
    rw [← utf8, ← utf8, h]
  rw [String.utf8Encode_toList, String.utf8Encode_toList] at hbytes
  exact String.toByteArray_inj.mp hbytes

theorem hashStr_codeOn : CodeOn Fits hashStr :=
  leBytes_codeOn.withLength.comp (fun _ h => h) utf8_injective

theorem file_codeOn : CodeOn (fun x : String × ℕ => FileFits x.1 x.2)
    fun x => hashStr x.1 ++ leBytes x.2 :=
  hashStr_codeOn.pair leBytes_codeOn

theorem modeByte_codeOn : CodeOn (fun c : Char => c.toNat < 256) modeByte := by
  apply CodeOn.of_length (n := 1) fun _ => rfl
  intro c d hc hd h
  have hbyte := congrArg UInt8.toNat (List.cons.inj h).1
  simp only [UInt8.toNat_ofNat'] at hbyte
  apply Char.toNat_inj.mp
  omega

theorem Referent.tag_fits (r : Referent) : Cache.Fits r.tag := by
  cases r with
  | _ => rw [Referent.tag]; decide

theorem Content.tag_fits (c : Content) : Cache.Fits c.tag := by
  cases c with
  | _ => rw [Content.tag]; decide

/-- The tag says which fields follow. -/
theorem referent_codeOn : CodeOn Referent.Fits Referent.bytes := by
  intro a b s t ha hb he
  simp only [Referent.bytes, List.append_assoc] at he
  obtain ⟨htag, hrest⟩ := hashStr_codeOn _ _ _ _ a.tag_fits b.tag_fits he
  cases a <;> cases b <;> try (simp [Referent.tag] at htag; done)
  case file.file sha256 mode sha256' mode' =>
    obtain ⟨hsame, hend⟩ := file_codeOn (sha256, mode) (sha256', mode') s t ha hb hrest
    cases hsame
    exact ⟨rfl, hend⟩
  all_goals exact ⟨rfl, hrest⟩

theorem content_codeOn : CodeOn Content.Fits Content.bytes := by
  intro a b s t ha hb he
  simp only [Content.bytes, List.append_assoc] at he
  obtain ⟨htag, hrest⟩ := hashStr_codeOn _ _ _ _ a.tag_fits b.tag_fits he
  cases a <;> cases b <;> try (simp [Content.tag] at htag; done)
  case symlink.symlink link referent link' referent' =>
    obtain ⟨hsame, hend⟩ := hashStr_codeOn.pair referent_codeOn (link, referent) (link', referent')
      s t ha hb hrest
    cases hsame
    exact ⟨rfl, hend⟩
  case file.file sha256 mode sha256' mode' =>
    obtain ⟨hsame, hend⟩ := file_codeOn (sha256, mode) (sha256', mode') s t ha hb hrest
    cases hsame
    exact ⟨rfl, hend⟩
  all_goals exact ⟨rfl, hrest⟩

theorem depsBytes_codeOn {κ : Type} {fits : κ → Prop} {state : κ → List UInt8}
    (h : CodeOn fits state) : CodeOn (DepsFit fits) (depsBytes state) := by
  have hdep : CodeOn (fun d : Char × String × κ => d.1.toNat < 256 ∧ Fits d.2.1 ∧ fits d.2.2)
      fun d => modeByte d.1 ++ (hashStr d.2.1 ++ state d.2.2) :=
    modeByte_codeOn.pair (hashStr_codeOn.pair h)
  intro l l' s t hl hl'
  exact leBytes_codeOn.counted hdep l l' s t ⟨hl.length, hl.each⟩ ⟨hl'.length, hl'.each⟩

theorem policy_ne_tag (p : String) : "policy=" ++ p ≠ TAG := by
  intro h
  have hfirst := congrArg (fun s => s.toList.head?) h
  simp [TAG] at hfirst

/-- The text behind a policy is the version, which no policy starts with. -/
theorem policy_codeOn {policy policy' : Option String} {s t : List UInt8}
    (hp : ∀ p, policy = some p → Fits ("policy=" ++ p))
    (hp' : ∀ p, policy' = some p → Fits ("policy=" ++ p))
    (he : policyBytes policy ++ (hashStr TAG ++ s) = policyBytes policy' ++ (hashStr TAG ++ t)) :
    policy = policy' ∧ s = t := by
  have htag : Fits TAG := by decide
  cases policy with
  | none =>
    cases policy' with
    | none =>
      obtain ⟨-, hrest⟩ := hashStr_codeOn _ _ _ _ htag htag he
      exact ⟨rfl, hrest⟩
    | some p =>
      obtain ⟨hsame, -⟩ := hashStr_codeOn _ _ _ _ htag (hp' p rfl) he
      exact absurd hsame.symm (policy_ne_tag p)
  | some p =>
    cases policy' with
    | none =>
      obtain ⟨hsame, -⟩ := hashStr_codeOn _ _ _ _ (hp p rfl) htag he
      exact absurd hsame (policy_ne_tag p)
    | some p' =>
      obtain ⟨hsame, hrest⟩ := hashStr_codeOn _ _ _ _ (hp p rfl) (hp' p' rfl) he
      obtain ⟨-, hrest⟩ := hashStr_codeOn _ _ _ _ htag htag hrest
      rw [String.append_right_inj] at hsame
      exact ⟨by rw [hsame], hrest⟩

theorem keyBytesV0_inj {policy policy' : Option String} {k k' : ActionKey}
    (h : KeyFits policy k) (h' : KeyFits policy' k')
    (he : keyBytesV0 policy k = keyBytesV0 policy' k') : policy = policy' ∧ k = k' := by
  have hname : Fits "redo-action-key-v0" := by decide
  obtain ⟨-, hrest⟩ := hashStr_codeOn _ _ _ _ hname hname he
  obtain ⟨hpolicy, hrest⟩ := policy_codeOn h.policy h'.policy hrest
  obtain ⟨htarget, hdeps⟩ := hashStr_codeOn _ _ _ _ h.target h'.target hrest
  have hsame := (depsBytes_codeOn hashStr_codeOn).injOn h.deps h'.deps hdeps
  cases k
  cases k'
  cases htarget
  cases hsame
  exact ⟨hpolicy, rfl⟩

theorem keyBytesV1_inj {policy policy' : Option String} {k k' : RemoteKey}
    (h : RemoteKeyFits policy k) (h' : RemoteKeyFits policy' k')
    (he : keyBytesV1 policy k = keyBytesV1 policy' k') : policy = policy' ∧ k = k' := by
  have hname : Fits "redo-action-key-v1-remote" := by decide
  obtain ⟨-, hrest⟩ := hashStr_codeOn _ _ _ _ hname hname he
  obtain ⟨hpolicy, hrest⟩ := policy_codeOn h.policy h'.policy hrest
  obtain ⟨hos, hrest⟩ := hashStr_codeOn _ _ _ _ h.os h'.os hrest
  obtain ⟨harch, hrest⟩ := hashStr_codeOn _ _ _ _ h.arch h'.arch hrest
  obtain ⟨htarget, hdeps⟩ := hashStr_codeOn _ _ _ _ h.target h'.target hrest
  have hsame := (depsBytes_codeOn content_codeOn).injOn h.deps h'.deps hdeps
  cases k
  cases k'
  cases hos
  cases harch
  cases htarget
  cases hsame
  exact ⟨hpolicy, rfl⟩

end Redo.Cache
