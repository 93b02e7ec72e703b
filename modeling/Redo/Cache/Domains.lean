import Mathlib.Data.Set.Function
import Redo.Cache.Keys
import Redo.Cache.ReadTrace
import Redo.Library.Relations
import Redo.Remote.Wrapper

/-! # The domains of the cache

The settings of a build choose its policy before the recipe starts; the entry is stored
under that policy when it has ended. Where the recipe has run is up to the wrapper: an entry
keeps what the policy says of its build as long as a server answers each wrapper, and remote
traces are judged where they were taken.
-/
namespace Redo.Cache
open State Library Relation Remote

def STRICT_POLICY_READTRACE : String := "strict-readtrace"

/-- The settings of a build, and the two variables for remote execution. -/
structure Settings where
  strict : Bool
  remoteExec : String
  remotePlatformId : String

def Settings.platform (g : Settings) : String := String.ofList (trim g.remotePlatformId.toList)

def Settings.remoteExecWanted (g : Settings) : Bool :=
  flagOf g.remoteExec.toList && g.platform ≠ ""

def strictRemotePolicy (platform : String) : String :=
  STRICT_POLICY_READTRACE ++ (";remote_platform=" ++ platform)

def remotePolicy (platform : String) : String := "policy=remote-exec;platform=" ++ platform

def Settings.policyDomain (g : Settings) : Option String :=
  if g.remoteExecWanted then
    if g.strict then some (strictRemotePolicy g.platform) else some (remotePolicy g.platform)
  else if g.strict then some STRICT_POLICY_READTRACE
  else none

/-- Where a recipe has run: under the base of the build, or under `/work` on a server. -/
inductive Place where
  | here (base : Text)
  | remote (platform : String)
deriving DecidableEq, Repr

def Place.root : Place → Text
  | .here base => base
  | .remote _ => "/work".toList

/-- What the start and the completion of a build find. -/
structure Build (Body : Type) where
  settings : Settings
  base : Text
  target : String
  self : FileId
  /-- Whether a key was made when the build was scheduled. -/
  keyed : Bool
  /-- The recorded dependencies when the recipe is started. -/
  depsNow : List (Char × File)
  isPlain : String → Bool
  /-- The command line of the wrapper, but for the inputs. -/
  wargv : Job
  /-- What a wrapper would find, and what the recipe does here. -/
  world : Remote.World Body
  before : Outputs Body
  unstarted : before.ranHere = false
  /-- The code for a recipe that ends with 0 where it should not: 206, 207 or 209. -/
  fault : ℤ
  strictFail : Bool
  trace : Option (List Text)
  /-- The recorded dependencies when the trace is judged, and when the key is made. -/
  declared : List (Char × File)
  deps : List (Char × File)
  /-- Rows are deleted only by the builder that holds the lock. -/
  kept : ∀ d ∈ declared, d.2.name ∈ deps.map fun d => d.2.name
  disk : Disk
  committed : Bool
  isFile : Bool
  csum : Option String

/-- The recorded files to upload, unless one is no plain file, or one has come into being. -/
def remoteInputs (self : FileId) (isPlain present : String → Bool) :
    List (Char × File) → Option (List Text)
  | [] => some []
  | (mode, dep) :: rest =>
    if mode = 'm' then
      if dep.id = self ∨ dep.name = ALWAYS then remoteInputs self isPlain present rest
      else if isPlain dep.name then
        (remoteInputs self isPlain present rest).map (dep.name.toList :: ·)
      else none
    else if mode = 'c' ∧ present dep.name then none
    else remoteInputs self isPlain present rest

namespace Build
variable {Body : Type}

/-- The job of the wrapper, if the recipe is started through it. -/
def remoteExecJob (b : Build Body) : Option Job :=
  if b.settings.remoteExecWanted && b.keyed && b.world.configured then
    (remoteInputs b.self b.isPlain b.disk.pathExists b.depsNow).map ({ b.wargv with inputs := · })
  else none

variable (H : Hashing Body)

/-- The code of the process that has been started, if it ends. -/
def code (b : Build Body) : Option ℤ :=
  match b.remoteExecJob with
  | some j => (mainExit H b.world j.commandLine b.before).map Prod.fst
  | none => (b.world.ending b.before).map Prod.fst

def place (b : Build Body) : Place :=
  match b.remoteExecJob with
  | some j =>
    if (realMain H b.world j.commandLine b.before).2.ranHere then .here b.base
    else .remote b.settings.platform
  | none => .here b.base

def traceEntries (b : Build Body) : List Text :=
  b.trace.getD ["TRACE_UNAVAILABLE:read_failed".toList]

def strictCacheOk (b : Build Body) : Bool :=
  !b.settings.strict ||
    decide (Clean b.base (b.declared.map fun d => d.2.name.toList) b.traceEntries)

def finalRv (b : Build Body) : Option ℤ :=
  (b.code H).map fun rv =>
    if !b.strictCacheOk && b.strictFail then 218 else if rv = 0 then b.fault else rv

/-- The key under which the target is stored, if it is. -/
def stores (b : Build Body) : Option ActionKey :=
  if b.finalRv H ≠ some 0 ∨ !b.committed ∨ !b.keyed then none
  else if b.settings.strict && !b.strictCacheOk then none
  else if !b.isFile ∨ b.csum.isSome then none
  else
    match computeActionKey b.disk b.target b.deps with
    | .skipAlways => none
    | .eligible key => some key

end Build

/-- A stored entry, with what it was stored under and where it comes from. -/
structure Entry where
  policy : Option String
  target : String
  deps : List (Char × String)
  place : Place
  trace : List Text
deriving DecidableEq, Repr

def Build.entry {Body : Type} (H : Hashing Body) (b : Build Body) (key : ActionKey) : Entry where
  policy := b.settings.policyDomain
  target := key.target
  deps := key.deps.map fun d => (d.1, d.2.1)
  place := b.place H
  trace := b.traceEntries

def IsStrict (policy : String) : Prop :=
  policy = STRICT_POLICY_READTRACE ∨ ∃ platform, policy = strictRemotePolicy platform

def IsRemote (platform policy : String) : Prop :=
  policy = strictRemotePolicy platform ∨ policy = remotePolicy platform

/-- What the policy of an entry says of its build. -/
structure Entry.Sound (e : Entry) : Prop where
  strict : ∀ policy, e.policy = some policy → IsStrict policy →
    Clean e.place.root (e.deps.map fun d => d.2.toList) e.trace
  remote : ∀ policy platform, e.policy = some policy → IsRemote platform policy →
    e.place = .remote platform

/-- The local cache of each client, the server's, and every entry that was ever stored. -/
structure Caches (ι δ : Type) where
  disk : ι → δ → Option Entry
  server : δ → Option Entry
  log : List Entry

variable {ι δ Body : Type} [DecidableEq ι] [DecidableEq δ]

def Caches.store (s : Caches ι δ) (i : ι) (d : δ) (e : Option Entry) : Caches ι δ :=
  { s with disk := Function.update s.disk i (Function.update (s.disk i) d e) }

/-- The same target and the same dependencies. -/
structure SameNames (k : ActionKey) (k' : RemoteKey) : Prop where
  target : k.target = k'.target
  deps : (k.deps.map fun d => (d.1, d.2.1)) = k'.deps.map fun d => (d.1, d.2.1)

/-- A key as it is hashed; `hashed` are the byte strings that are ever hashed. -/
structure Hashes (hashed : Set (List UInt8)) (policy : Option String) (k : ActionKey) : Prop where
  fits : KeyFits policy k
  mem : keyBytesV0 policy k ∈ hashed

structure RemoteHashes (hashed : Set (List UInt8)) (policy : Option String) (k : RemoteKey) :
    Prop where
  fits : RemoteKeyFits policy k
  mem : keyBytesV1 policy k ∈ hashed

variable (H : Hashing Body) (sha : List UInt8 → δ) (hashed : Set (List UInt8))

/-- Entries come into the caches, and leave them; `ok` restricts the builds. -/
inductive CacheStep (ok : Build Body → Prop) : Caches ι δ → Caches ι δ → Prop
  | finish {s : Caches ι δ} {i : ι} {b : Build Body} {k : ActionKey} (hb : ok b)
    (hstores : b.stores H = some k) (hk : Hashes hashed b.settings.policyDomain k)
    (hnone : s.disk i (sha (keyBytesV0 b.settings.policyDomain k)) = none) :
    CacheStep ok s
      { s.store i (sha (keyBytesV0 b.settings.policyDomain k)) (some (b.entry H k)) with
        log := b.entry H k :: s.log }
  -- what stands under the local key is pushed, whether or not this build has stored it
  | push {s : Caches ι δ} {i : ι} {policy : Option String} {k : ActionKey} {k' : RemoteKey}
    {e : Entry} (hk : Hashes hashed policy k) (hk' : RemoteHashes hashed policy k')
    (hsame : SameNames k k') (he : s.disk i (sha (keyBytesV0 policy k)) = some e) :
    CacheStep ok s { s with
      server := Function.update s.server (sha (keyBytesV1 policy k')) (some e) }
  -- a hit on the server is stored locally as well
  | restore {s : Caches ι δ} {i : ι} {policy : Option String} {k : ActionKey} {k' : RemoteKey}
    {e : Entry} (hk : Hashes hashed policy k) (hk' : RemoteHashes hashed policy k')
    (hsame : SameNames k k') (he : s.server (sha (keyBytesV1 policy k')) = some e) :
    CacheStep ok s (s.store i (sha (keyBytesV0 policy k)) (some e))
  | collect {s : Caches ι δ} {i : ι} {d : δ} : CacheStep ok s (s.store i d none)

/-- A lookup answers only entries that were stored under the same policy, target and names
of dependencies. -/
structure Separated (s : Caches ι δ) : Prop where
  disk : ∀ i policy k e, Hashes hashed policy k → s.disk i (sha (keyBytesV0 policy k)) = some e →
    e ∈ s.log ∧ e.policy = policy ∧ e.target = k.target ∧
      e.deps = k.deps.map fun d => (d.1, d.2.1)
  server : ∀ policy k e, RemoteHashes hashed policy k →
    s.server (sha (keyBytesV1 policy k)) = some e →
    e ∈ s.log ∧ e.policy = policy ∧ e.target = k.target ∧
      e.deps = k.deps.map fun d => (d.1, d.2.1)

/-- The recipe is started through the wrapper, and a server answers it with an output. -/
def Build.Answered (b : Build Body) : Prop := ∃ j, b.remoteExecJob = some j ∧ b.world.Answered j

def Build.AnsweredIfWanted (b : Build Body) : Prop :=
  b.settings.remoteExecWanted = true → b.Answered

/-- What is to run remotely does; and a remote trace is judged where it was taken. -/
structure Build.Proper (b : Build Body) : Prop where
  answered : b.AnsweredIfWanted
  base : b.settings.strict = true → b.settings.remoteExecWanted = true → b.base = "/work".toList

structure NewCaches (s : Caches ι δ) : Prop where
  disk : ∀ i d, s.disk i d = none
  server : ∀ d, s.server d = none
  log : s.log = []

section
variable {g : Settings} {policy platform platform' : String}

theorem strictRemotePolicy_inj (h : strictRemotePolicy platform = strictRemotePolicy platform') :
    platform = platform' :=
  (String.append_right_inj _).mp ((String.append_right_inj _).mp h)

theorem remotePolicy_inj (h : remotePolicy platform = remotePolicy platform') :
    platform = platform' :=
  (String.append_right_inj _).mp h

theorem head_append {a : String} {c : Char} (h : a.toList.head? = some c) (b : String) :
    (a ++ b).toList.head? = some c := by
  rw [String.toList_append, List.head?_append, h]
  rfl

theorem ne_remotePolicy {p : String} (h : p.toList.head? = some 's') : p ≠ remotePolicy platform := by
  rintro rfl
  have hfirst : (remotePolicy platform).toList.head? = some 'p' := head_append (by decide) platform
  rw [h] at hfirst
  cases hfirst

theorem strictRemotePolicy_ne_remotePolicy : strictRemotePolicy platform ≠ remotePolicy platform' :=
  ne_remotePolicy (head_append (by decide) _)

theorem strict_ne_remotePolicy : STRICT_POLICY_READTRACE ≠ remotePolicy platform :=
  ne_remotePolicy (by decide)

theorem strict_ne_strictRemotePolicy : STRICT_POLICY_READTRACE ≠ strictRemotePolicy platform := by
  intro h
  have hlength := congrArg String.length h
  have hmore : 0 < (";remote_platform=" : String).length := by decide
  rw [strictRemotePolicy, String.length_append, String.length_append] at hlength
  omega

/-- The strict policies are those of strict builds. -/
theorem isStrict_iff (h : g.policyDomain = some policy) : IsStrict policy ↔ g.strict = true := by
  rw [Settings.policyDomain] at h
  cases hw : g.remoteExecWanted <;> cases hs : g.strict <;> rw [hw, hs] at h <;> cases h
  · exact ⟨fun _ => rfl, fun _ => .inl rfl⟩
  · constructor
    · rintro (h | ⟨platform, h⟩)
      · exact absurd h.symm strict_ne_remotePolicy
      · exact absurd h.symm strictRemotePolicy_ne_remotePolicy
    · intro h
      cases h
  · exact ⟨fun _ => rfl, fun _ => .inr ⟨_, rfl⟩⟩

/-- The policies of a platform are those of builds for remote execution there. -/
theorem isRemote_iff (h : g.policyDomain = some policy) :
    IsRemote platform policy ↔ g.remoteExecWanted = true ∧ platform = g.platform := by
  rw [Settings.policyDomain] at h
  cases hw : g.remoteExecWanted <;> cases hs : g.strict <;> rw [hw, hs] at h <;> cases h
  · constructor
    · rintro (h | h)
      · exact absurd h strict_ne_strictRemotePolicy
      · exact absurd h strict_ne_remotePolicy
    · rintro ⟨h, -⟩
      cases h
  · constructor
    · rintro (h | h)
      · exact absurd h.symm strictRemotePolicy_ne_remotePolicy
      · exact ⟨rfl, (remotePolicy_inj h).symm⟩
    · rintro ⟨-, rfl⟩
      exact .inr rfl
  · constructor
    · rintro (h | h)
      · exact ⟨rfl, (strictRemotePolicy_inj h).symm⟩
      · exact absurd h strictRemotePolicy_ne_remotePolicy
    · rintro ⟨-, rfl⟩
      exact .inl rfl

end

theorem hashDeps_names {disk : Disk} {l : List (Char × File)} {ds : List (Char × String × Stamp)}
    (h : hashDeps disk l = some ds) :
    ds.map (fun d => (d.1, d.2.1)) = l.map fun d => (d.1, d.2.name) := by
  induction l generalizing ds with
  | nil =>
    cases h
    rfl
  | cons d l ih =>
    rw [hashDeps] at h
    split at h
    · cases h
    · obtain ⟨ds', hds', rfl⟩ := Option.map_eq_some_iff.mp h
      rw [List.map_cons, List.map_cons, ih hds']

namespace Build
variable {H : Hashing Body} {b : Build Body} {k : ActionKey}

theorem stores_key (h : b.stores H = some k) :
    computeActionKey b.disk b.target b.deps = .eligible k := by
  rw [stores] at h
  split at h
  · cases h
  · split at h
    · cases h
    · split at h
      · cases h
      · cases hkey : computeActionKey b.disk b.target b.deps with
        | skipAlways =>
          rw [hkey] at h
          cases h
        | eligible key =>
          rw [hkey] at h
          cases h
          rfl

/-- What is stored comes from a process that has ended with 0. -/
theorem code_of_stores (h : b.stores H = some k) : b.code H = some 0 := by
  by_contra hne
  rw [stores, if_pos] at h
  · cases h
  · left
    intro hzero
    obtain ⟨rv, hrv, hfinal⟩ := Option.map_eq_some_iff.mp hzero
    split at hfinal
    · cases hfinal
    · split at hfinal
      · next hz => exact hne (hz ▸ hrv)
      · next hz => exact hz hfinal

/-- The key names the dependencies, in its own order. -/
theorem mem_names (h : b.stores H = some k) (name : Text) :
    name ∈ (b.entry H k).deps.map (fun d => d.2.toList) ↔
      name ∈ b.deps.map fun d => d.2.name.toList := by
  have hkey := stores_key h
  rw [computeActionKey] at hkey
  cases hdeps : hashDeps b.disk (b.deps.insertionSort keyLe) with
  | none =>
    rw [hdeps] at hkey
    cases hkey
  | some ds =>
    rw [hdeps] at hkey
    cases hkey
    simp only [entry, hashDeps_names hdeps, List.map_map, List.mem_map, List.mem_insertionSort,
      Function.comp_apply]

/-- A strict build is stored only when its trace is clean under its own base. -/
theorem clean_of_stores (h : b.stores H = some k) (hs : b.settings.strict = true) :
    Clean b.base (b.deps.map fun d => d.2.name.toList) b.traceEntries := by
  have hok : b.strictCacheOk = true := by
    by_contra hno
    rw [stores] at h
    split at h
    · cases h
    · rw [if_pos (by simp [hs, hno])] at h
      cases h
  rw [strictCacheOk, hs] at hok
  have hclean := of_decide_eq_true hok
  apply hclean.congr
  intro name hname
  obtain ⟨d, hd, rfl⟩ := List.mem_map.mp hname
  obtain ⟨d', hd', hsame⟩ := List.mem_map.mp (b.kept d hd)
  exact List.mem_map.mpr ⟨d', hd', by rw [hsame]⟩

/-- The recipe has run remotely when the server has answered, and here otherwise. -/
theorem place_of_stores (h : b.stores H = some k) :
    b.Answered ∧ b.place H = .remote b.settings.platform ∨ ¬b.Answered ∧ b.place H = .here b.base := by
  have hcode := code_of_stores h
  rw [code] at hcode
  rw [place, Answered]
  cases hj : b.remoteExecJob with
  | none => exact .inr ⟨fun ⟨_, hj', _⟩ => by simp at hj', rfl⟩
  | some j =>
    simp only [hj] at hcode
    obtain ⟨⟨rv, file⟩, hend, rfl⟩ := Option.map_eq_some_iff.mp hcode
    rcases ranHere_of_zero hend with ⟨hanswered, hran⟩ | ⟨hanswered, hran⟩
    · refine .inl ⟨⟨j, rfl, hanswered⟩, ?_⟩
      simp only [hran, b.unstarted, Bool.false_eq_true, if_false]
    · refine .inr ⟨fun ⟨j', hj', hanswered'⟩ => ?_, by simp only [hran, if_true]⟩
      rw [← Option.some.inj hj'] at hanswered'
      exact hanswered hanswered'

theorem Answered.place (hanswered : b.Answered) (h : b.stores H = some k) :
    b.place H = .remote b.settings.platform :=
  ((place_of_stores h).resolve_right fun hno => hno.1 hanswered).2

theorem Answered.wanted (h : b.Answered) : b.settings.remoteExecWanted = true := by
  obtain ⟨j, hj, -⟩ := h
  by_contra hno
  simp [remoteExecJob, hno] at hj

/-- A proper build keeps what its policy says. -/
theorem Proper.sound (hb : b.Proper) (h : b.stores H = some k) : (b.entry H k).Sound := by
  constructor
  · intro policy hp hstrict
    have hs := (isStrict_iff hp).mp hstrict
    have hroot : (b.place H).root = b.base := by
      by_cases hw : b.settings.remoteExecWanted = true
      · rw [(hb.answered hw).place h, hb.base hs hw]
        rfl
      · rcases place_of_stores h with ⟨hanswered, -⟩ | ⟨-, hplace⟩
        · exact absurd hanswered.wanted hw
        · rw [hplace]
          rfl
    rw [entry, hroot]
    exact (clean_of_stores h hs).congr fun name => (mem_names h name).mpr
  · intro policy platform hp hremote
    obtain ⟨hw, rfl⟩ := (isRemote_iff hp).mp hremote
    exact (hb.answered hw).place h

/-- What is stored for a platform, and comes from there, comes from a server that has answered. -/
theorem answered_of_sound (h : b.stores H = some k) (he : (b.entry H k).Sound) : b.AnsweredIfWanted := by
  intro hw
  obtain ⟨policy, hp⟩ : ∃ policy, b.settings.policyDomain = some policy := by
    rw [Settings.policyDomain, if_pos hw]
    split_ifs <;> exact ⟨_, rfl⟩
  have hplace := he.remote policy b.settings.platform hp ((isRemote_iff hp).mpr ⟨hw, rfl⟩)
  rcases place_of_stores h with ⟨hanswered, -⟩ | ⟨-, hhere⟩
  · exact hanswered
  · simp only [entry, hhere] at hplace
    cases hplace

end Build

section
variable {H : Hashing Body} {sha hashed} {ok ok' : Build Body → Prop} {s s' : Caches ι δ}

omit [DecidableEq δ] in
/-- Keys with one digest are the same key. -/
theorem Hashes.inj (inj : Set.InjOn sha hashed) {policy policy' : Option String} {k k' : ActionKey}
    (h : Hashes hashed policy k) (h' : Hashes hashed policy' k')
    (he : sha (keyBytesV0 policy k) = sha (keyBytesV0 policy' k')) : policy = policy' ∧ k = k' :=
  keyBytesV0_inj h.fits h'.fits (inj h.mem h'.mem he)

omit [DecidableEq δ] in
theorem RemoteHashes.inj (inj : Set.InjOn sha hashed) {policy policy' : Option String}
    {k k' : RemoteKey} (h : RemoteHashes hashed policy k) (h' : RemoteHashes hashed policy' k')
    (he : sha (keyBytesV1 policy k) = sha (keyBytesV1 policy' k')) : policy = policy' ∧ k = k' :=
  keyBytesV1_inj h.fits h'.fits (inj h.mem h'.mem he)

/-- An entry comes under a key that it belongs to. -/
theorem Separated.store (h : Separated sha hashed s) (inj : Set.InjOn sha hashed) {i : ι}
    {policy : Option String} {k : ActionKey} {e : Entry} {log : List Entry}
    (hk : Hashes hashed policy k) (hlog : ∀ x ∈ s.log, x ∈ log) (hmem : e ∈ log)
    (hpolicy : e.policy = policy) (htarget : e.target = k.target)
    (hdeps : e.deps = k.deps.map fun d => (d.1, d.2.1)) :
    Separated sha hashed { s.store i (sha (keyBytesV0 policy k)) (some e) with log := log } where
  disk := by
    intro i' policy' k' e' hk' he'
    simp only [Caches.store] at he'
    by_cases hi : i' = i
    · subst hi
      rw [Function.update_self] at he'
      by_cases hd : sha (keyBytesV0 policy' k') = sha (keyBytesV0 policy k)
      · rw [hd, Function.update_self] at he'
        obtain ⟨rfl, rfl⟩ := hk'.inj inj hk hd
        cases he'
        exact ⟨hmem, hpolicy, htarget, hdeps⟩
      · rw [Function.update_of_ne hd] at he'
        obtain ⟨hm, hrest⟩ := h.disk i' policy' k' e' hk' he'
        exact ⟨hlog _ hm, hrest⟩
    · rw [Function.update_of_ne hi] at he'
      obtain ⟨hm, hrest⟩ := h.disk i' policy' k' e' hk' he'
      exact ⟨hlog _ hm, hrest⟩
  server := by
    intro policy' k' e' hk' he'
    obtain ⟨hm, hrest⟩ := h.server policy' k' e' hk' he'
    exact ⟨hlog _ hm, hrest⟩

omit [DecidableEq ι] in
theorem Separated.push (h : Separated sha hashed s) (inj : Set.InjOn sha hashed)
    {policy : Option String} {k : RemoteKey} {e : Entry} (hk : RemoteHashes hashed policy k)
    (hmem : e ∈ s.log) (hpolicy : e.policy = policy) (htarget : e.target = k.target)
    (hdeps : e.deps = k.deps.map fun d => (d.1, d.2.1)) :
    Separated sha hashed { s with
      server := Function.update s.server (sha (keyBytesV1 policy k)) (some e) } where
  disk := h.disk
  server := by
    intro policy' k' e' hk' he'
    simp only at he'
    by_cases hd : sha (keyBytesV1 policy' k') = sha (keyBytesV1 policy k)
    · rw [hd, Function.update_self] at he'
      obtain ⟨rfl, rfl⟩ := hk'.inj inj hk hd
      cases he'
      exact ⟨hmem, hpolicy, htarget, hdeps⟩
    · rw [Function.update_of_ne hd] at he'
      exact h.server policy' k' e' hk' he'

theorem Separated.step (h : Separated sha hashed s) (inj : Set.InjOn sha hashed)
    (hs : CacheStep H sha hashed ok s s') : Separated sha hashed s' := by
  cases hs with
  | finish _ _ hk _ =>
    exact h.store inj hk (fun _ hx => List.mem_cons_of_mem _ hx) List.mem_cons_self rfl rfl rfl
  | push hk hk' hsame he =>
    obtain ⟨hmem, hpolicy, htarget, hdeps⟩ := h.disk _ _ _ _ hk he
    exact h.push inj hk' hmem hpolicy (htarget.trans hsame.target) (hdeps.trans hsame.deps)
  | restore hk hk' hsame he =>
    obtain ⟨hmem, hpolicy, htarget, hdeps⟩ := h.server _ _ _ hk' he
    exact h.store inj hk (fun _ hx => hx) hmem hpolicy (htarget.trans hsame.target.symm)
      (hdeps.trans hsame.deps.symm)
  | @collect i d =>
    constructor
    · intro i' policy k e hk he
      simp only [Caches.store] at he
      by_cases hi : i' = i
      · subst hi
        rw [Function.update_self] at he
        by_cases hd : sha (keyBytesV0 policy k) = d
        · rw [hd, Function.update_self] at he
          cases he
        · rw [Function.update_of_ne hd] at he
          exact h.disk i' policy k e hk he
      · rw [Function.update_of_ne hi] at he
        exact h.disk i' policy k e hk he
    · exact h.server

omit [DecidableEq ι] [DecidableEq δ] in
theorem separated_newCaches (h : NewCaches s) : Separated sha hashed s where
  disk i policy k e _ he := by
    rw [h.disk] at he
    cases he
  server policy k e _ he := by
    rw [h.server] at he
    cases he

theorem Separated.run (h : Separated sha hashed s) (inj : Set.InjOn sha hashed)
    (run : ReflTransGen (CacheStep H sha hashed ok) s s') : Separated sha hashed s' := by
  induction run with
  | refl => exact h
  | tail _ hs ih => exact ih.step inj hs

def Caches.Sound (s : Caches ι δ) : Prop := ∀ e ∈ s.log, e.Sound

theorem Caches.Sound.step (h : s.Sound) (hs : CacheStep H sha hashed Build.Proper s s') : s'.Sound := by
  cases hs with
  | finish hb hstores =>
    intro e he
    rcases List.mem_cons.mp he with rfl | he
    · exact Build.Proper.sound hb hstores
    · exact h e he
  | push => exact h
  | restore => exact h
  | collect => exact h

theorem Caches.Sound.back (hs : CacheStep H sha hashed ok s s') (h : s'.Sound) : s.Sound := by
  cases hs with
  | finish => exact fun e he => h e (List.mem_cons_of_mem _ he)
  | push => exact h
  | restore => exact h
  | collect => exact h

theorem Caches.Sound.answered (hs : CacheStep H sha hashed ok s s') (h : s'.Sound) :
    CacheStep H sha hashed Build.AnsweredIfWanted s s' := by
  cases hs with
  | finish _ hstores hk hnone =>
    exact .finish (Build.answered_of_sound hstores (h _ List.mem_cons_self)) hstores hk hnone
  | push hk hk' hsame he => exact .push hk hk' hsame he
  | restore hk hk' hsame he => exact .restore hk hk' hsame he
  | collect => exact .collect

omit [DecidableEq ι] [DecidableEq δ] in
theorem sound_newCaches (h : NewCaches s) : s.Sound := by
  intro e he
  rw [h.log] at he
  cases he

theorem Caches.Sound.run (h : s.Sound) (run : ReflTransGen (CacheStep H sha hashed Build.Proper) s s') :
    s'.Sound := by
  induction run with
  | refl => exact h
  | tail _ hs ih => exact ih.step hs

theorem Caches.Sound.answered_run (h : s'.Sound) (run : ReflTransGen (CacheStep H sha hashed ok) s s') :
    ReflTransGen (CacheStep H sha hashed Build.AnsweredIfWanted) s s' := by
  induction run with
  | refl => exact .refl
  | tail _ hs ih => exact (ih (h.back hs)).tail (h.answered hs)

end

/-- In every history of any number of clients lookups answer only entries of their own policy. When
all builds that are stored are proper, each entry keeps what its policy says; and it does only when
a server has answered for all those that were to run remotely. -/
theorem domains_sound {s₀ s : Caches ι δ} (inj : Set.InjOn sha hashed) (start : NewCaches s₀)
    (run : ReflTransGen (CacheStep H sha hashed fun _ => True) s₀ s) :
    Separated sha hashed s ∧
      (ReflTransGen (CacheStep H sha hashed Build.Proper) s₀ s → s.Sound) ∧
      (s.Sound → ReflTransGen (CacheStep H sha hashed Build.AnsweredIfWanted) s₀ s) :=
  ⟨(separated_newCaches start).run inj run, (sound_newCaches start).run, fun h => h.answered_run run⟩

def noCaches : Caches Bool (List UInt8) := ⟨fun _ _ => none, fun _ => none, []⟩

theorem newCaches_noCaches : NewCaches noCaches := ⟨fun _ _ => rfl, fun _ => rfl, rfl⟩

/-- A strict build of `out` from `in`, without a server. -/
def strictBuild : Build Text where
  settings := { strict := true, remoteExec := "", remotePlatformId := "" }
  base := "/p".toList
  target := "out"
  self := 2
  keyed := true
  depsNow := [('m', { id := 1, name := "in" })]
  isPlain := fun _ => true
  wargv := compileJob
  world := { refused with configured := false }
  before := ⟨none, none, none, none, false⟩
  unstarted := rfl
  fault := 0
  strictFail := false
  trace := some ["/p/in".toList, "/usr/lib".toList]
  declared := [('m', { id := 1, name := "in" })]
  deps := [('m', { id := 1, name := "in" })]
  kept := by decide
  disk := { readStamp := fun _ => "1", pathExists := fun _ => true }
  committed := true
  isFile := true
  csum := none

def exampleManifest : Text :=
  "\x7b\"schema\":\"redo-artifact-manifest:v1\",\"kind\":\"file\",\"digest\":\"sha256:".toList ++
    (List.replicate 64 'c' ++ "\",\"size\":5,\"mode\":420\x7d".toList)

/-- The server runs the recipe. -/
def serving : Remote.World Text := { refused with
  putBlobFromFile := fun _ _ => .ok 201
  postExec := fun _ => .ok (200, some
    { schema := "redo-remote-exec-result:v1".toList, exitCode := 0
      outputManifestSha256 := some (List.replicate 64 'c'), depsSha256 := none, traceSha256 := none })
  getManifest := .ok (200, exampleManifest)
  download := .ok { status := 200, chunked := false, body := "hello".toList, stop := none } }

/-- The same build for the platform `p`. -/
def remoteBuild : Build Text := { strictBuild with
  settings := { strict := false, remoteExec := "1", remotePlatformId := "p" }
  world := serving
  trace := none }

def strictKey : ActionKey := { target := "out", deps := [('m', "in", "1")] }

def sharedKey : RemoteKey :=
  { os := "linux", arch := "x86_64", target := "out", deps := [('m', "in", .missing)] }

theorem strictKey_hashes {policy : String} (h : Fits ("policy=" ++ policy)) :
    Hashes Set.univ (some policy) strictKey := by
  refine ⟨⟨fun p hp => Option.some.inj hp ▸ h, by decide, ?_⟩, trivial⟩
  refine ⟨by decide, fun d hd => ?_⟩
  rw [List.mem_singleton.mp hd]
  decide

theorem sharedKey_hashes {policy : String} (h : Fits ("policy=" ++ policy)) :
    RemoteHashes Set.univ (some policy) sharedKey := by
  refine ⟨⟨fun p hp => Option.some.inj hp ▸ h, by decide, by decide, by decide, ?_⟩, trivial⟩
  refine ⟨by decide, fun d hd => ?_⟩
  rw [List.mem_singleton.mp hd]
  exact ⟨by decide, by decide, trivial⟩

theorem strictBuild_proper : strictBuild.Proper := by
  have hw : strictBuild.settings.remoteExecWanted = false := by decide
  refine ⟨fun h => ?_, fun _ h => ?_⟩
  · rw [hw] at h
    cases h
  · rw [hw] at h
    cases h

theorem remoteBuild_proper : remoteBuild.Proper := by
  refine ⟨fun _ => ?_, fun h => by cases h⟩
  have hjob : remoteBuild.remoteExecJob = some { compileJob with inputs := ["in".toList] } := by
    decide +kernel
  refine ⟨_, hjob, rfl, _, ⟨rfl, rfl⟩, rfl⟩

theorem Caches.store_self (s : Caches ι δ) (i : ι) (d : δ) (e : Option Entry) :
    (s.store i d e).disk i d = e := by
  simp [Caches.store]

def strictDigest : List UInt8 := keyBytesV0 (some STRICT_POLICY_READTRACE) strictKey

def remoteDigest : List UInt8 := keyBytesV0 (some (remotePolicy "p")) strictKey

def sharedDigest : List UInt8 := keyBytesV1 (some STRICT_POLICY_READTRACE) sharedKey

def strictEntry : Entry := strictBuild.entry plainHashing strictKey

def remoteEntry : Entry := remoteBuild.entry plainHashing strictKey

def afterRemote : Caches Bool (List UInt8) :=
  { noCaches.store true remoteDigest (some remoteEntry) with log := [remoteEntry] }

def afterFinish : Caches Bool (List UInt8) :=
  { afterRemote.store false strictDigest (some strictEntry) with log := [strictEntry, remoteEntry] }

def afterPush : Caches Bool (List UInt8) := { afterFinish with
  server := Function.update afterFinish.server sharedDigest (some strictEntry) }

def afterRestore : Caches Bool (List UInt8) := afterPush.store true strictDigest (some strictEntry)

/-- One client builds remotely, another one strictly, and pushes; the first one takes the entry from
the server. -/
theorem shared_run {ok : Build Text → Prop} (hremote : ok remoteBuild) (hstrict : ok strictBuild) :
    ReflTransGen (CacheStep plainHashing id Set.univ ok) noCaches afterRestore := by
  have hfits : Fits ("policy=" ++ STRICT_POLICY_READTRACE) := by decide
  have hpolicy : strictBuild.settings.policyDomain = some STRICT_POLICY_READTRACE := by decide
  have hremotePolicy : remoteBuild.settings.policyDomain = some (remotePolicy "p") := by decide
  have hran : CacheStep plainHashing id Set.univ ok noCaches afterRemote := by
    have hstores : remoteBuild.stores plainHashing = some strictKey := by decide +kernel
    have hstep := @CacheStep.finish Bool _ Text _ _ plainHashing id Set.univ ok noCaches true remoteBuild
      strictKey hremote hstores (by rw [hremotePolicy]; exact strictKey_hashes (by decide)) rfl
    rw [hremotePolicy] at hstep
    exact hstep
  have hfinish : CacheStep plainHashing id Set.univ ok afterRemote afterFinish := by
    have hstores : strictBuild.stores plainHashing = some strictKey := by decide +kernel
    have hstep := @CacheStep.finish Bool _ Text _ _ plainHashing id Set.univ ok afterRemote false strictBuild
      strictKey hstrict hstores (by rw [hpolicy]; exact strictKey_hashes hfits) rfl
    rw [hpolicy] at hstep
    exact hstep
  have hdisk : afterFinish.disk false strictDigest = some strictEntry := by
    rw [afterFinish]
    exact afterRemote.store_self false strictDigest (some strictEntry)
  have hpush : CacheStep plainHashing id Set.univ ok afterFinish afterPush :=
    .push (i := false) (strictKey_hashes hfits) (sharedKey_hashes hfits) ⟨rfl, rfl⟩ hdisk
  have hserver : afterPush.server sharedDigest = some strictEntry := by
    simp only [afterPush, Function.update_self]
  have hrestore : CacheStep plainHashing id Set.univ ok afterPush afterRestore :=
    .restore (strictKey_hashes hfits) (sharedKey_hashes hfits) ⟨rfl, rfl⟩ hserver
  exact .tail (.tail (.tail (.tail .refl hran) hfinish) hpush) hrestore

theorem domains_sound_shared : afterRestore.Sound ∧ remoteEntry ∈ afterRestore.log ∧
    Separated id Set.univ afterRestore := by
  obtain ⟨hseparated, hsound, -⟩ := domains_sound plainHashing id Set.univ (Set.injOn_id _) newCaches_noCaches
    (shared_run trivial trivial)
  refine ⟨hsound (shared_run remoteBuild_proper strictBuild_proper), ?_, hseparated⟩
  simp [afterRestore, afterPush, afterFinish, Caches.store]

/-- The server takes the input and then refuses to run the recipe, and the wrapper runs it here. -/
def fallenBack : Build Text := { remoteBuild with
  world := { serving with postExec := fun _ => .error .error } }

/-- It is stored as if it came from the platform. -/
theorem not_domains_sound :
    ¬∀ s₀ s : Caches Bool (List UInt8), NewCaches s₀ →
      ReflTransGen (CacheStep plainHashing id Set.univ fun _ => True) s₀ s →
      s.Sound ∧ Separated id Set.univ s := by
  intro h
  have hstores : fallenBack.stores plainHashing = some strictKey := by decide +kernel
  have hpolicy : fallenBack.settings.policyDomain = some (remotePolicy "p") := by decide
  have hhashes : Hashes Set.univ fallenBack.settings.policyDomain strictKey := by
    rw [hpolicy]
    exact strictKey_hashes (by decide)
  have run : ReflTransGen (CacheStep plainHashing id Set.univ fun _ => True) noCaches _ :=
    .single (.finish (i := false) trivial hstores hhashes rfl)
  have hsound := (h _ _ newCaches_noCaches run).1 (fallenBack.entry plainHashing strictKey) List.mem_cons_self
  have hplace := hsound.remote (remotePolicy "p") "p" hpolicy (.inr rfl)
  have hhere : (fallenBack.entry plainHashing strictKey).place = .here "/p".toList := by decide +kernel
  rw [hhere] at hplace
  cases hplace

end Redo.Cache
