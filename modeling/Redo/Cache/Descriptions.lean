import Mathlib.Data.Char
import Mathlib.Data.String.Basic
import Redo.Cache.Keys

/-! # What an action key says

The four functions sort the dependencies and hash them one by one. With distinct names the
sorted list says no more than the dependencies and their states, so the bytes under a key
describe one action and an action has one key.
-/
namespace Redo.Cache
open State Library

/-- The order in which dependencies are hashed: by mode, then by name. -/
def depLe {κ : Type} (d e : Char × String × κ) : Prop := d.1 < e.1 ∨ d.1 = e.1 ∧ d.2.1 ≤ e.2.1

instance {κ : Type} : DecidableRel (depLe (κ := κ)) := fun _ _ => inferInstanceAs (Decidable (_ ∨ _))

inductive Computed where
  /-- With the bytes that have been hashed. -/
  | eligible (bytes : List UInt8)
  | skipAlways
  | err
deriving DecidableEq

def Computed.behind (front : List UInt8) : Computed → Computed
  | .eligible bytes => .eligible (front ++ bytes)
  | .skipAlways => .skipAlways
  | .err => .err

variable {κ : Type}

/-- The loop over the sorted dependencies; no state means that reading it fails. -/
def hashLoop (state : κ → List UInt8) : List (Char × String × Option κ) → Computed
  | [] => .eligible []
  | d :: rest =>
    if d.2.1 = ALWAYS then .skipAlways
    else match d.2.2 with
      | none => .err
      | some s => (hashLoop state rest).behind (modeByte d.1 ++ (hashStr d.2.1 ++ state s))

def hashAll (state : κ → List UInt8) (deps : List (Char × String × Option κ)) : Computed :=
  (hashLoop state (deps.insertionSort depLe)).behind (leBytes deps.length)

def computeActionKeyV0 (target : String) (deps : List (Char × String × Option Stamp)) : Computed :=
  (hashAll hashStr deps).behind
    (hashStr "redo-action-key-v0" ++ (hashStr TAG ++ hashStr target))

def computeActionKeyV0Policy (policy target : String) (deps : List (Char × String × Option Stamp)) :
    Computed :=
  (hashAll hashStr deps).behind
    (hashStr "redo-action-key-v0" ++ (hashStr ("policy=" ++ policy) ++ (hashStr TAG ++ hashStr target)))

/-- The constants of the platform that the program is built for. -/
structure Platform where
  os : String
  arch : String
  os_fits : Fits os
  arch_fits : Fits arch

def computeActionKeyV1Remote (platform : Platform) (target : String)
    (deps : List (Char × String × Option Content)) : Computed :=
  (hashAll Content.bytes deps).behind
    (hashStr "redo-action-key-v1-remote" ++ (hashStr TAG ++ (hashStr platform.os ++
      (hashStr platform.arch ++ hashStr target))))

def computeActionKeyV1RemotePolicy (platform : Platform) (policy target : String)
    (deps : List (Char × String × Option Content)) : Computed :=
  (hashAll Content.bytes deps).behind
    (hashStr "redo-action-key-v1-remote" ++ (hashStr ("policy=" ++ policy) ++ (hashStr TAG ++
      (hashStr platform.os ++ (hashStr platform.arch ++ hashStr target)))))

/-- An action as it is recorded, with the states of its dependencies. All texts have lengths
of 64 bits. -/
structure Described (fits : κ → Prop) where
  policy : Option String
  target : String
  deps : List (Char × String × κ)
  modes : ∀ d ∈ deps, d.1 = 'm' ∨ d.1 = 'c'
  distinct : (deps.map (·.2.1)).Nodup
  always : ∀ d ∈ deps, d.2.1 ≠ ALWAYS
  policy_fits : ∀ p, policy = some p → Fits ("policy=" ++ p)
  target_fits : Fits target
  length_fits : deps.length < 18446744073709551616
  each_fits : ∀ d ∈ deps, Fits d.2.1 ∧ fits d.2.2

inductive Action where
  | v0 (d : Described Fits)
  | v1Remote (d : Described Content.Fits)

namespace Described
variable {fits : κ → Prop}

def found (d : Described fits) : List (Char × String × Option κ) :=
  d.deps.map fun e => (e.1, e.2.1, some e.2.2)

def sorted (d : Described fits) : List (Char × String × κ) := d.deps.insertionSort depLe

/-- The same action, with its dependencies in any order. -/
structure Same (a b : Described fits) : Prop where
  policy : a.policy = b.policy
  target : a.target = b.target
  deps : a.deps.Perm b.deps

end Described

/-- The function for the scheme, with or without a policy. -/
def Action.computeActionKey (platform : Platform) : Action → Computed
  | .v0 d =>
    match d.policy with
    | none => computeActionKeyV0 d.target d.found
    | some policy => computeActionKeyV0Policy policy d.target d.found
  | .v1Remote d =>
    match d.policy with
    | none => computeActionKeyV1Remote platform d.target d.found
    | some policy => computeActionKeyV1RemotePolicy platform policy d.target d.found

def Action.Same : Action → Action → Prop
  | .v0 a, .v0 b => a.Same b
  | .v1Remote a, .v1Remote b => a.Same b
  | _, _ => False

theorem hashLoop_some (state : κ → List UInt8) {deps : List (Char × String × κ)}
    (halways : ∀ d ∈ deps, d.2.1 ≠ ALWAYS) :
    hashLoop state (deps.map fun e => (e.1, e.2.1, some e.2.2)) =
      .eligible (deps.flatMap fun d => modeByte d.1 ++ (hashStr d.2.1 ++ state d.2.2)) := by
  induction deps with
  | nil => rfl
  | cons d deps ih =>
    have hrest := ih fun e he => halways e (List.mem_cons_of_mem _ he)
    simp [hashLoop, halways d List.mem_cons_self, hrest, Computed.behind]

theorem depLe_total (d e : Char × String × κ) : depLe d e ∨ depLe e d := by
  rcases lt_trichotomy d.1 e.1 with hlt | heq | hgt
  · exact Or.inl (Or.inl hlt)
  · rcases le_total d.2.1 e.2.1 with hle | hle
    · exact Or.inl (Or.inr ⟨heq, hle⟩)
    · exact Or.inr (Or.inr ⟨heq.symm, hle⟩)
  · exact Or.inr (Or.inl hgt)

theorem depLe_trans (d e f : Char × String × κ) (hde : depLe d e) (hef : depLe e f) :
    depLe d f := by
  rcases hde with hde | ⟨hde, hname⟩ <;> rcases hef with hef | ⟨hef, hname'⟩
  · exact Or.inl (hde.trans hef)
  · exact Or.inl (hef ▸ hde)
  · exact Or.inl (hde ▸ hef)
  · exact Or.inr ⟨hde.trans hef, hname.trans hname'⟩

theorem depLe_name {d e : Char × String × κ} (hde : depLe d e) (hed : depLe e d) :
    d.2.1 = e.2.1 := by
  rcases hde with hde | ⟨hde, hname⟩ <;> rcases hed with hed | ⟨hed, hname'⟩
  · exact absurd hed (lt_asymm hde)
  · exact absurd hed hde.ne'
  · exact absurd hde hed.ne'
  · exact le_antisymm hname hname'

instance : Std.Total (depLe (κ := κ)) := ⟨depLe_total⟩

instance : IsTrans (Char × String × κ) depLe := ⟨depLe_trans⟩

namespace Described
variable {fits : κ → Prop}

theorem sorted_perm (d : Described fits) : d.sorted.Perm d.deps :=
  List.perm_insertionSort depLe d.deps

/-- Distinct names leave one order. -/
theorem sorted_eq_iff (a b : Described fits) : a.sorted = b.sorted ↔ a.deps.Perm b.deps := by
  constructor
  · intro h
    have hperm := a.sorted_perm.symm
    rw [h] at hperm
    exact hperm.trans b.sorted_perm
  · intro h
    have hperm : a.sorted.Perm b.sorted := a.sorted_perm.trans (h.trans b.sorted_perm.symm)
    refine hperm.eq_of_pairwise ?_ (List.pairwise_insertionSort depLe _)
      (List.pairwise_insertionSort depLe _)
    intro d e hd he hde hed
    have hd : d ∈ b.deps := h.mem_iff.mp (a.sorted_perm.mem_iff.mp hd)
    have he : e ∈ b.deps := b.sorted_perm.mem_iff.mp he
    exact List.inj_on_of_nodup_map b.distinct hd he (depLe_name hde hed)

theorem found_sorted (d : Described fits) :
    d.found.insertionSort depLe = d.sorted.map fun e => (e.1, e.2.1, some e.2.2) :=
  (List.map_insertionSort depLe depLe (fun e : Char × String × κ => (e.1, e.2.1, some e.2.2))
    d.deps fun _ _ _ _ => Iff.rfl).symm

theorem hashAll_found (state : κ → List UInt8) (d : Described fits) :
    hashAll state d.found = .eligible (depsBytes state d.sorted) := by
  have halways : ∀ e ∈ d.sorted, e.2.1 ≠ ALWAYS := fun e he =>
    d.always e (d.sorted_perm.mem_iff.mp he)
  have hlength : d.found.length = d.sorted.length := by
    rw [found, List.length_map, d.sorted_perm.length_eq]
  rw [hashAll, found_sorted, hashLoop_some state halways, hlength]
  rfl

theorem depsFit (d : Described fits) : DepsFit fits d.sorted := by
  refine ⟨d.sorted_perm.length_eq ▸ d.length_fits, ?_⟩
  intro e he
  have he := d.sorted_perm.mem_iff.mp he
  refine ⟨?_, d.each_fits e he⟩
  rcases d.modes e he with hmode | hmode <;> rw [hmode] <;> decide

/-- What is hashed before the dependencies are sorted away. -/
theorem same_iff (a b : Described fits) :
    a.Same b ↔ a.policy = b.policy ∧ a.target = b.target ∧ a.sorted = b.sorted := by
  rw [sorted_eq_iff]
  exact ⟨fun h => ⟨h.policy, h.target, h.deps⟩, fun h => ⟨h.1, h.2.1, h.2.2⟩⟩

def actionKey (d : Described Fits) : ActionKey := { target := d.target, deps := d.sorted }

def remoteKey (platform : Platform) (d : Described Content.Fits) : RemoteKey :=
  { os := platform.os, arch := platform.arch, target := d.target, deps := d.sorted }

theorem actionKey_fits (d : Described Fits) : KeyFits d.policy d.actionKey :=
  { policy := d.policy_fits, target := d.target_fits, deps := d.depsFit }

theorem remoteKey_fits (platform : Platform) (d : Described Content.Fits) :
    RemoteKeyFits d.policy (d.remoteKey platform) :=
  { policy := d.policy_fits, os := platform.os_fits, arch := platform.arch_fits
    target := d.target_fits, deps := d.depsFit }

end Described

/-- The bytes under the key of an action. -/
def Action.bytes (platform : Platform) : Action → List UInt8
  | .v0 d => keyBytesV0 d.policy d.actionKey
  | .v1Remote d => keyBytesV1 d.policy (d.remoteKey platform)

/-- The four copies hash what `keyBytesV0` and `keyBytesV1` say. -/
theorem Action.computeActionKey_eq (platform : Platform) (a : Action) :
    a.computeActionKey platform = .eligible (a.bytes platform) := by
  cases a with
  | v0 d =>
    cases hpolicy : d.policy with
    | none =>
      simp [computeActionKey, bytes, hpolicy, computeActionKeyV0, Described.hashAll_found,
        Computed.behind, keyBytesV0, policyBytes, Described.actionKey]
    | some policy =>
      simp [computeActionKey, bytes, hpolicy, computeActionKeyV0Policy, Described.hashAll_found,
        Computed.behind, keyBytesV0, policyBytes, Described.actionKey]
  | v1Remote d =>
    cases hpolicy : d.policy with
    | none =>
      simp [computeActionKey, bytes, hpolicy, computeActionKeyV1Remote, Described.hashAll_found,
        Computed.behind, keyBytesV1, policyBytes, Described.remoteKey]
    | some policy =>
      simp [computeActionKey, bytes, hpolicy, computeActionKeyV1RemotePolicy,
        Described.hashAll_found, Computed.behind, keyBytesV1, policyBytes, Described.remoteKey]

/-- The dependencies of a row, as the key path of a build reads them. -/
def readDep (disk : Disk) (p : Char × File) : Char × String × Option Stamp :=
  (p.1, p.2.name, some (disk.readStamp p.2.name))

theorem hashDeps_length {disk : Disk} {l : List (Char × File)} {out : List (Char × String × Stamp)}
    (h : hashDeps disk l = some out) : out.length = l.length := by
  induction l generalizing out with
  | nil =>
    cases h
    rfl
  | cons p l ih =>
    by_cases halways : p.2.name = ALWAYS
    · simp [hashDeps, halways] at h
    · cases hrest : hashDeps disk l with
      | none => simp [hashDeps, halways, hrest] at h
      | some rest =>
        simp only [hashDeps, halways, if_false, hrest, Option.map_some, Option.some.injEq] at h
        rw [← h, List.length_cons, List.length_cons, ih hrest]

theorem hashLoop_read (disk : Disk) (l : List (Char × File)) :
    hashLoop hashStr (l.map (readDep disk)) =
      match hashDeps disk l with
      | none => .skipAlways
      | some out =>
        .eligible (out.flatMap fun d => modeByte d.1 ++ (hashStr d.2.1 ++ hashStr d.2.2)) := by
  induction l with
  | nil => rfl
  | cons p l ih =>
    by_cases halways : p.2.name = ALWAYS
    · simp [hashLoop, hashDeps, readDep, halways]
    · cases hrest : hashDeps disk l <;>
        simp [hashLoop, hashDeps, readDep, halways, ih, hrest, Computed.behind]

/-- The key path of a build hashes the bytes of its key. -/
theorem computeActionKey_eq (disk : Disk) (target : String) (deps : List (Char × File)) :
    computeActionKeyV0 target (deps.map (readDep disk)) =
      match computeActionKey disk target deps with
      | .skipAlways => .skipAlways
      | .eligible key => .eligible (keyBytesV0 none key) := by
  have hsort := List.map_insertionSort keyLe depLe (readDep disk) deps fun _ _ _ _ => Iff.rfl
  rw [computeActionKeyV0, hashAll, ← hsort, hashLoop_read, computeActionKey]
  cases hdeps : hashDeps disk (deps.insertionSort keyLe) with
  | none => rfl
  | some out =>
    have hout := hashDeps_length hdeps
    rw [List.length_insertionSort] at hout
    simp [Computed.behind, keyBytesV0, policyBytes, depsBytes, hout]

theorem keyBytes_ne (policy policy' : Option String) (k : ActionKey) (k' : RemoteKey) :
    keyBytesV0 policy k ≠ keyBytesV1 policy' k' := by
  intro h
  obtain ⟨hscheme, -⟩ := hashStr_codeOn _ _ _ _ (by decide) (by decide) h
  exact absurd hscheme (by decide)

theorem Action.bytes_eq_iff (platform : Platform) (a b : Action) :
    a.bytes platform = b.bytes platform ↔ a.Same b := by
  cases a with
  | v0 a =>
    cases b with
    | v0 b =>
      rw [Same, Described.same_iff]
      constructor
      · intro h
        obtain ⟨hpolicy, hkey⟩ := keyBytesV0_inj a.actionKey_fits b.actionKey_fits h
        exact ⟨hpolicy, (ActionKey.mk.inj hkey).1, (ActionKey.mk.inj hkey).2⟩
      · rintro ⟨hpolicy, htarget, hdeps⟩
        simp only [bytes, Described.actionKey, hpolicy, htarget, hdeps]
    | v1Remote b => exact iff_of_false (keyBytes_ne _ _ _ _) not_false
  | v1Remote a =>
    cases b with
    | v0 b => exact iff_of_false (keyBytes_ne _ _ _ _).symm not_false
    | v1Remote b =>
      rw [Same, Described.same_iff]
      constructor
      · intro h
        obtain ⟨hpolicy, hkey⟩ :=
          keyBytesV1_inj (a.remoteKey_fits platform) (b.remoteKey_fits platform) h
        have hkey := RemoteKey.mk.inj hkey
        exact ⟨hpolicy, hkey.2.2.1, hkey.2.2.2⟩
      · rintro ⟨hpolicy, htarget, hdeps⟩
        simp only [bytes, Described.remoteKey, hpolicy, htarget, hdeps]

/-- Actions have equal keys, short of a collision of the digest, just when they are the same
up to the order of their dependencies. -/
theorem action_keys_identify (platform : Platform) (a b : Action) :
    ∃ s t, a.computeActionKey platform = .eligible s ∧ b.computeActionKey platform = .eligible t ∧
      (s = t ↔ a.Same b) :=
  ⟨a.bytes platform, b.bytes platform, a.computeActionKey_eq platform,
    b.computeActionKey_eq platform, Action.bytes_eq_iff platform a b⟩

def linux : Platform := ⟨"linux", "x86_64", by decide, by decide⟩

/-- An action with a source and a file that must not exist. -/
def linking : Described Fits where
  policy := some "strict-readtrace"
  target := "out"
  deps := [('m', "in", "1-2-3"), ('c', "config", STAMP_MISSING)]
  modes := by decide
  distinct := by decide
  always := by decide
  policy_fits := fun p hp => by cases hp; decide
  target_fits := by decide
  length_fits := by decide
  each_fits := by decide

/-- The order in which the dependencies were recorded is not part of the action. -/
example : (Action.v0 linking).Same (.v0 { linking with
    deps := linking.deps.reverse
    modes := by decide
    distinct := by decide
    always := by decide
    length_fits := by decide
    each_fits := by decide }) := by
  refine ⟨rfl, rfl, ?_⟩
  decide

end Redo.Cache
