import Mathlib.Algebra.Group.Nat.Defs
import Mathlib.Data.List.Nodup
import Mathlib.Data.List.Perm.Subperm
import Mathlib.Data.Option.Basic
import Mathlib.Logic.Function.Basic
import Mathlib.Logic.Relation
import Redo.Processes.Cycles

/-! # Job pools

A pool of depth `n` is `n` lock bytes. The kernel keeps processes apart; within a process it is
the table `locks_held` that tells a slot in use from a free one. Who exits before its recipes have ended
leaves them running without their slots.
-/
namespace Redo.Processes
open State Relation

def LOG_LOCK_MAGIC : ℕ := 0x10000000
def POOL_LOCK_MAGIC : ℕ := 0x20000000
def POOL_LOCK_STRIDE : ℕ := 2 ^ 16

def fnv1a64 (s : List UInt8) : UInt64 :=
  s.foldl (fun h b => (h ^^^ b.toUInt64) * 0x100000001b3) 0xcbf29ce484222325

/-- `saturating_mul` of two `i64` that are not negative. -/
def saturatingMul (a b : ℕ) : ℕ := min (a * b) (2 ^ 63 - 1)

/-- The lock byte of a slot; `none` is the error for slots from the stride on. -/
def poolSlotFid (name : List UInt8) (slot : ℕ) : Option ℕ :=
  if slot ≥ POOL_LOCK_STRIDE then none
  else
    let bucket := (fnv1a64 name &&& 0xffffffff).toNat
    some (POOL_LOCK_MAGIC + saturatingMul bucket POOL_LOCK_STRIDE + slot)

/-- A directive that `parse_redo_pool_directive` accepts. Depths are compared as `i64`. -/
@[ext] structure PoolSpec where
  name : List UInt8
  depth : ℕ
  pos : 0 < depth
  le_stride : depth ≤ POOL_LOCK_STRIDE ∨ 2 ^ 63 ≤ depth

instance : DecidableEq PoolSpec := fun _ _ => decidable_of_iff _ PoolSpec.ext_iff.symm

/-- A job of a pool, with the lock byte of its slot. -/
structure PoolJob where
  pid : Pid
  spec : PoolSpec
  fid : ℕ
deriving DecidableEq

/-- The kernel's record locks, the tables `locks_held` of the processes, the slots that they are
about to try, the jobs that run with a slot, and those that run on after their process has exited. -/
structure Pools where
  owner : ℕ → Option Pid
  locksHeld : Pid → ℕ → Option Bool
  trying : Pid → Option (PoolSpec × ℕ)
  jobs : List PoolJob
  orphans : List PoolJob

namespace Pools

def setHeld (s : Pools) (p : Pid) (fid : ℕ) (b : Option Bool) : Pools :=
  { s with locksHeld := Function.update s.locksHeld p (Function.update (s.locksHeld p) fid b) }

def setOwner (s : Pools) (fid : ℕ) (o : Option Pid) : Pools :=
  { s with owner := Function.update s.owner fid o }

def setTrying (s : Pools) (p : Pid) (t : Option (PoolSpec × ℕ)) : Pools :=
  { s with trying := Function.update s.trying p t }

/-- `Lock::new`; `none` is "Lock already created". -/
def newLock (s : Pools) (p : Pid) (fid : ℕ) : Option Pools :=
  if s.locksHeld p fid = some true then none else some (s.setHeld p fid (some false))

/-- `Lock::trylock`: the kernel refuses only what another process owns. The check for cycles
passes, for `REDO_CYCLES` lists files. -/
def trylock (s : Pools) (p : Pid) (fid : ℕ) : Option Pools :=
  if s.owner fid = none ∨ s.owner fid = some p then
    some ((s.setOwner fid (some p)).setHeld p fid (some true))
  else none

/-- Dropping a lock that is not owned. -/
def dropLock (s : Pools) (p : Pid) (fid : ℕ) : Pools := s.setHeld p fid none

/-- Dropping a lock that is owned unlocks it first. -/
def dropOwned (s : Pools) (p : Pid) (fid : ℕ) : Pools :=
  (((s.setOwner fid none).setHeld p fid (some false))).dropLock p fid

/-- One turn of the loop of `try_acquire_pool`. -/
def trySlot (s : Pools) (p : Pid) (spec : PoolSpec) (slot fid : ℕ) : Pools :=
  match s.newLock p fid with
  | none => s.setTrying p (some (spec, slot + 1))
  | some s =>
    match s.trylock p fid with
    | some s => { s.setTrying p none with jobs := ⟨p, spec, fid⟩ :: s.jobs }
    | none => (s.dropLock p fid).setTrying p (some (spec, slot + 1))

/-- The kernel frees what the process has locked, and its table goes with it. Its recipes run on. -/
def exit (s : Pools) (p : Pid) : Pools where
  owner fid := if s.owner fid = some p then none else s.owner fid
  locksHeld := Function.update s.locksHeld p fun _ => none
  trying := Function.update s.trying p none
  jobs := s.jobs.filter fun j => j.pid ≠ p
  orphans := s.jobs.filter (fun j => j.pid = p) ++ s.orphans

/-- The steps of any number of processes; `depth` is what all `.do` files declare. -/
inductive Step (depth : List UInt8 → ℕ) : Pools → Pools → Prop where
  | begin {s : Pools} (p : Pid) (spec : PoolSpec) (idle : s.trying p = none)
      (declared : spec.depth = depth spec.name) :
      Step depth s (s.setTrying p (some (spec, 0)))
  | slot {s : Pools} {p : Pid} {spec : PoolSpec} {slot fid : ℕ}
      (h : s.trying p = some (spec, slot)) (lt : slot < spec.depth)
      (hfid : poolSlotFid spec.name slot = some fid) :
      Step depth s (s.trySlot p spec slot fid)
  /-- All slots are taken, or there is no lock byte for the next one. -/
  | giveUp {s : Pools} {p : Pid} {spec : PoolSpec} {slot : ℕ}
      (h : s.trying p = some (spec, slot))
      (ge : spec.depth ≤ slot ∨ poolSlotFid spec.name slot = none) :
      Step depth s (s.setTrying p none)
  /-- A job has ended, and `pb.pool_lock = None` drops its slot. -/
  | release {s : Pools} {j : PoolJob} (mem : j ∈ s.jobs) :
      Step depth s { s.dropOwned j.pid j.fid with jobs := s.jobs.erase j }
  /-- At the end of `run_ifchange`, after one of its early returns, or killed. -/
  | exit {s : Pools} (p : Pid) : Step depth s (s.exit p)
  | orphanEnds {s : Pools} {j : PoolJob} (mem : j ∈ s.orphans) :
      Step depth s { s with orphans := s.orphans.erase j }
  /-- What the processes do with the locks of targets and logs. -/
  | other {s s' : Pools} (jobs : s'.jobs = s.jobs) (orphans : s'.orphans = s.orphans)
      (trying : s'.trying = s.trying)
      (owner : ∀ fid, POOL_LOCK_MAGIC ≤ fid → s'.owner fid = s.owner fid)
      (held : ∀ p fid, POOL_LOCK_MAGIC ≤ fid → s'.locksHeld p fid = s.locksHeld p fid) :
      Step depth s s'

/-- No process exits while one of its pool jobs runs. -/
def Waits (s s' : Pools) : Prop := ∀ p, s' = s.exit p → ∀ j ∈ s.jobs, j.pid ≠ p

/-- No pool is in use. -/
structure Start (s : Pools) : Prop where
  idle : ∀ p, s.trying p = none
  jobs : s.jobs = []
  orphans : s.orphans = []

/-- No pool runs more jobs than its depth, no two jobs share a slot, and a slot's byte is neither
that of a target nor that of a log. -/
structure Respects (depth : List UInt8 → ℕ) (s : Pools) : Prop where
  depth : ∀ name, ((s.jobs ++ s.orphans).filter (·.spec.name = name)).length ≤ depth name
  alone : s.jobs.Pairwise fun j k => j.fid ≠ k.fid
  apart : ∀ name slot fid, poolSlotFid name slot = some fid → ∀ id < 2 ^ 28,
    fid ≠ id ∧ fid ≠ LOG_LOCK_MAGIC + id

/-- A slot in use is owned by the process of its job, which knows it, and by no other job. -/
structure Inv (depth : List UInt8 → ℕ) (s : Pools) : Prop where
  nodup : (s.jobs.map (·.fid)).Nodup
  owner : ∀ j ∈ s.jobs, s.owner j.fid = some j.pid
  held : ∀ j ∈ s.jobs, s.locksHeld j.pid j.fid = some true
  fid : ∀ j ∈ s.jobs, j.spec.depth = depth j.spec.name ∧
    ∃ slot < j.spec.depth, poolSlotFid j.spec.name slot = some j.fid
  trying : ∀ p spec slot, s.trying p = some (spec, slot) → spec.depth = depth spec.name

variable {depth : List UInt8 → ℕ} {s s' : Pools} {p : Pid} {fid : ℕ}

theorem poolSlotFid_ge {name : List UInt8} {slot : ℕ} (h : poolSlotFid name slot = some fid) :
    POOL_LOCK_MAGIC ≤ fid := by
  rw [poolSlotFid] at h
  split_ifs at h
  simp only [Option.some.injEq] at h
  omega

/-- A slot's byte is neither a target's nor a log's. -/
theorem poolSlotFid_apart {name : List UInt8} {slot : ℕ} (h : poolSlotFid name slot = some fid)
    {id : ℕ} (hid : id < 2 ^ 28) : fid ≠ id ∧ fid ≠ LOG_LOCK_MAGIC + id := by
  have hge := poolSlotFid_ge h
  have hlog : LOG_LOCK_MAGIC = 2 ^ 28 := rfl
  have hpool : POOL_LOCK_MAGIC = 2 ^ 28 + 2 ^ 28 := rfl
  rw [hlog]
  rw [hpool] at hge
  constructor
  · intro he
    omega
  · intro he
    omega

theorem Start.inv (h : Start s) : Inv depth s where
  nodup := by simp [h.jobs]
  owner := by simp [h.jobs]
  held := by simp [h.jobs]
  fid := by simp [h.jobs]
  trying p spec slot ht := by
    rw [h.idle p] at ht
    cases ht

section Updates
variable {q : Pid} {g : ℕ} {b : Option Bool} {o : Option Pid} {t : Option (PoolSpec × ℕ)}

@[simp] theorem setHeld_owner : (s.setHeld p fid b).owner = s.owner := rfl
@[simp] theorem setHeld_trying : (s.setHeld p fid b).trying = s.trying := rfl
@[simp] theorem setHeld_jobs : (s.setHeld p fid b).jobs = s.jobs := rfl
@[simp] theorem setOwner_locksHeld : (s.setOwner fid o).locksHeld = s.locksHeld := rfl
@[simp] theorem setOwner_trying : (s.setOwner fid o).trying = s.trying := rfl
@[simp] theorem setOwner_jobs : (s.setOwner fid o).jobs = s.jobs := rfl
@[simp] theorem setTrying_owner : (s.setTrying p t).owner = s.owner := rfl
@[simp] theorem setTrying_locksHeld : (s.setTrying p t).locksHeld = s.locksHeld := rfl
@[simp] theorem setTrying_trying :
    (s.setTrying p t).trying = Function.update s.trying p t := rfl
@[simp] theorem setTrying_jobs : (s.setTrying p t).jobs = s.jobs := rfl

theorem setHeld_locksHeld_self : (s.setHeld p fid b).locksHeld p fid = b := by
  simp [setHeld]

/-- The table of another process, and the entry of another byte, stay as they are. -/
theorem setHeld_locksHeld_of (h : g ≠ fid ∨ q ≠ p) :
    (s.setHeld p fid b).locksHeld q g = s.locksHeld q g := by
  by_cases hq : q = p
  · subst hq
    have hg : g ≠ fid := h.resolve_right (fun hne => hne rfl)
    simp [setHeld, hg]
  · simp [setHeld, hq]

theorem setOwner_owner_self : (s.setOwner fid o).owner fid = o := by
  simp [setOwner]

theorem setOwner_owner_of_ne (h : g ≠ fid) : (s.setOwner fid o).owner g = s.owner g := by
  simp [setOwner, h]

end Updates

theorem Inv.setTrying (h : Inv depth s) {t : Option (PoolSpec × ℕ)}
    (ht : ∀ spec slot, t = some (spec, slot) → spec.depth = depth spec.name) :
    Inv depth (s.setTrying p t) where
  nodup := h.nodup
  owner := h.owner
  held := h.held
  fid := h.fid
  trying q spec slot hq := by
    by_cases hqp : q = p
    · subst hqp
      rw [setTrying_trying, Function.update_self] at hq
      exact ht spec slot hq
    · rw [setTrying_trying, Function.update_of_ne hqp] at hq
      exact h.trying q spec slot hq

/-- Whoever holds the byte of a job that runs is its process, and its table says so. -/
theorem Inv.eq_of_fid (h : Inv depth s) {j : PoolJob} (hj : j ∈ s.jobs)
    (hown : s.owner j.fid = none ∨ s.owner j.fid = some p) :
    s.locksHeld p j.fid = some true := by
  rcases hown with hown | hown
  · rw [h.owner j hj] at hown
    cases hown
  · rw [h.owner j hj, Option.some.injEq] at hown
    rw [← hown]
    exact h.held j hj

/-- A failed attempt takes an entry out of the table that no job stands behind. -/
theorem Inv.dropLock (h : Inv depth s) (hfree : s.locksHeld p fid ≠ some true) :
    Inv depth ((s.setHeld p fid (some false)).dropLock p fid) where
  nodup := h.nodup
  owner := h.owner
  fid := h.fid
  trying := h.trying
  held j hj := by
    have hne : j.fid ≠ fid ∨ j.pid ≠ p := by
      by_contra hcon
      push Not at hcon
      apply hfree
      rw [← hcon.1, ← hcon.2]
      exact h.held j hj
    rw [Pools.dropLock, setHeld_locksHeld_of hne, setHeld_locksHeld_of hne]
    exact h.held j hj

/-- A slot that the table shows as free and the kernel gives is nobody's. -/
theorem Inv.take (h : Inv depth s) {spec : PoolSpec} {slot : ℕ}
    (hfree : s.locksHeld p fid ≠ some true)
    (hown : s.owner fid = none ∨ s.owner fid = some p)
    (hdepth : spec.depth = depth spec.name) (hlt : slot < spec.depth)
    (hfid : poolSlotFid spec.name slot = some fid) :
    Inv depth { (((s.setHeld p fid (some false)).setOwner fid (some p)).setHeld p fid
      (some true)).setTrying p none with jobs := ⟨p, spec, fid⟩ :: s.jobs } := by
  have hne : ∀ j ∈ s.jobs, j.fid ≠ fid := by
    rintro j hj rfl
    exact hfree (h.eq_of_fid hj hown)
  constructor
  · show (fid :: s.jobs.map (·.fid)).Nodup
    rw [List.nodup_cons]
    refine ⟨?_, h.nodup⟩
    intro hmem
    obtain ⟨j, hj, hjf⟩ := List.mem_map.mp hmem
    exact hne j hj hjf
  · intro j hj
    rcases List.mem_cons.mp hj with rfl | hj
    · simp [setOwner_owner_self]
    · simpa [setOwner_owner_of_ne (hne j hj)] using h.owner j hj
  · intro j hj
    rcases List.mem_cons.mp hj with rfl | hj
    · exact setHeld_locksHeld_self
    · show ((_ : Pools).setHeld p fid (some true)).locksHeld j.pid j.fid = some true
      rw [setHeld_locksHeld_of (Or.inl (hne j hj)), setOwner_locksHeld,
        setHeld_locksHeld_of (Or.inl (hne j hj))]
      exact h.held j hj
  · intro j hj
    rcases List.mem_cons.mp hj with rfl | hj
    · exact ⟨hdepth, slot, hlt, hfid⟩
    · exact h.fid j hj
  · exact (h.setTrying (p := p) (t := none) (by simp)).trying

theorem Inv.trySlot (h : Inv depth s) {spec : PoolSpec} {slot : ℕ}
    (hdepth : spec.depth = depth spec.name) (hlt : slot < spec.depth)
    (hfid : poolSlotFid spec.name slot = some fid) :
    Inv depth (s.trySlot p spec slot fid) := by
  have hnext : ∀ spec' slot', some (spec, slot + 1) = some (spec', slot') →
      spec'.depth = depth spec'.name := by
    rintro _ _ ⟨rfl, rfl⟩
    exact hdepth
  rw [Pools.trySlot]
  by_cases hheld : s.locksHeld p fid = some true
  · have hnew : s.newLock p fid = none := if_pos hheld
    rw [hnew]
    exact h.setTrying hnext
  · have hnew : s.newLock p fid = some (s.setHeld p fid (some false)) := if_neg hheld
    rw [hnew]
    by_cases hown : s.owner fid = none ∨ s.owner fid = some p
    · have htry : (s.setHeld p fid (some false)).trylock p fid = some (((s.setHeld p fid
          (some false)).setOwner fid (some p)).setHeld p fid (some true)) := if_pos hown
      simp only [htry]
      exact h.take hheld hown hdepth hlt hfid
    · have htry : (s.setHeld p fid (some false)).trylock p fid = none := if_neg hown
      simp only [htry]
      exact (h.dropLock hheld).setTrying hnext

theorem Inv.release (h : Inv depth s) {j : PoolJob} (hj : j ∈ s.jobs) :
    Inv depth { s.dropOwned j.pid j.fid with jobs := s.jobs.erase j } := by
  have hne : ∀ k ∈ s.jobs.erase j, k ∈ s.jobs ∧ k.fid ≠ j.fid := by
    intro k hk
    have hnd : s.jobs.Nodup := List.Nodup.of_map _ h.nodup
    have hk' := hnd.mem_erase_iff.mp hk
    refine ⟨hk'.2, ?_⟩
    intro hf
    exact hk'.1 (List.inj_on_of_nodup_map h.nodup hk'.2 hj hf)
  constructor
  · exact h.nodup.sublist ((List.erase_sublist).map _)
  · intro k hk
    show ((s.setOwner j.fid none).owner) k.fid = some k.pid
    rw [setOwner_owner_of_ne (hne k hk).2]
    exact h.owner k (hne k hk).1
  · intro k hk
    have hkf := Or.inl (b := k.pid ≠ j.pid) (hne k hk).2
    show (((s.setOwner j.fid none).setHeld j.pid j.fid (some false)).setHeld j.pid j.fid
      none).locksHeld k.pid k.fid = some true
    rw [setHeld_locksHeld_of hkf, setHeld_locksHeld_of hkf]
    exact h.held k (hne k hk).1
  · intro k hk
    exact h.fid k (hne k hk).1
  · exact h.trying

/-- What the others hold outlives an exit. -/
theorem Inv.exit (h : Inv depth s) (p : Pid) : Inv depth (s.exit p) := by
  have hother : ∀ j ∈ (s.exit p).jobs, j ∈ s.jobs ∧ j.pid ≠ p := fun j hj => by
    simpa [Pools.exit] using hj
  constructor
  · exact h.nodup.sublist (List.filter_sublist.map _)
  · intro j hj
    obtain ⟨hmem, hne⟩ := hother j hj
    have hown := h.owner j hmem
    show (if s.owner j.fid = some p then none else s.owner j.fid) = some j.pid
    rw [hown, if_neg (by simpa using hne)]
  · intro j hj
    obtain ⟨hmem, hne⟩ := hother j hj
    show Function.update s.locksHeld p (fun _ => none) j.pid j.fid = some true
    rw [Function.update_of_ne hne]
    exact h.held j hmem
  · exact fun j hj => h.fid j (hother j hj).1
  · intro q spec slot hq
    by_cases hqp : q = p
    · subst hqp
      have hnone : Function.update s.trying q none q = some (spec, slot) := hq
      rw [Function.update_self] at hnone
      cases hnone
    · have hkept : Function.update s.trying p none q = some (spec, slot) := hq
      rw [Function.update_of_ne hqp] at hkept
      exact h.trying q spec slot hkept

theorem Step.inv (hstep : Step depth s s') (h : Inv depth s) : Inv depth s' := by
  cases hstep with
  | begin p spec idle declared =>
    apply h.setTrying
    rintro _ _ ⟨rfl, rfl⟩
    exact declared
  | slot ht lt hfid => exact h.trySlot (h.trying _ _ _ ht) lt hfid
  | giveUp ht ge => exact h.setTrying (by simp)
  | release mem => exact h.release mem
  | exit p => exact h.exit p
  | orphanEnds => exact ⟨h.nodup, h.owner, h.held, h.fid, h.trying⟩
  | other jobs orphans trying owner held =>
    have hge : ∀ j ∈ s.jobs, POOL_LOCK_MAGIC ≤ j.fid := by
      intro j hj
      obtain ⟨-, slot, -, hfid⟩ := h.fid j hj
      exact poolSlotFid_ge hfid
    constructor
    · rw [jobs]
      exact h.nodup
    · intro j hj
      rw [jobs] at hj
      rw [owner _ (hge j hj)]
      exact h.owner j hj
    · intro j hj
      rw [jobs] at hj
      rw [held _ _ (hge j hj)]
      exact h.held j hj
    · rw [jobs]
      exact h.fid
    · rw [trying]
      exact h.trying

theorem run_inv {s₀ : Pools} (h₀ : Start s₀) (h : ReflTransGen (Step depth) s₀ s) :
    Inv depth s := by
  induction h with
  | refl => exact h₀.inv
  | tail _ hstep ih => exact hstep.inv ih

/-- The slots of the jobs of one pool are among as many as its depth. -/
theorem Inv.length_le (h : Inv depth s) (name : List UInt8) :
    (s.jobs.filter (·.spec.name = name)).length ≤ depth name := by
  let slots := (List.range (depth name)).map (poolSlotFid name)
  have hnd : ((s.jobs.filter (·.spec.name = name)).map (some ·.fid)).Nodup := by
    have hsub : (s.jobs.filter (·.spec.name = name)).Sublist s.jobs := List.filter_sublist
    have hmap := (h.nodup.sublist (hsub.map _)).map (Option.some_injective ℕ)
    rwa [List.map_map] at hmap
  have hsub : (s.jobs.filter (·.spec.name = name)).map (some ·.fid) ⊆ slots := by
    intro x hx
    obtain ⟨j, hj, rfl⟩ := List.mem_map.mp hx
    rw [List.mem_filter, decide_eq_true_eq] at hj
    obtain ⟨hd, slot, hlt, hfid⟩ := h.fid j hj.1
    rw [hj.2] at hd hfid
    exact List.mem_map.mpr ⟨slot, List.mem_range.mpr (hd ▸ hlt), hfid⟩
  have hle := (hnd.subperm hsub).length_le
  simpa [slots] using hle

/-- In every run, whoever exits, the jobs that hold a slot are as many as the pool is deep. -/
theorem holders_le {s₀ : Pools} (h₀ : Start s₀) (h : ReflTransGen (Step depth) s₀ s) (name : List UInt8) :
    (s.jobs.filter (·.spec.name = name)).length ≤ depth name := (run_inv h₀ h).length_le name

theorem trySlot_orphans (s : Pools) (p : Pid) (spec : PoolSpec) (slot fid : ℕ) :
    (s.trySlot p spec slot fid).orphans = s.orphans := by
  rw [Pools.trySlot]
  split
  · rfl
  · rename_i hnew
    obtain ⟨-, hnew⟩ := Option.ite_none_left_eq_some.mp hnew
    rw [← Option.some.inj hnew]
    split
    · rename_i htry
      obtain ⟨-, htry⟩ := Option.ite_none_right_eq_some.mp htry
      rw [← Option.some.inj htry]
      rfl
    · rfl

theorem waits_of_orphans (h : s'.orphans = s.orphans) : Waits s s' := by
  rintro p rfl j hj rfl
  have hnone : s.jobs.filter (fun k => k.pid = j.pid) = [] := List.append_left_eq_self.mp h
  exact List.filter_eq_nil_iff.mp hnone j hj (decide_eq_true rfl)

/-- Nobody is left behind by processes that wait for their jobs. -/
theorem orphans_next (hstep : Step depth s s') (hwaits : Waits s s') (h : s.orphans = []) :
    s'.orphans = [] := by
  cases hstep with
  | slot => rw [trySlot_orphans, h]
  | exit p =>
    have hnone : s.jobs.filter (fun j => j.pid = p) = [] := by
      rw [List.filter_eq_nil_iff]
      intro j hj hpid
      exact hwaits p rfl j hj (of_decide_eq_true hpid)
    show s.jobs.filter (fun j => j.pid = p) ++ s.orphans = []
    rw [hnone, h]
    rfl
  | orphanEnds mem => rw [h] at mem; cases mem
  | other jobs orphans trying owner held => rw [orphans, h]
  | _ => exact h

/-- Of processes that wait for their jobs. -/
def WaitingStep (depth : List UInt8 → ℕ) (s s' : Pools) : Prop := Step depth s s' ∧ Waits s s'

theorem pool_depth_respected {s₀ : Pools} (h₀ : Start s₀) (h : ReflTransGen (WaitingStep depth) s₀ s) :
    Respects depth s := by
  have hrun : ReflTransGen (Step depth) s₀ s := ReflTransGen.mono (fun _ _ => And.left) _ _ h
  have horphans : s.orphans = [] := by
    induction h with
    | refl => exact h₀.orphans
    | tail hbefore hstep ih =>
      exact orphans_next hstep.1 hstep.2 (ih (ReflTransGen.mono (fun _ _ => And.left) _ _ hbefore))
  constructor
  · intro name
    rw [horphans, List.append_nil]
    exact holders_le h₀ hrun name
  · exact List.pairwise_map.mp (run_inv h₀ hrun).nodup
  · intro name slot fid hfid id hid
    exact poolSlotFid_apart hfid hid

section Single
/-! The pool `p` of depth 1, and two processes. -/

def idle : Pools := ⟨fun _ => none, fun _ _ => none, fun _ => none, [], []⟩

def single : PoolSpec := ⟨[112], 1, by decide, by decide⟩

def slotByte : ℕ := 147343843196928

/-- A process tries the only slot. -/
def tried (s : Pools) (p : Pid) : Pools := (s.setTrying p (some (single, 0))).trySlot p single 0 slotByte

theorem tried_run (hidle : s.trying p = none) : ReflTransGen (WaitingStep fun _ => 1) s (s.tried p) :=
  (ReflTransGen.single ⟨.begin p single hidle rfl, waits_of_orphans rfl⟩).tail
    ⟨.slot (Function.update_self _ _ _) (by decide) (by decide), waits_of_orphans (trySlot_orphans _ _ _ _ _)⟩

/-- The first process has the slot, and the second one gets none. -/
def refused : Pools := ((idle.tried 0).tried 1).setTrying 1 none

/-- The first one's job ends, it exits, and the second one tries again. -/
def handedOver : Pools :=
  (({ refused.dropOwned 0 slotByte with jobs := refused.jobs.erase ⟨0, single, slotByte⟩ } : Pools).exit
    0).tried 1

theorem pool_depth_respected_single : handedOver.jobs = [⟨1, single, slotByte⟩] ∧
    Respects (fun _ => 1) handedOver := by
  have hrefused : ReflTransGen (WaitingStep fun _ => 1) idle refused :=
    ((tried_run rfl).trans (tried_run rfl)).tail
      ⟨@Step.giveUp _ _ _ single 1 (by decide) (.inl (by decide)), waits_of_orphans rfl⟩
  have hreleased := hrefused.tail
    ⟨.release (j := ⟨0, single, slotByte⟩) (by decide), waits_of_orphans rfl⟩
  have hexited := hreleased.tail ⟨.exit 0, fun p _ j hj => by cases hj⟩
  exact ⟨by decide, pool_depth_respected ⟨fun _ => rfl, rfl, rfl⟩ (hexited.trans (tried_run rfl))⟩

/-- The first process exits while its recipe runs, and the second one takes the slot. -/
def overtaken : Pools := ((idle.tried 0).exit 0).tried 1

theorem not_pool_depth_respected : ¬∀ (depth : List UInt8 → ℕ) (s₀ s : Pools), Start s₀ →
    ReflTransGen (Step depth) s₀ s → Respects depth s := by
  intro h
  have hrun : ReflTransGen (Step fun _ => 1) idle overtaken :=
    (((ReflTransGen.mono (fun _ _ => And.left) _ _ (tried_run rfl)).tail (.exit 0))).trans
      (ReflTransGen.mono (fun _ _ => And.left) _ _ (tried_run rfl))
  have hle := (h _ _ _ ⟨fun _ => rfl, rfl, rfl⟩ hrun).depth [112]
  exact absurd hle (by decide)

end Single
end Pools
end Redo.Processes
