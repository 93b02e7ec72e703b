import Mathlib.Data.List.Basic
import Redo.Library.Xorshift

/-! # The order of shuffled targets

With `--shuffle` a small generator picks the places that are exchanged. Its state is the product
it has just given out, so it must not come to zero, where it would stay.
-/
namespace Redo.Scheduler.Shuffle
open Library

def DEFAULT_SEED : BitVec 64 := 0x123456789abcdef0#64

def MULTIPLIER : BitVec 64 := 0x2545F4914F6CDD1D#64

/-- xorshift64* -/
def xorshift (x : BitVec 64) : BitVec 64 :=
  let x := x ^^^ (x >>> 12)
  let x := x ^^^ (x <<< 25)
  let x := x ^^^ (x >>> 27)
  x * MULTIPLIER

def startState (seed : BitVec 64) : BitVec 64 := if seed = 0#64 then DEFAULT_SEED else seed

variable {α : Type*}

/-- `v.swap(i, j)`, which panics at an index behind the end. -/
def swap (v : List α) (i j : ℕ) : Option (List α) :=
  v[i]?.bind fun a => v[j]?.map fun b => (v.set i b).set j a

structure Shuffling (α : Type*) where
  v : List α
  x : BitVec 64

/-- The body of the loop, where `usize` has so many bits. -/
def shuffleStep (usizeBits : ℕ) (s : Shuffling α) (i : ℕ) : Option (Shuffling α) :=
  let x := xorshift s.x
  let j := x.toNat % 2 ^ usizeBits % (i + 1)
  (swap s.v i j).map fun v => ⟨v, x⟩

/-- `(1..n).rev()` -/
def indices (n : ℕ) : List ℕ := (List.range' 1 (n - 1)).reverse

def shuffleLoop (usizeBits : ℕ) (is : List ℕ) (s : Shuffling α) : Option (Shuffling α) :=
  is.foldlM (shuffleStep usizeBits) s

def shuffleInPlaceWithSeed (usizeBits : ℕ) (v : List α) (seed : BitVec 64) : Option (List α) :=
  (shuffleLoop usizeBits (indices v.length) ⟨v, startState seed⟩).map Shuffling.v

/-! ## The generator -/

def INVERSE : BitVec 64 := 0x59071d96d81ecd35#64

theorem mul_multiplier_injective : Function.Injective fun x : BitVec 64 => x * MULTIPLIER := by
  intro x y h
  have hunit : MULTIPLIER * INVERSE = 1#64 := by decide
  have hmul := congrArg (· * INVERSE) h
  simpa [BitVec.mul_assoc, hunit] using hmul

theorem xorshift_injective : Function.Injective xorshift :=
  mul_multiplier_injective.comp ((xor_ushiftRight_injective (by decide)).comp
    ((xor_shiftLeft_injective (by decide)).comp (xor_ushiftRight_injective (by decide))))

theorem xorshift_zero : xorshift 0#64 = 0#64 := by decide

theorem startState_ne_zero (seed : BitVec 64) : startState seed ≠ 0#64 := by
  rw [startState]
  split_ifs with h
  · decide
  · exact h

theorem iterate_xorshift_ne_zero (seed : BitVec 64) (n : ℕ) : xorshift^[n] (startState seed) ≠ 0#64 :=
  iterate_ne xorshift_injective xorshift_zero (startState_ne_zero seed) n

/-! ## The loop -/

variable {v : List α} {i j usizeBits : ℕ}

theorem swap_perm (hi : i < v.length) (hj : j < v.length) : ∃ v', swap v i j = some v' ∧ v'.Perm v := by
  refine ⟨(v.set i v[j]).set j v[i], ?_, List.set_set_perm hi hj⟩
  simp [swap, hi, hj]

/-- The other place is not behind the first one. -/
theorem shuffleStep_perm {x : BitVec 64} (hi : i < v.length) :
    ∃ v', shuffleStep usizeBits ⟨v, x⟩ i = some ⟨v', xorshift x⟩ ∧ v'.Perm v := by
  have hle : (xorshift x).toNat % 2 ^ usizeBits % (i + 1) < i + 1 := Nat.mod_lt _ i.succ_pos
  have hj : (xorshift x).toNat % 2 ^ usizeBits % (i + 1) < v.length := by omega
  obtain ⟨v', hswap, hperm⟩ := swap_perm hi hj
  exact ⟨v', by simp [shuffleStep, hswap], hperm⟩

theorem shuffleLoop_perm {is : List ℕ} {x : BitVec 64} (h : ∀ i ∈ is, i < v.length) :
    ∃ v', shuffleLoop usizeBits is ⟨v, x⟩ = some ⟨v', xorshift^[is.length] x⟩ ∧ v'.Perm v := by
  induction is generalizing v x with
  | nil => exact ⟨v, rfl, List.Perm.refl v⟩
  | cons i is ih =>
    obtain ⟨v₁, hstep, hperm₁⟩ := @shuffleStep_perm α v i usizeBits x (h i List.mem_cons_self)
    have hrest : ∀ i ∈ is, i < v₁.length := by
      intro i hi
      rw [hperm₁.length_eq]
      exact h i (List.mem_cons_of_mem _ hi)
    obtain ⟨v₂, hloop, hperm₂⟩ := @ih v₁ (xorshift x) hrest
    refine ⟨v₂, ?_, hperm₂.trans hperm₁⟩
    rw [shuffleLoop, List.foldlM_cons, hstep, List.length_cons, Function.iterate_succ_apply]
    exact hloop

theorem lt_of_mem_indices {n : ℕ} (h : i ∈ indices n) : i < n := by
  simp [indices] at h
  omega

/-- No index is behind the end, nothing is lost or doubled, and the generator does not come to
zero, neither in the loop nor after any number of steps. -/
theorem shuffleInPlaceWithSeed_permutes (usizeBits : ℕ) (v : List α) (seed : BitVec 64) :
    (∃ v', shuffleInPlaceWithSeed usizeBits v seed = some v' ∧ v'.Perm v) ∧
      (∀ n, ∃ s, shuffleLoop usizeBits ((indices v.length).take n) ⟨v, startState seed⟩ = some s ∧
        s.v.Perm v ∧ s.x ≠ 0#64) ∧
      ∀ n, xorshift^[n] (startState seed) ≠ 0#64 := by
  refine ⟨?_, fun n => ?_, iterate_xorshift_ne_zero seed⟩
  · obtain ⟨v', hloop, hperm⟩ := @shuffleLoop_perm α v usizeBits (indices v.length) (startState seed)
      fun i => lt_of_mem_indices
    exact ⟨v', by simp [shuffleInPlaceWithSeed, hloop], hperm⟩
  · obtain ⟨v', hloop, hperm⟩ := @shuffleLoop_perm α v usizeBits ((indices v.length).take n) (startState seed)
      fun i hi => lt_of_mem_indices (List.mem_of_mem_take hi)
    exact ⟨_, hloop, hperm, iterate_xorshift_ne_zero seed _⟩

example : shuffleInPlaceWithSeed 64 [0, 1, 2, 3, 4] 1#64 = some [3, 2, 4, 1, 0] := by decide
end Redo.Scheduler.Shuffle
