import Mathlib.Data.BitVec
import Mathlib.Logic.Function.Iterate

/-! # Words mixed with their shifts

A word can be had back from its xor with its own shift, as no word but zero is its own shift.
-/
namespace Redo.Library

variable {w k : ℕ} {x y : BitVec w}

theorem eq_zero_of_ushiftRight (hk : 0 < k) (h : x = x >>> k) : x = 0#w := by
  have hnat : x.toNat = x.toNat / 2 ^ k := by
    conv_lhs => rw [h]
    rw [BitVec.toNat_ushiftRight, Nat.shiftRight_eq_div_pow]
  by_contra hne
  have hpos : 0 < x.toNat := by
    apply Nat.pos_of_ne_zero
    simpa [BitVec.toNat_eq] using hne
  have hlt := Nat.div_lt_self hpos (Nat.one_lt_two_pow hk.ne')
  omega

theorem eq_zero_of_shiftLeft (hk : 0 < k) (h : x = x <<< k) : x = 0#w := by
  ext i hi
  -- a bit is the one `k` places below it, and at last one that was shifted in
  induction i using Nat.strong_induction_on with
  | _ i ih =>
    rw [h, BitVec.getElem_shiftLeft]
    by_cases hik : i < k
    · simp [hik]
    · have hlow := ih (i - k) (by omega) (by omega)
      simpa [hik] using hlow

/-- A mixing step keeps words apart if its shift moves every word but zero. -/
theorem xor_self_injective {f : BitVec w → BitVec w} (hxor : ∀ x y, f (x ^^^ y) = f x ^^^ f y)
    (hfix : ∀ x, x = f x → x = 0#w) : Function.Injective fun x => x ^^^ f x := by
  intro x y h
  have hdiff : x ^^^ y = f (x ^^^ y) := by
    apply BitVec.xor_eq_zero_iff.mp
    rw [hxor]
    calc x ^^^ y ^^^ (f x ^^^ f y) = (x ^^^ f x) ^^^ (y ^^^ f y) := by ac_rfl
      _ = 0#w := BitVec.xor_eq_zero_iff.mpr h
  exact BitVec.xor_eq_zero_iff.mp (hfix _ hdiff)

theorem xor_ushiftRight_injective (hk : 0 < k) : Function.Injective fun x : BitVec w => x ^^^ (x >>> k) :=
  xor_self_injective (fun x y => BitVec.ushiftRight_xor_distrib x y k) fun _ => eq_zero_of_ushiftRight hk

theorem xor_shiftLeft_injective (hk : 0 < k) : Function.Injective fun x : BitVec w => x ^^^ (x <<< k) :=
  xor_self_injective (fun x y => BitVec.shiftLeft_xor_distrib x y k) fun _ => eq_zero_of_shiftLeft hk

/-- A generator that keeps states apart and has zero only from zero never comes to zero. -/
theorem iterate_ne {α : Type*} {f : α → α} {z x : α} (hf : Function.Injective f) (hz : f z = z) (hx : x ≠ z) (n : ℕ) :
    f^[n] x ≠ z := by
  intro h
  have hzero : f^[n] z = z := Function.iterate_fixed hz n
  exact hx (hf.iterate n (h.trans hzero.symm))
end Redo.Library
