import Mathlib.Data.List.Basic
import Mathlib.Tactic.Common

/-! # Taking from the front until the rest fits a budget -/
namespace Redo.Library

variable {α : Type*} (size : α → ℕ) (budget : ℕ)

def total : List α → ℕ
  | [] => 0
  | a :: l => size a + total l

/-- What is taken if the size of all is thought to be `n`. -/
def taken : ℕ → List α → List α
  | _, [] => []
  | n, a :: l => if n ≤ budget then [] else a :: taken (n - size a) l

variable {size budget} {l l' front rest : List α} {a : α} {n : ℕ}

@[simp] theorem total_nil : total size [] = 0 := rfl

@[simp] theorem total_cons : total size (a :: l) = size a + total size l := rfl

@[simp] theorem total_append : total size (l ++ l') = total size l + total size l' := by
  induction l with
  | nil => simp
  | cons a l ih => simp [ih, Nat.add_assoc]

theorem total_perm (h : l.Perm l') : total size l = total size l' := by
  induction h with
  | nil => rfl
  | cons a h ih => simp [ih]
  | swap a b l => simp [Nat.add_left_comm]
  | trans h h' ih ih' => exact ih.trans ih'

theorem taken_isPrefix : taken size budget n l <+: l := by
  induction l generalizing n with
  | nil => simp [taken]
  | cons a l ih =>
    rw [taken]
    split_ifs
    · simp
    · exact List.cons_prefix_cons.mpr ⟨rfl, ih⟩

theorem taken_eq_nil (h : n ≤ budget) : taken size budget n l = [] := by
  cases l with
  | nil => rfl
  | cons a l => rw [taken, if_pos h]

/-- What stays fits, if the size was known. -/
theorem total_rest (hn : n = total size l) (hrest : l = taken size budget n l ++ rest) :
    total size rest ≤ budget := by
  induction l generalizing n with
  | nil =>
    obtain rfl : [] = rest := by simpa [taken] using hrest
    simp
  | cons a l ih =>
    rw [taken] at hrest
    split_ifs at hrest with hle
    · obtain rfl : a :: l = rest := by simpa using hrest
      omega
    · have htail : l = taken size budget (n - size a) l ++ rest := by simpa using hrest
      apply ih _ htail
      rw [total_cons] at hn
      omega

/-- The last one was taken because what was left without it did not fit. -/
theorem budget_lt_of_taken (h : taken size budget n l = front ++ [a]) : budget + total size front < n := by
  induction l generalizing n front with
  | nil => simp [taken] at h
  | cons b l ih =>
    rw [taken] at h
    split_ifs at h with hle
    · simp at h
    · cases front with
      | nil => simp; omega
      | cons c front =>
        obtain ⟨rfl, htail⟩ := List.cons.inj h
        have hlater := ih htail
        rw [total_cons]
        omega

/-- What is taken goes as far as what is left does not fit. -/
theorem lt_length_taken {i : ℕ} :
    i < (taken size budget (total size l) l).length ↔ budget < total size (l.drop i) := by
  induction l generalizing i with
  | nil => simp [taken]
  | cons a l ih =>
    have hdrop : total size ((a :: l).drop i) + total size ((a :: l).take i) = total size (a :: l) := by
      rw [Nat.add_comm, ← total_append, List.take_append_drop]
    rw [taken]
    split_ifs with hle
    · simp only [List.length_nil, Nat.not_lt_zero, false_iff]
      omega
    · cases i with
      | zero => simpa using hle
      | succ i =>
        rw [total_cons, Nat.add_sub_cancel_left]
        simpa using ih
end Redo.Library
