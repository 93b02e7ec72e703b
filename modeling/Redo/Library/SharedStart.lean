import Mathlib.Data.List.Lex

/-! # What lists begin with

What two lists both begin with, every list between them in the lexicographic order begins with.
-/
namespace Redo.Library

variable {α : Type*} {p l r x : List α}

def sharedStart [DecidableEq α] : List α → List α → List α
  | a :: l, b :: r => if a = b then a :: sharedStart l r else []
  | _, _ => []

/-- It is the longest start of both. -/
theorem isPrefix_sharedStart_iff [DecidableEq α] : p <+: sharedStart l r ↔ p <+: l ∧ p <+: r := by
  fun_induction sharedStart l r generalizing p with
  | case1 a l r ih =>
    cases p with
    | nil => simp
    | cons b p => simp only [List.cons_prefix_cons, ih, and_and_and_comm, and_self]
  | case2 a l b r hab =>
    cases p with
    | nil => simp
    | cons c p =>
      simp only [List.cons_prefix_cons, List.prefix_nil, reduceCtorEq, false_iff]
      rintro ⟨⟨rfl, -⟩, rfl, -⟩
      exact hab rfl
  | case3 l r hnil =>
    cases l with
    | nil => simp +contextual
    | cons a l =>
      cases r with
      | nil => simp +contextual
      | cons b r => exact absurd rfl (hnil a l b r rfl)

theorem sharedStart_isPrefix_left [DecidableEq α] (l r : List α) : sharedStart l r <+: l :=
  (isPrefix_sharedStart_iff.mp List.prefix_rfl).1

theorem isPrefix_of_between [LinearOrder α] (hl : p <+: l) (hr : p <+: r) (hlx : l ≤ x) (hxr : x ≤ r) :
    p <+: x := by
  induction p generalizing l x r with
  | nil => exact List.nil_prefix
  | cons a p ih =>
    obtain ⟨s, rfl, hs⟩ := List.cons_prefix_iff.mp hl
    obtain ⟨t, rfl, ht⟩ := List.cons_prefix_iff.mp hr
    cases x with
    | nil => exact absurd (List.nil_lt_cons a s) (not_lt.mpr hlx)
    | cons b x =>
      rw [← not_lt, List.cons_lt_cons_iff, not_or] at hlx hxr
      -- nothing stands between two lists with one head but lists with this head
      obtain rfl : a = b := le_antisymm (not_lt.mp hlx.1) (not_lt.mp hxr.1)
      have hlow : s ≤ x := not_lt.mp fun h => hlx.2 ⟨rfl, h⟩
      have hhigh : x ≤ t := not_lt.mp fun h => hxr.2 ⟨rfl, h⟩
      exact List.cons_prefix_cons.mpr ⟨rfl, ih hs ht hlow hhigh⟩
end Redo.Library
