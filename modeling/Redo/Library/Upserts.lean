import Mathlib.Data.List.Induction
import Mathlib.Data.List.Nodup
import Mathlib.Tactic.Common

/-! # Rows under keys

A row that is written takes the place of the one with its key. After many of them a key has the
row that was written last, and no other.
-/
namespace Redo.Library

variable {α κ : Type*} [DecidableEq κ] {key : α → κ} {x y : α} {l xs : List α} {p : α → Bool}

def upsert (key : α → κ) (x : α) (l : List α) : List α := l.filter (fun y => key y ≠ key x) ++ [x]

def upsertAll (key : α → κ) (xs l : List α) : List α := xs.foldl (fun l x => upsert key x l) l

/-- The last row of the list that has the key. -/
def lastOf (key : α → κ) (xs : List α) (k : κ) : Option α := xs.reverse.find? (key · = k)

@[simp] theorem upsertAll_nil (key : α → κ) (l : List α) : upsertAll key [] l = l := rfl

theorem upsertAll_cons (key : α → κ) (x : α) (xs l : List α) :
    upsertAll key (x :: xs) l = upsertAll key xs (upsert key x l) := rfl

theorem upsertAll_concat (key : α → κ) (xs : List α) (x : α) (l : List α) :
    upsertAll key (xs ++ [x]) l = upsert key x (upsertAll key xs l) := by
  rw [upsertAll, List.foldl_append]
  rfl

theorem lastOf_concat (key : α → κ) (xs : List α) (x : α) (k : κ) :
    lastOf key (xs ++ [x]) k = if key x = k then some x else lastOf key xs k := by
  rw [lastOf, List.reverse_append, List.reverse_singleton, List.singleton_append, List.find?_cons]
  by_cases hx : key x = k
  · simp [hx]
  · simp [hx, lastOf]

/-- A selection that takes the new row sees the write. -/
theorem filter_upsert_pos (hx : p x = true) : (upsert key x l).filter p = upsert key x (l.filter p) := by
  rw [upsert, upsert, List.filter_append, List.filter_filter, List.filter_filter]
  simp only [List.filter_singleton, hx, Bool.and_comm]
  rfl

/-- A selection of rows with other keys does not. -/
theorem filter_upsert_of_ne (hx : p x = false) (hne : ∀ y ∈ l, p y = true → key y ≠ key x) :
    (upsert key x l).filter p = l.filter p := by
  rw [upsert, List.filter_append, List.filter_filter, List.filter_singleton, hx]
  rw [Bool.cond_false, List.append_nil]
  refine List.filter_congr fun y hy => ?_
  cases hpy : p y with
  | false => rfl
  | true => simp [hne y hy hpy]

theorem filter_upsertAll (h : ∀ x ∈ xs, p x = true) :
    (upsertAll key xs l).filter p = upsertAll key xs (l.filter p) := by
  induction xs generalizing l with
  | nil => rfl
  | cons x xs ih =>
    rw [upsertAll_cons, ih fun y hy => h y (List.mem_cons_of_mem x hy),
      filter_upsert_pos (h x List.mem_cons_self), upsertAll_cons]

/-- What was written last under its key is there, and nothing else is. -/
theorem mem_upsertAll_nil : y ∈ upsertAll key xs [] ↔ lastOf key xs (key y) = some y := by
  induction xs using List.reverseRecOn with
  | nil => simp [lastOf]
  | append_singleton xs x ih =>
    rw [upsertAll_concat, lastOf_concat, upsert, List.mem_append, List.mem_filter, ih, List.mem_singleton]
    by_cases hx : key x = key y
    · rw [if_pos hx]
      simp [hx, eq_comm]
    · rw [if_neg hx]
      have hyx : key y ≠ key x := Ne.symm hx
      have hne : y ≠ x := fun he => hx (congrArg key he.symm)
      simp [hyx, hne]

theorem keys_upsert (h : (l.map key).Nodup) : ((upsert key x l).map key).Nodup := by
  rw [upsert, List.map_append, List.map_singleton]
  refine List.Nodup.append ?_ (List.nodup_singleton _) ?_
  · exact h.sublist (List.filter_sublist.map key)
  · intro k hk hkx
    obtain ⟨y, hy, rfl⟩ := List.mem_map.mp hk
    have hne := (List.mem_filter.mp hy).2
    rw [List.mem_singleton.mp hkx] at hne
    simp at hne

theorem keys_upsertAll (h : (l.map key).Nodup) : ((upsertAll key xs l).map key).Nodup := by
  induction xs generalizing l with
  | nil => exact h
  | cons x xs ih => exact ih (keys_upsert h)

end Redo.Library
