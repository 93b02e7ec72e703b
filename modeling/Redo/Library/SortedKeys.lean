import Mathlib.Data.List.Sort
import Mathlib.Tactic.Common

/-! # Sorted by a key, one for each

A stable sort leaves the first element of each key in front of the others of that key, and these
are taken out. What stays is the first element of each key.
-/
namespace Redo.Library

variable {α κ : Type*} [LinearOrder κ] {key : α → κ} {x y : α} {l : List α} {k : κ}

def sortBy (key : α → κ) (l : List α) : List α := l.insertionSort fun a b => key a ≤ key b

/-- Of neighbours with one key the first stays. -/
def dedupFrom (key : α → κ) (a : α) : List α → List α
  | [] => [a]
  | b :: l => if key a = key b then dedupFrom key a l else a :: dedupFrom key b l

def dedupBy (key : α → κ) : List α → List α
  | [] => []
  | a :: l => dedupFrom key a l

def firstOf (key : α → κ) (l : List α) (k : κ) : Option α := l.find? (key · = k)

theorem firstOf_cons (key : α → κ) (x : α) (l : List α) (k : κ) :
    firstOf key (x :: l) k = if key x = k then some x else firstOf key l k := by
  rw [firstOf, List.find?_cons]
  by_cases hx : key x = k
  · simp [hx]
  · simp [hx, firstOf]

theorem firstOf_orderedInsert (x : α) (l : List α) (k : κ) :
    firstOf key (l.orderedInsert (fun a b => key a ≤ key b) x) k =
      if key x = k then some x else firstOf key l k := by
  induction l with
  | nil => exact firstOf_cons key x [] k
  | cons y l ih =>
    rw [List.orderedInsert_cons]
    split_ifs with hxy hx hx
    · rw [firstOf_cons, if_pos hx]
    · rw [firstOf_cons, if_neg hx]
    · rw [firstOf_cons, ih, if_pos hx, if_neg fun hy => hxy (hx.trans hy.symm).le]
    · rw [firstOf_cons, ih, if_neg hx, firstOf_cons]

/-- The sort is stable. -/
@[simp] theorem firstOf_sortBy (key : α → κ) (l : List α) (k : κ) :
    firstOf key (sortBy key l) k = firstOf key l k := by
  induction l with
  | nil => rfl
  | cons x l ih =>
    rw [sortBy, List.insertionSort_cons, firstOf_orderedInsert, ← sortBy, ih, firstOf_cons]

@[simp] theorem mem_sortBy : x ∈ sortBy key l ↔ x ∈ l := List.mem_insertionSort _

theorem firstOf_dedupFrom (key : α → κ) (a : α) (l : List α) (k : κ) :
    firstOf key (dedupFrom key a l) k = firstOf key (a :: l) k := by
  induction l generalizing a with
  | nil => rfl
  | cons b l ih =>
    rw [dedupFrom]
    split_ifs with hab
    · rw [ih, firstOf_cons, firstOf_cons, firstOf_cons, hab]
      split_ifs <;> rfl
    · rw [firstOf_cons, ih, firstOf_cons key a]

@[simp] theorem firstOf_dedupBy (key : α → κ) (l : List α) (k : κ) :
    firstOf key (dedupBy key l) k = firstOf key l k := by
  cases l with
  | nil => rfl
  | cons a l => exact firstOf_dedupFrom key a l k

theorem mem_of_mem_dedupFrom {a : α} (h : x ∈ dedupFrom key a l) : x ∈ a :: l := by
  induction l generalizing a with
  | nil => exact h
  | cons b l ih =>
    rw [dedupFrom] at h
    split_ifs at h
    · rcases List.mem_cons.mp (ih h) with hx | hx
      · exact List.mem_cons.mpr (Or.inl hx)
      · exact List.mem_cons_of_mem a (List.mem_cons_of_mem b hx)
    · rcases List.mem_cons.mp h with hx | hx
      · exact List.mem_cons.mpr (Or.inl hx)
      · exact List.mem_cons_of_mem a (ih hx)

theorem pairwise_dedupFrom {a : α} (h : (a :: l).Pairwise fun a b => key a ≤ key b) :
    (dedupFrom key a l).Pairwise fun a b => key a < key b := by
  induction l generalizing a with
  | nil => exact List.pairwise_singleton _ a
  | cons b l ih =>
    obtain ⟨ha, hrest⟩ := List.pairwise_cons.mp h
    obtain ⟨hb, hl⟩ := List.pairwise_cons.mp hrest
    rw [dedupFrom]
    split_ifs with hab
    · exact ih (List.pairwise_cons.mpr ⟨fun c hc => ha c (List.mem_cons_of_mem b hc), hl⟩)
    · refine List.pairwise_cons.mpr ⟨fun c hc => ?_, ih hrest⟩
      have hlt : key a < key b := lt_of_le_of_ne (ha b List.mem_cons_self) hab
      rcases List.mem_cons.mp (mem_of_mem_dedupFrom hc) with rfl | hc
      · exact hlt
      · exact hlt.trans_le (hb c hc)

theorem pairwise_dedupBy (h : l.Pairwise fun a b => key a ≤ key b) :
    (dedupBy key l).Pairwise fun a b => key a < key b := by
  cases l with
  | nil => exact List.Pairwise.nil
  | cons a l => exact pairwise_dedupFrom h

/-- Where the keys differ, an element is the first of its key. -/
theorem mem_iff_firstOf (h : l.Pairwise fun a b => key a < key b) : x ∈ l ↔ firstOf key l (key x) = some x := by
  induction l with
  | nil => simp [firstOf]
  | cons y l ih =>
    obtain ⟨hy, hrest⟩ := List.pairwise_cons.mp h
    rw [firstOf_cons, List.mem_cons]
    split_ifs with heq
    · constructor
      · rintro (rfl | hx)
        · rfl
        · exact absurd heq (hy x hx).ne
      · exact fun hsome => Or.inl (Option.some.inj hsome).symm
    · rw [← ih hrest]
      exact or_iff_right fun he => heq (congrArg key he.symm)

def sortedUnique (key : α → κ) (l : List α) : List α := dedupBy key (sortBy key l)

theorem pairwise_sortedUnique (key : α → κ) (l : List α) :
    (sortedUnique key l).Pairwise fun a b => key a < key b :=
  pairwise_dedupBy (List.pairwise_insertionSort _ l)

/-- What stays is the first of each key. -/
theorem mem_sortedUnique : x ∈ sortedUnique key l ↔ firstOf key l (key x) = some x := by
  rw [mem_iff_firstOf (pairwise_sortedUnique key l), sortedUnique, firstOf_dedupBy, firstOf_sortBy]

/-- Where elements with one key are one, all stay. -/
theorem mem_sortedUnique_of_injOn (h : ∀ a ∈ l, ∀ b ∈ l, key a = key b → a = b) :
    x ∈ sortedUnique key l ↔ x ∈ l := by
  rw [mem_sortedUnique]
  constructor
  · exact fun hfirst => List.mem_of_find?_eq_some hfirst
  · intro hx
    have hsome : (firstOf key l (key x)).isSome = true := by
      rw [firstOf, List.find?_isSome]
      exact ⟨x, hx, decide_eq_true rfl⟩
    obtain ⟨y, hy⟩ := Option.isSome_iff_exists.mp hsome
    have hkey : key y = key x := by simpa using List.find?_some hy
    rw [hy, h y (List.mem_of_find?_eq_some hy) x hx hkey]

section Lookup
variable {ι β : Type*} [DecidableEq ι]

/-- A table of a function on some keys. -/
theorem lookup_tabulate (f : ι → β) (keys : List ι) (i : ι) :
    (keys.map fun a => (a, f a)).lookup i = if i ∈ keys then some (f i) else none := by
  induction keys with
  | nil => rfl
  | cons a keys ih =>
    rw [List.map_cons, List.lookup_cons]
    by_cases ha : i = a
    · subst ha
      simp
    · have hbeq : (i == a) = false := beq_eq_false_iff_ne.mpr ha
      rw [hbeq, ih]
      simp [ha]

omit [DecidableEq ι] in
/-- Where the keys differ, a key has what stands with it. -/
theorem lookup_iff_mem [BEq ι] [LawfulBEq ι] {table : List (ι × β)} (h : (table.map Prod.fst).Nodup) {i : ι} {b : β} :
    table.lookup i = some b ↔ (i, b) ∈ table := by
  induction table with
  | nil => simp
  | cons p table ih =>
    obtain ⟨a, c⟩ := p
    obtain ⟨ha, hrest⟩ := List.nodup_cons.mp h
    rw [List.lookup_cons, List.mem_cons, Prod.mk.injEq]
    by_cases hia : i = a
    · subst hia
      have hnot : (i, b) ∉ table := fun hb => ha (List.mem_map.mpr ⟨(i, b), hb, rfl⟩)
      simp [hnot, eq_comm]
    · have hbeq : (i == a) = false := beq_eq_false_iff_ne.mpr hia
      rw [hbeq, ih hrest]
      simp [hia]

end Lookup
end Redo.Library
