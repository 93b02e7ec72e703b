import Mathlib.Data.List.Nodup
import Mathlib.Data.List.Perm.Subperm
import Mathlib.Data.Nat.Find
import Mathlib.Order.Bounds.Basic
import Mathlib.Tactic.Common

/-! # Breadth-first search to a depth

A queue of points with their distances, and the points that were ever put in. The search expands
the points below the depth. Level by level the queue holds what is at one distance, so a point is
expanded just when its shortest distance is below the depth.
-/
namespace Redo.Library

variable {α : Type*} [DecidableEq α]

/-- A walk of so many steps. -/
inductive Walk (next : α → List α) : ℕ → α → α → Prop
  | refl (a : α) : Walk next 0 a a
  | tail {n : ℕ} {a b c : α} (h : Walk next n a b) (hc : c ∈ next b) : Walk next (n + 1) a c

/-- The length of a shortest walk. -/
def Distance (next : α → List α) (a b : α) (n : ℕ) : Prop := IsLeast {n | Walk next n a b} n

/-- The new ones of a list, in order. -/
def enter : List α → List α → List α
  | [], _ => []
  | b :: l, seen => if b ∈ seen then enter l seen else b :: enter l (seen ++ [b])

/-- The points that the search expands, in order. The fuel is for the points taken from the queue. -/
def explore (next : α → List α) (depth : ℕ) : ℕ → List (α × ℕ) → List α → Option (List α)
  | _, [], _ => some []
  | 0, _ :: _, _ => none
  | fuel + 1, (a, d) :: queue, seen =>
    if depth ≤ d then explore next depth fuel queue seen
    else
      (explore next depth fuel (queue ++ (enter (next a) seen).map (·, d + 1))
        (seen ++ enter (next a) seen)).map (a :: ·)

variable {next : α → List α} {a b root : α} {l l' seen : List α} {queue : List (α × ℕ)} {depth fuel d n k : ℕ}

omit [DecidableEq α] in
theorem exists_distance_iff (n : ℕ) : (∃ k ≤ n, Distance next a b k) ↔ ∃ k ≤ n, Walk next k a b := by
  constructor
  · rintro ⟨k, hk, hleast⟩
    exact ⟨k, hk, hleast.1⟩
  · rintro ⟨k, hk, hwalk⟩
    classical
    have hex : ∃ k, Walk next k a b := ⟨k, hwalk⟩
    exact ⟨Nat.find hex, (Nat.find_min' hex hwalk).trans hk, Nat.find_spec hex, fun m hm => Nat.find_min' hex hm⟩

omit [DecidableEq α] in
theorem exists_distance_lt_iff (n : ℕ) : (∃ k < n, Distance next a b k) ↔ ∃ k < n, Walk next k a b := by
  cases n with
  | zero => simp
  | succ n => simpa only [Nat.lt_succ_iff] using exists_distance_iff n

omit [DecidableEq α] in
/-- What is not farther than the depth is the point itself, or one step from a point below it. -/
theorem within_iff (n : ℕ) : (∃ k ≤ n, Distance next a b k) ↔
    b = a ∨ ∃ c, (∃ k < n, Distance next a c k) ∧ b ∈ next c := by
  simp only [exists_distance_iff, exists_distance_lt_iff]
  constructor
  · rintro ⟨k, hk, hwalk⟩
    cases hwalk with
    | refl => exact Or.inl rfl
    | @tail k _ c _ hwalk hb => exact Or.inr ⟨c, ⟨k, hk, hwalk⟩, hb⟩
  · rintro (rfl | ⟨c, ⟨k, hk, hwalk⟩, hb⟩)
    · exact ⟨0, Nat.zero_le n, .refl _⟩
    · exact ⟨k + 1, hk, hwalk.tail hb⟩

omit [DecidableEq α] in
theorem Walk.mono {next' : α → List α} (h : ∀ a, next a ⊆ next' a) (hwalk : Walk next n a b) :
    Walk next' n a b := by
  induction hwalk with
  | refl => exact .refl _
  | tail _ hc ih => exact ih.tail (h _ hc)

omit [DecidableEq α] in
/-- Only who is next to whom matters for a distance. -/
theorem distance_congr {next' : α → List α} (h : ∀ a b, b ∈ next a ↔ b ∈ next' a) :
    Distance next a b n ↔ Distance next' a b n := by
  have hwalk : ∀ k, Walk next k a b ↔ Walk next' k a b := fun k =>
    ⟨Walk.mono fun a b hb => (h a b).mp hb, Walk.mono fun a b hb => (h a b).mpr hb⟩
  rw [Distance, Distance, Set.ext hwalk]

theorem enter_append (l l' seen : List α) :
    enter (l ++ l') seen = enter l seen ++ enter l' (seen ++ enter l seen) := by
  induction l generalizing seen with
  | nil => simp [enter]
  | cons b l ih =>
    rw [List.cons_append, enter, enter]
    split_ifs
    · exact ih seen
    · rw [ih, List.cons_append, List.append_assoc, List.singleton_append]

theorem mem_enter : b ∈ enter l seen ↔ b ∈ l ∧ b ∉ seen := by
  induction l generalizing seen with
  | nil => simp [enter]
  | cons c l ih =>
    rw [enter]
    split_ifs with hc
    · rw [ih]
      have hne : b ∉ seen → b ≠ c := fun hb he => hb (he ▸ hc)
      constructor
      · rintro ⟨hl, hb⟩
        exact ⟨List.mem_cons_of_mem c hl, hb⟩
      · rintro ⟨hl, hb⟩
        exact ⟨(List.mem_cons.mp hl).resolve_left (hne hb), hb⟩
    · rw [List.mem_cons, ih, List.mem_append, List.mem_singleton, List.mem_cons]
      by_cases hb : b = c
      · subst hb
        simp [hc]
      · simp [hb]

theorem mem_append_enter : b ∈ seen ++ enter l seen ↔ b ∈ seen ∨ b ∈ l := by
  rw [List.mem_append, mem_enter]
  by_cases hb : b ∈ seen <;> simp [hb]

theorem nodup_append_enter (h : seen.Nodup) : (seen ++ enter l seen).Nodup := by
  induction l generalizing seen with
  | nil => simpa [enter] using h
  | cons b l ih =>
    rw [enter]
    split_ifs with hb
    · exact ih h
    · have hnext : (seen ++ [b]).Nodup := by
        rw [List.nodup_append]
        refine ⟨h, List.nodup_singleton b, fun x hx y hy he => hb ?_⟩
        rw [← List.mem_singleton.mp hy, ← he]
        exact hx
      have hrest := ih hnext
      rwa [List.append_assoc] at hrest

/-- The points at the depth are taken from the queue and left. -/
theorem explore_last (h : depth ≤ d) :
    explore next depth (l.length + fuel) (l.map (·, d)) seen = some [] := by
  induction l with
  | nil => cases fuel <;> rfl
  | cons a l ih =>
    rw [List.length_cons, Nat.add_right_comm, List.map_cons, explore, if_pos h]
    exact ih

/-- A whole level is taken from the queue, and the next one is behind it. -/
theorem explore_level (h : d < depth) :
    explore next depth (l.length + fuel) (l.map (·, d) ++ l'.map (·, d + 1)) seen =
      (explore next depth fuel ((l' ++ enter (l.flatMap next) seen).map (·, d + 1))
        (seen ++ enter (l.flatMap next) seen)).map (l ++ ·) := by
  induction l generalizing l' seen with
  | nil =>
    rw [List.length_nil, Nat.zero_add, List.flatMap_nil, enter, List.append_nil, List.append_nil]
    exact (congrFun Option.map_id _).symm
  | cons a l ih =>
    rw [List.length_cons, Nat.add_right_comm, List.map_cons, List.cons_append, explore,
      if_neg (Nat.not_le_of_lt h), List.append_assoc, ← List.map_append, ih, Option.map_map,
      List.flatMap_cons, enter_append]
    simp only [List.append_assoc]
    rfl

/-- The points at the next distance, and all seen so far. -/
def nextLevel (next : α → List α) (s : List α × List α) : List α × List α :=
  (enter (s.1.flatMap next) s.2, s.2 ++ enter (s.1.flatMap next) s.2)

/-- The points of so many levels. -/
def upTo (next : α → List α) : ℕ → List α × List α → List α
  | 0, _ => []
  | n + 1, s => s.1 ++ upTo next n (nextLevel next s)

theorem explore_upTo (s : List α × List α) (h : (upTo next (n + 1) s).length ≤ fuel) :
    explore next (d + n) fuel (s.1.map (·, d)) s.2 = some (upTo next n s) := by
  induction n generalizing s d fuel with
  | zero =>
    have hlength : fuel = s.1.length + (fuel - s.1.length) := by
      rw [upTo, upTo, List.append_nil] at h
      omega
    rw [hlength]
    exact explore_last le_rfl
  | succ n ih =>
    rw [upTo, List.length_append] at h
    have hlength : fuel = s.1.length + (fuel - s.1.length) := by omega
    have hlevel := @explore_level _ _ next s.1 [] s.2 (d + (n + 1)) (fuel - s.1.length) d (by omega)
    rw [List.map_nil, List.append_nil, List.nil_append] at hlevel
    have hrest := @ih (fuel - s.1.length) (d + 1) (nextLevel next s) (by omega)
    have hdepth : d + 1 + n = d + (n + 1) := by omega
    rw [hdepth] at hrest
    rw [hlength, hlevel]
    exact congrArg (Option.map (s.1 ++ ·)) hrest

theorem upTo_seen (before : List α) (s : List α × List α) (h : s.2 = before ++ s.1) :
    before ++ upTo next (n + 1) s = ((nextLevel next)^[n] s).2 := by
  induction n generalizing before s with
  | zero => rw [upTo, upTo, List.append_nil, ← h]; rfl
  | succ n ih =>
    have hnext := ih s.2 (nextLevel next s) rfl
    rw [Function.iterate_succ_apply, ← hnext, upTo, ← List.append_assoc, ← h]

/-- What the search knows when the queue holds the points at one distance. -/
structure Level (next : α → List α) (root : α) (k : ℕ) (s : List α × List α) : Prop where
  seen : ∀ b, b ∈ s.2 ↔ ∃ m ≤ k, Walk next m root b
  level : s.1 ⊆ s.2
  closed : ∀ a ∈ s.2, a ∉ s.1 → next a ⊆ s.2
  nodup : s.2.Nodup

omit [DecidableEq α] in
theorem Level.start (next : α → List α) (root : α) : Level next root 0 ([root], [root]) where
  seen b := by
    rw [List.mem_singleton]
    constructor
    · rintro rfl
      exact ⟨0, le_rfl, .refl _⟩
    · rintro ⟨m, hm, hwalk⟩
      obtain rfl := Nat.le_zero.mp hm
      cases hwalk
      rfl
  level := List.Subset.refl _
  closed := fun _ ha hna => absurd ha hna
  nodup := List.nodup_singleton root

theorem Level.step {s : List α × List α} (h : Level next root k s) : Level next root (k + 1) (nextLevel next s) where
  seen b := by
    rw [nextLevel, mem_append_enter, h.seen, List.mem_flatMap]
    constructor
    · rintro (⟨m, hm, hwalk⟩ | ⟨a, ha, hb⟩)
      · exact ⟨m, Nat.le_succ_of_le hm, hwalk⟩
      · obtain ⟨m, hm, hwalk⟩ := (h.seen a).mp (h.level ha)
        exact ⟨m + 1, Nat.succ_le_succ hm, hwalk.tail hb⟩
    · rintro ⟨m, hm, hwalk⟩
      cases hwalk with
      | refl => exact Or.inl ⟨0, Nat.zero_le k, .refl _⟩
      | @tail m _ a _ hwalk hb =>
        have ha := (h.seen a).mpr ⟨m, Nat.le_of_succ_le_succ hm, hwalk⟩
        by_cases hlevel : a ∈ s.1
        · exact Or.inr ⟨a, hlevel, hb⟩
        · exact Or.inl ((h.seen b).mp (h.closed a ha hlevel hb))
  level := fun b hb => List.mem_append_right _ hb
  closed := by
    intro a ha hna b hb
    rw [nextLevel, mem_append_enter]
    have hseen : a ∈ s.2 := (List.mem_append.mp ha).resolve_right hna
    by_cases hlevel : a ∈ s.1
    · exact Or.inr (List.mem_flatMap.mpr ⟨a, hlevel, hb⟩)
    · exact Or.inl (h.closed a hseen hlevel hb)
  nodup := nodup_append_enter h.nodup

theorem level_iterate (next : α → List α) (root : α) (k : ℕ) :
    Level next root k ((nextLevel next)^[k] ([root], [root])) := by
  induction k with
  | zero => exact Level.start next root
  | succ k ih =>
    rw [Function.iterate_succ_apply']
    exact ih.step

/-- With fuel for every point the search ends, and it expands just what lies below the depth. -/
theorem explore_iff {points : List α} (hroot : root ∈ points) (hpoints : ∀ a, next a ⊆ points)
    (hfuel : points.length ≤ fuel) :
    ∃ expanded, explore next depth fuel [(root, 0)] [root] = some expanded ∧
      ∀ b, b ∈ expanded ↔ ∃ k < depth, Distance next root b k := by
  have hseen : ∀ n, upTo next (n + 1) ([root], [root]) = ((nextLevel next)^[n] ([root], [root])).2 :=
    fun n => upTo_seen [] ([root], [root]) rfl
  have hsub : ∀ n, upTo next (n + 1) ([root], [root]) ⊆ points := by
    intro n b hb
    rw [hseen, (level_iterate next root n).seen] at hb
    obtain ⟨m, -, hwalk⟩ := hb
    cases hwalk with
    | refl => exact hroot
    | tail _ hb => exact hpoints _ hb
  have hnodup : (upTo next (depth + 1) ([root], [root])).Nodup := by
    rw [hseen]
    exact (level_iterate next root depth).nodup
  have hlength := (hnodup.subperm (hsub depth)).length_le
  have hexplore := @explore_upTo _ _ next fuel 0 depth ([root], [root]) (hlength.trans hfuel)
  rw [Nat.zero_add] at hexplore
  refine ⟨_, hexplore, fun b => ?_⟩
  cases depth with
  | zero => simp [upTo]
  | succ n =>
    rw [hseen, (level_iterate next root n).seen, ← exists_distance_iff]
    exact exists_congr fun k => and_congr_left fun _ => Nat.lt_succ_iff.symm

end Redo.Library
