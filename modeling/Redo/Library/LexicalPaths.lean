import Mathlib.Data.List.Basic
import Mathlib.Tactic.Common

/-! # Paths as moves in a tree of names

A place is the list of names on the way to it from the root. A path moves from one place to
another without a look at what is there, and above the root there is the root. Between any two
places there is one shortest path.
-/
namespace Redo.Library

variable {ν : Type*}

inductive Move (ν : Type*)
  | up
  | down (name : ν)
deriving DecidableEq, Repr

def walk (here : List ν) : List (Move ν) → List ν
  | [] => here
  | .up :: path => walk here.dropLast path
  | .down name :: path => walk (here ++ [name]) path

def ups (n : ℕ) : List (Move ν) := List.replicate n .up

def downs (names : List ν) : List (Move ν) := names.map .down

/-- Up to where the places part, and down from there. -/
def relative [DecidableEq ν] : List ν → List ν → List (Move ν)
  | [], target => downs target
  | here, [] => ups here.length
  | a :: here, b :: target =>
    if a = b then relative here target else ups (here.length + 1) ++ downs (b :: target)

theorem walk_append (here : List ν) (p q : List (Move ν)) :
    walk here (p ++ q) = walk (walk here p) q := by
  induction p generalizing here with
  | nil => rfl
  | cons m p ih =>
    cases m with
    | up => exact ih here.dropLast
    | down name => exact ih (here ++ [name])

@[simp] theorem walk_downs (here names : List ν) : walk here (downs names) = here ++ names := by
  induction names generalizing here with
  | nil => rw [List.append_nil]; rfl
  | cons name names ih =>
    have hrest := ih (here ++ [name])
    rwa [List.append_assoc] at hrest

@[simp] theorem walk_ups (here : List ν) (n : ℕ) :
    walk here (ups n) = here.take (here.length - n) := by
  induction n generalizing here with
  | zero => simp [ups, walk]
  | succ n ih =>
    have hrest := ih here.dropLast
    rw [List.length_dropLast, List.dropLast_eq_take, List.take_take] at hrest
    show walk here.dropLast (ups n) = _
    rw [List.dropLast_eq_take, hrest]
    congr 1
    omega

theorem mem_walk {here : List ν} {path : List (Move ν)} {name : ν} (h : name ∈ walk here path) :
    name ∈ here ∨ .down name ∈ path := by
  induction path generalizing here with
  | nil => exact Or.inl h
  | cons m path ih =>
    cases m with
    | up =>
      rcases ih h with hmem | hmem
      · exact Or.inl ((List.dropLast_sublist here).subset hmem)
      · exact Or.inr (List.mem_cons_of_mem _ hmem)
    | down name' =>
      rcases ih h with hmem | hmem
      · rcases List.mem_append.mp hmem with hmem | hmem
        · exact Or.inl hmem
        · rw [List.mem_singleton.mp hmem]
          exact Or.inr List.mem_cons_self
      · exact Or.inr (List.mem_cons_of_mem _ hmem)

section Relative
variable [DecidableEq ν]

theorem relative_nil_left (target : List ν) : relative [] target = downs target := by
  cases target <;> rfl

theorem relative_nil_right (here : List ν) : relative here [] = ups here.length := by
  cases here <;> rfl

theorem walk_relative_append (before here target : List ν) :
    walk (before ++ here) (relative here target) = before ++ target := by
  induction here generalizing before target with
  | nil => rw [relative_nil_left, walk_downs, List.append_nil]
  | cons a here ih =>
    have hback : walk (before ++ a :: here) (ups (a :: here).length) = before := by
      rw [walk_ups, List.length_append, Nat.add_sub_cancel, List.take_left']
      rfl
    cases target with
    | nil => rw [relative_nil_right, hback, List.append_nil]
    | cons b target =>
      rw [relative]
      split_ifs with hab
      · subst hab
        have hrest := ih (before ++ [a]) target
        rwa [List.append_assoc, List.append_assoc] at hrest
      · rw [walk_append]
        have hback' : walk (before ++ a :: here) (ups (here.length + 1)) = before := hback
        rw [hback', walk_downs]

/-- The way from one place to another leads there. -/
theorem walk_relative (here target : List ν) : walk here (relative here target) = target :=
  walk_relative_append [] here target

theorem relative_injective (here : List ν) : Function.Injective (relative here) := by
  intro a b h
  rw [← walk_relative here a, h, walk_relative]

/-- The way to a place ends with a move up just when the place lies above. -/
theorem relative_getLast? (here target : List ν) :
    (relative here target).getLast? = some .up ↔ target <+: here ∧ target ≠ here := by
  induction here generalizing target with
  | nil =>
    rw [relative_nil_left]
    constructor
    · intro h
      obtain ⟨name, -, hname⟩ := List.mem_map.mp (List.mem_of_getLast? h)
      cases hname
    · rintro ⟨habove, hne⟩
      exact absurd (List.prefix_nil.mp habove) hne
  | cons a here ih =>
    cases target with
    | nil =>
      rw [relative_nil_right]
      simp [ups, List.replicate_succ']
    | cons b target =>
      rw [relative]
      split_ifs with hab
      · subst hab
        rw [ih, List.cons_prefix_cons]
        simp
      · refine iff_of_false ?_ fun h => hab (List.cons_prefix_cons.mp h.1).1.symm
        rw [List.getLast?_append, downs]
        simp [List.getLast?_cons]

theorem relative_append (target rest : List ν) : relative (target ++ rest) target = ups rest.length := by
  induction target with
  | nil => exact relative_nil_right rest
  | cons a target ih => rw [List.cons_append, relative, if_pos rfl, ih]

theorem relative_eq_nil (here target : List ν) : relative here target = [] ↔ here = target := by
  constructor
  · intro h
    have hwalk := walk_relative here target
    rwa [h] at hwalk
  · rintro rfl
    induction here with
    | nil => rfl
    | cons a here ih => rw [relative, if_pos rfl, ih]

/-- Each name that is no longer shared makes the way longer by one. -/
theorem relative_length_mod (here target : List ν) :
    (relative here target).length % 2 = (here.length + target.length) % 2 := by
  induction here generalizing target with
  | nil => simp [relative_nil_left, downs]
  | cons a here ih =>
    cases target with
    | nil => simp [relative_nil_right, ups]
    | cons b target =>
      rw [relative]
      split_ifs
      · have hrest := ih target
        simp only [List.length_cons]
        omega
      · simp [ups, downs]

end Relative

section Renamed
variable {ν' : Type*} (f : ν → ν')

def Move.map : Move ν → Move ν'
  | .up => .up
  | .down name => .down (f name)

theorem walk_map (here : List ν) (path : List (Move ν)) :
    walk (here.map f) (path.map (Move.map f)) = (walk here path).map f := by
  induction path generalizing here with
  | nil => rfl
  | cons m path ih =>
    cases m with
    | up =>
      have hrest := ih here.dropLast
      rwa [List.map_dropLast] at hrest
    | down name =>
      have hrest := ih (here ++ [name])
      rwa [List.map_append] at hrest

theorem downs_map (names : List ν) : downs (names.map f) = (downs names).map (Move.map f) := by
  simp [downs, Move.map]

theorem ups_map (n : ℕ) : (ups n : List (Move ν')) = (ups n).map (Move.map f) := by
  simp [ups, Move.map]

theorem relative_map [DecidableEq ν] [DecidableEq ν'] (hf : Function.Injective f) (here target : List ν) :
    relative (here.map f) (target.map f) = (relative here target).map (Move.map f) := by
  induction here generalizing target with
  | nil => rw [List.map_nil, relative_nil_left, relative_nil_left, downs_map]
  | cons a here ih =>
    cases target with
    | nil => rw [List.map_nil, relative_nil_right, relative_nil_right, List.length_map, ups_map f]
    | cons b target =>
      rw [List.map_cons, List.map_cons, relative, relative]
      by_cases hab : a = b
      · rw [if_pos hab, if_pos (congrArg f hab), ih]
      · rw [if_neg hab, if_neg fun h => hab (hf h), List.length_map, List.map_append, ← downs_map,
          ← ups_map, List.map_cons]

end Renamed

/-- The parts of a text do not have what it is split at. -/
theorem not_mem_of_mem_splitOn [DecidableEq ν] {c : ν} {l x : List ν} (h : x ∈ l.splitOn c) : c ∉ x := by
  induction l generalizing x with
  | nil =>
    rw [List.splitOn_nil, List.mem_singleton] at h
    rw [h]
    exact List.not_mem_nil
  | cons a l ih =>
    rw [List.splitOn_cons_eq_if_modifyHead] at h
    by_cases hac : (a == c) = true
    · rw [if_pos hac] at h
      rcases List.mem_cons.mp h with rfl | h
      · exact List.not_mem_nil
      · exact ih h
    · rw [if_neg hac] at h
      cases hs : l.splitOn c with
      | nil => exact absurd hs (List.splitOn_ne_nil c l)
      | cons y ys =>
        rw [hs] at h ih
        rcases List.mem_cons.mp h with rfl | h
        · have hy : c ∉ y := ih List.mem_cons_self
          have hca : c ≠ a := fun he => hac (beq_iff_eq.mpr he.symm)
          simp [hca, hy]
        · exact ih (List.mem_cons_of_mem y h)

end Redo.Library
