import Redo.Library.LexicalPaths

/-! # Paths as rows of symbols

A path is parts between slashes. The empty part and the dot say nothing, two dots are a move up,
and all other parts are names. An absolute path leads from the root to a place, and a place is
written in one way without idle parts.
-/
namespace Redo.Library

inductive PathComponent (χ : Type*)
  | rootDir
  | curDir
  | parentDir
  | normal (name : List χ)
deriving DecidableEq, Repr

/-- The symbols that paths are made with. -/
structure PathMarks (χ : Type*) where
  slash : χ
  dot : χ
  slash_ne_dot : slash ≠ dot

theorem intercalate_append {α : Type*} (sep : α) {front back : List (List α)} (h : front ≠ []) (h' : back ≠ []) :
    [sep].intercalate (front ++ back) = [sep].intercalate front ++ sep :: [sep].intercalate back := by
  induction front with
  | nil => exact absurd rfl h
  | cons a front ih =>
    cases front with
    | nil =>
      obtain ⟨b, back, rfl⟩ := List.exists_cons_of_ne_nil h'
      simp
    | cons b front =>
      have hrest := ih (List.cons_ne_nil b front)
      rw [List.cons_append, List.cons_append, List.intercalate_cons_cons, ← List.cons_append, hrest,
        List.intercalate_cons_cons]
      simp

theorem intercalate_concat {α : Type*} (sep : α) {front : List (List α)} (h : front ≠ []) (last : List α) :
    [sep].intercalate (front ++ [last]) = [sep].intercalate front ++ sep :: last := by
  rw [intercalate_append sep h (List.cons_ne_nil last []), List.intercalate_singleton]

namespace PathMarks
variable {χ : Type*} [DecidableEq χ] (m : PathMarks χ)

def component (part : List χ) : Option (PathComponent χ) :=
  if part = [] ∨ part = [m.dot] then none
  else if part = [m.dot, m.dot] then some .parentDir
  else some (.normal part)

/-- A dot counts only at the front of a relative path. -/
def components (path : List χ) : List (PathComponent χ) :=
  let parts := path.splitOn m.slash
  let front := if path.head? = some m.slash then [PathComponent.rootDir]
    else if parts.head? = some [m.dot] then [.curDir] else []
  front ++ parts.filterMap m.component

def isAbsolute (path : List χ) : Bool := path.head? = some m.slash

/-- An absolute path replaces the one that it is put behind. -/
def push (path p : List χ) : List χ :=
  if m.isAbsolute p then p
  else if path = [] ∨ path.getLast? = some m.slash then path ++ p
  else path ++ m.slash :: p

/-- What can stand between two slashes and name a file. -/
structure IsName (name : List χ) : Prop where
  ne_nil : name ≠ []
  slash : m.slash ∉ name
  ne_dot : name ≠ [m.dot]
  ne_dots : name ≠ [m.dot, m.dot]

def move (part : List χ) : Option (Move (List χ)) :=
  if part = [] ∨ part = [m.dot] then none
  else if part = [m.dot, m.dot] then some .up
  else some (.down part)

def moves (path : List χ) : List (Move (List χ)) := (path.splitOn m.slash).filterMap m.move

/-- The place that an absolute path leads to. -/
def place (path : List χ) : List (List χ) := walk [] (m.moves path)

/-- A place as a path. -/
def rooted (names : List (List χ)) : List χ := m.slash :: [m.slash].intercalate names

variable {m} {path name : List χ} {names here : List (List χ)}

theorem move_of_isName (h : m.IsName name) : m.move name = some (.down name) := by
  rw [move, if_neg, if_neg h.ne_dots]
  rintro (hn | hn)
  · exact h.ne_nil hn
  · exact h.ne_dot hn

theorem isName_of_move {part : List χ} (hslash : m.slash ∉ part) (h : m.move part = some (.down name)) :
    m.IsName name := by
  unfold move at h
  split_ifs at h with hnone hup
  · cases h
  · obtain rfl : part = name := Move.down.inj (Option.some.inj h)
    exact ⟨fun hn => hnone (Or.inl hn), hslash, fun hn => hnone (Or.inr hn), hup⟩

theorem isName_of_mem_moves (h : .down name ∈ m.moves path) : m.IsName name := by
  obtain ⟨part, hpart, hmove⟩ := List.mem_filterMap.mp h
  exact isName_of_move (not_mem_of_mem_splitOn hpart) hmove

theorem isName_of_mem_place (h : name ∈ m.place path) : m.IsName name := by
  rcases mem_walk h with hmem | hmem
  · cases hmem
  · exact isName_of_mem_moves hmem

def asComponent : Move (List χ) → PathComponent χ
  | .up => .parentDir
  | .down name => .normal name

theorem component_eq (part : List χ) : m.component part = (m.move part).map asComponent := by
  unfold component move
  split_ifs <;> rfl

/-- An absolute path is the root and moves from there. -/
theorem components_absolute (h : m.isAbsolute path = true) :
    m.components path = .rootDir :: (m.moves path).map asComponent := by
  have hhead : path.head? = some m.slash := of_decide_eq_true h
  have hcomponent : m.component = fun part => (m.move part).map asComponent := funext component_eq
  rw [components, if_pos hhead, hcomponent, moves, List.map_filterMap]
  rfl

@[simp] theorem isAbsolute_rooted (names : List (List χ)) : m.isAbsolute (m.rooted names) = true := by
  simp [isAbsolute, rooted]

theorem splitOn_rooted (h : ∀ n ∈ names, m.slash ∉ n) :
    (m.rooted names).splitOn m.slash = [] :: (if names = [] then [[]] else names) := by
  have hcut : (m.rooted names).splitOn m.slash = [] :: ([m.slash].intercalate names).splitOn m.slash :=
    List.splitOn_append_cons_self [] _
  rw [hcut]
  split_ifs with hnil
  · subst hnil
    rfl
  · rw [List.splitOn_intercalate m.slash h hnil]

theorem moves_rooted (h : ∀ n ∈ names, m.IsName n) : m.moves (m.rooted names) = downs names := by
  rw [moves, splitOn_rooted fun n hn => (h n hn).slash, List.filterMap_cons]
  split_ifs with hnil
  · subst hnil
    rfl
  · rw [downs, ← List.filterMap_eq_map]
    exact List.filterMap_congr fun n hn => move_of_isName (h n hn)

/-- A place's path leads to it. -/
theorem place_rooted (h : ∀ n ∈ names, m.IsName n) : m.place (m.rooted names) = names := by
  rw [place, moves_rooted h, walk_downs, List.nil_append]

theorem rooted_injective {names' : List (List χ)} (h : ∀ n ∈ names, n ≠ [] ∧ m.slash ∉ n)
    (h' : ∀ n ∈ names', n ≠ [] ∧ m.slash ∉ n) (heq : m.rooted names = m.rooted names') : names = names' := by
  have hsplit := congrArg (List.splitOn m.slash) heq
  rw [splitOn_rooted fun n hn => (h n hn).2, splitOn_rooted fun n hn => (h' n hn).2] at hsplit
  have htail := List.tail_eq_of_cons_eq hsplit
  split_ifs at htail with hnil hnil' hnil'
  · rw [hnil, hnil']
  · exact absurd rfl (h' [] (htail ▸ List.mem_cons_self)).1
  · exact absurd rfl (h [] (htail ▸ List.mem_cons_self)).1
  · exact htail

theorem isAbsolute_of_isName (h : m.IsName name) : m.isAbsolute name = false := by
  cases name with
  | nil => rfl
  | cons c l =>
    have hc : c ≠ m.slash := fun he => h.slash (he ▸ List.mem_cons_self)
    simp [isAbsolute, hc]

omit [DecidableEq χ] in
theorem getLast?_rooted (h : ∀ n ∈ here, m.IsName n) (hnil : here ≠ []) :
    (m.rooted here).getLast? ≠ some m.slash := by
  obtain ⟨front, last, rfl⟩ := (List.eq_nil_or_concat here).resolve_left hnil
  have hlast : m.IsName last := h last (by simp)
  have hend : ∃ before, m.rooted (front ++ [last]) = before ++ last := by
    cases front with
    | nil => exact ⟨[m.slash], by simp [rooted]⟩
    | cons a front =>
      refine ⟨m.slash :: ([m.slash].intercalate (a :: front) ++ [m.slash]), ?_⟩
      rw [rooted, intercalate_concat m.slash (List.cons_ne_nil a front)]
      simp
  obtain ⟨before, hbefore⟩ := hend
  intro heq
  rw [List.concat_eq_append, hbefore, List.getLast?_append] at heq
  obtain ⟨c, hc⟩ := Option.ne_none_iff_exists'.mp (mt List.getLast?_eq_none_iff.mp hlast.ne_nil)
  rw [hc, Option.some_or] at heq
  exact hlast.slash (Option.some.inj heq ▸ List.mem_of_getLast? hc)

/-- A name put behind a place's path names the place below. -/
theorem push_rooted (h : ∀ n ∈ here ++ [name], m.IsName n) :
    m.push (m.rooted here) name = m.rooted (here ++ [name]) := by
  have hname : m.IsName name := h name (List.mem_append_right here List.mem_cons_self)
  have hhere : ∀ n ∈ here, m.IsName n := fun n hn => h n (List.mem_append_left _ hn)
  rw [push, if_neg (by simp [isAbsolute_of_isName hname])]
  by_cases hnil : here = []
  · subst hnil
    have hroot : m.rooted [] = [] ∨ (m.rooted []).getLast? = some m.slash := Or.inr rfl
    rw [if_pos hroot]
    simp [rooted]
  · have hslash : ¬ (m.rooted here = [] ∨ (m.rooted here).getLast? = some m.slash) := by
      rintro (hempty | hlast)
      · cases hempty
      · exact getLast?_rooted hhere hnil hlast
    rw [if_neg hslash, rooted, rooted, intercalate_concat m.slash hnil, List.cons_append]

theorem foldl_push (h : ∀ n ∈ here ++ names, m.IsName n) :
    names.foldl m.push (m.rooted here) = m.rooted (here ++ names) := by
  induction names generalizing here with
  | nil => rw [List.append_nil]; rfl
  | cons name names ih =>
    have happend : here ++ name :: names = (here ++ [name]) ++ names := List.append_cons here name names
    rw [happend] at h
    rw [List.foldl_cons, push_rooted fun n hn => h n (List.mem_append_left _ hn), ih h, ← happend]

end PathMarks
end Redo.Library
