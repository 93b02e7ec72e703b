import Redo.Cache.ReadTrace
import Redo.Library.LexicalPaths

/-! # Texts of paths

What `std::path` makes of a text: an absolute one is a walk from the root. Slashes in a row and
dots say nothing, and two dots are a move up.
-/
namespace Redo.Paths
open Library Remote Cache

/-- What can stand between two slashes and name a file. -/
structure IsName (name : Text) : Prop where
  ne_nil : name ≠ []
  slash : '/' ∉ name
  ne_dot : name ≠ ['.']
  ne_dots : name ≠ ['.', '.']

instance (name : Text) : Decidable (IsName name) :=
  decidable_of_iff (name ≠ [] ∧ '/' ∉ name ∧ name ≠ ['.'] ∧ name ≠ ['.', '.'])
    ⟨fun h => ⟨h.1, h.2.1, h.2.2.1, h.2.2.2⟩, fun h => ⟨h.ne_nil, h.slash, h.ne_dot, h.ne_dots⟩⟩

def move (part : Text) : Option (Move Text) :=
  if part = [] ∨ part = ['.'] then none
  else if part = ['.', '.'] then some .up
  else some (.down part)

def moves (path : Text) : List (Move Text) := (path.splitOn '/').filterMap move

/-- The place of an absolute path. -/
def place (path : Text) : List Text := walk [] (moves path)

/-- A place below the root, as a text without a slash at its end. -/
def render (names : List Text) : Text := names.flatMap ('/' :: ·)

/-- A directory by the names on the way to it. -/
structure Directory where
  names : List Text
  proper : ∀ name ∈ names, IsName name

namespace Directory

def path (d : Directory) : Text := if d.names = [] then ['/'] else render d.names

end Directory

variable {name : Text} {names : List Text} {path : Text}

theorem move_of_isName (h : IsName name) : move name = some (.down name) := by
  rw [move, if_neg, if_neg h.ne_dots]
  rintro (hn | hn)
  · exact h.ne_nil hn
  · exact h.ne_dot hn

theorem isName_of_move {part : Text} (hslash : '/' ∉ part) (h : move part = some (.down name)) :
    part = name ∧ IsName name := by
  unfold move at h
  split_ifs at h with hnone hup
  · cases h
  · obtain rfl : part = name := Move.down.inj (Option.some.inj h)
    exact ⟨rfl, fun hn => hnone (Or.inl hn), hslash, fun hn => hnone (Or.inr hn), hup⟩

theorem moves_join (before after : Text) :
    moves (before ++ '/' :: after) = moves before ++ moves after := by
  rw [moves, List.splitOn_append_cons_self, List.filterMap_append]
  rfl

theorem moves_nil : moves [] = [] := rfl

theorem moves_of_isName (h : IsName name) : moves name = [.down name] := by
  rw [moves, List.splitOn_eq_singleton h.slash, List.filterMap_cons, move_of_isName h]
  rfl

theorem moves_cons_slash (path : Text) : moves ('/' :: path) = moves path := moves_join [] path

theorem moves_render (h : ∀ name ∈ names, IsName name) : moves (render names) = downs names := by
  induction names with
  | nil => rfl
  | cons name names ih =>
    have hname := h name List.mem_cons_self
    have hrest := ih fun n hn => h n (List.mem_cons_of_mem _ hn)
    cases names with
    | nil =>
      show moves ('/' :: (name ++ [])) = _
      rw [List.append_nil, moves_cons_slash, moves_of_isName hname]
      rfl
    | cons next names =>
      show moves ('/' :: (name ++ '/' :: (next ++ render names))) = _
      rw [moves_cons_slash, moves_join, moves_of_isName hname]
      have hnext : moves (next ++ render names) = downs (next :: names) := by
        rw [← hrest]
        exact (moves_cons_slash _).symm
      rw [hnext]
      rfl

theorem isName_of_mem_moves (h : .down name ∈ moves path) : IsName name := by
  obtain ⟨part, hpart, hmove⟩ := List.mem_filterMap.mp h
  have hslash : '/' ∉ part := not_mem_of_mem_splitOn hpart
  exact (isName_of_move hslash hmove).2

theorem isName_of_mem_place (h : name ∈ place path) : IsName name := by
  rcases mem_walk h with hmem | hmem
  · cases hmem
  · exact isName_of_mem_moves hmem

theorem isAbsolute_join {base : Text} (h : isAbsolute base = true) (t : Text) :
    isAbsolute (join base t) = true := by
  unfold join
  split_ifs with habs
  · exact habs
  · cases base with
    | nil => cases h
    | cons c l => exact h

theorem moves_join_of_absolute {base t : Text} (h : isAbsolute t = true) :
    moves (join base t) = moves t := by
  rw [join, if_pos h]

theorem moves_join_of_relative {base t : Text} (h : isAbsolute t = false) :
    moves (join base t) = moves base ++ moves t := by
  rw [join, if_neg (by simp [h]), moves_join]

theorem moves_intercalate (h : ∀ name ∈ names, IsName name) :
    moves (['/'].intercalate names) = downs names := by
  cases names with
  | nil => rfl
  | cons a l =>
    have hparts : (['/'].intercalate (a :: l)).splitOn '/' = a :: l :=
      List.splitOn_intercalate _ (fun name hname => (h name hname).slash) (by simp)
    rw [moves, hparts, downs, ← List.filterMap_eq_map]
    exact List.filterMap_congr fun name hname => move_of_isName (h name hname)

def asComponent : Move Text → Component
  | .up => .parentDir
  | .down name => .normal name

theorem component_eq (part : Text) : component part = (move part).map asComponent := by
  unfold component move
  split_ifs <;> rfl

/-- An absolute path as `std::path` takes it apart. -/
theorem components_absolute (h : isAbsolute path = true) :
    components path = .rootDir :: (moves path).map asComponent := by
  have hhead : path.head? = some '/' := of_decide_eq_true h
  have hcomponent : component = fun part => (move part).map asComponent := funext component_eq
  rw [components, if_pos hhead, hcomponent, moves, List.map_filterMap]
  rfl

theorem foldl_normalizeStep (here : List Text) (path : List (Move Text)) :
    (path.map asComponent).foldl normalizeStep (['/'] :: here) = ['/'] :: walk here path := by
  induction path generalizing here with
  | nil => rfl
  | cons m path ih =>
    cases m with
    | up =>
      have hstep : normalizeStep (['/'] :: here) .parentDir = ['/'] :: here.dropLast := by
        cases here <;> simp [normalizeStep]
      rw [List.map_cons, asComponent, List.foldl_cons, hstep]
      exact ih here.dropLast
    | down name => exact ih (here ++ [name])

/-- `normalize_path_lex` of an absolute path is its place. -/
theorem normalizePathLex_absolute (h : isAbsolute path = true) :
    normalizePathLex path = ['/'] :: place path := by
  rw [normalizePathLex, components_absolute h, List.foldl_cons]
  exact foldl_normalizeStep [] (moves path)

namespace Directory

theorem isAbsolute_path (d : Directory) : isAbsolute d.path = true := by
  unfold path
  split_ifs with hnil
  · rfl
  · cases hd : d.names with
    | nil => exact absurd hd hnil
    | cons a l => rfl

@[simp] theorem moves_path (d : Directory) : moves d.path = downs d.names := by
  unfold path
  split_ifs with hnil
  · rw [hnil]
    rfl
  · exact moves_render d.proper

@[simp] theorem place_path (d : Directory) : place d.path = d.names := by
  rw [place, moves_path, walk_downs, List.nil_append]

theorem moves_join_path (d : Directory) (t : Text) :
    moves (d.path ++ '/' :: t) = downs d.names ++ moves t := by
  rw [moves_join, moves_path]

end Directory
end Redo.Paths
