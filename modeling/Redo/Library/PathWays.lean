import Redo.Library.PathMarks

/-! # Ways between places, as paths

Moves are written down with two dots for each move up. The last component of a path names a file,
and what is in front of it is where that stands.
-/
namespace Redo.Library.PathMarks

variable {χ : Type*} [DecidableEq χ] (m : PathMarks χ)

def text : PathComponent χ → List χ
  | .rootDir => [m.slash]
  | .curDir => [m.dot]
  | .parentDir => [m.dot, m.dot]
  | .normal name => name

def render : List (PathComponent χ) → List χ
  | .rootDir :: rest => m.slash :: [m.slash].intercalate (rest.map m.text)
  | parts => [m.slash].intercalate (parts.map m.text)

/-- All components but the last. -/
def parent (path : List χ) : Option (List χ) :=
  match (m.components path).getLast? with
  | none => none
  | some .rootDir => none
  | some _ => some (m.render (m.components path).dropLast)

def fileName (path : List χ) : Option (List χ) :=
  match (m.components path).getLast? with
  | some (.normal name) => some name
  | _ => none

def moveText : Move (List χ) → List χ
  | .up => [m.dot, m.dot]
  | .down name => name

/-- Moves as a relative path. -/
def written (path : List (Move (List χ))) : List χ := [m.slash].intercalate (path.map m.moveText)

def way (here target : List (List χ)) : List χ := m.written (relative here target)

/-- Moves as they are read from a path. -/
def Proper (path : List (Move (List χ))) : Prop := ∀ name, .down name ∈ path → m.IsName name

variable {m} {path t : List χ} {moves' : List (Move (List χ))} {here target : List (List χ)}

theorem moves_nil : m.moves [] = [] := by
  rw [moves, List.splitOn_nil, List.filterMap_cons, move, if_pos (Or.inl rfl)]
  rfl

theorem moves_join (before after : List χ) :
    m.moves (before ++ m.slash :: after) = m.moves before ++ m.moves after := by
  rw [moves, List.splitOn_append_cons_self, List.filterMap_append]
  rfl

theorem moves_cons_slash (path : List χ) : m.moves (m.slash :: path) = m.moves path := by
  have hjoin := @moves_join _ _ m [] path
  rwa [moves_nil, List.nil_append, List.nil_append] at hjoin

theorem moves_of_isName {name : List χ} (h : m.IsName name) : m.moves name = [.down name] := by
  rw [moves, List.splitOn_eq_singleton h.slash, List.filterMap_cons, move_of_isName h]
  rfl

theorem absolute_cons (h : m.isAbsolute path = true) : ∃ rest, path = m.slash :: rest := by
  cases path with
  | nil => cases h
  | cons c rest => exact ⟨rest, congrArg (· :: rest) (Option.some.inj (of_decide_eq_true h))⟩

theorem push_absolute (ht : m.isAbsolute t = true) : m.push path t = t := by
  rw [push, if_pos ht]

theorem isAbsolute_push (h : m.isAbsolute path = true) (t : List χ) :
    m.isAbsolute (m.push path t) = true := by
  obtain ⟨rest, rfl⟩ := absolute_cons h
  unfold push
  split_ifs with habs
  · exact habs
  · simp [isAbsolute]
  · simp [isAbsolute]

theorem moves_push (h : m.isAbsolute path = true) (ht : m.isAbsolute t = false) :
    m.moves (m.push path t) = m.moves path ++ m.moves t := by
  obtain ⟨rest, rfl⟩ := absolute_cons h
  rw [push, if_neg (by simp [ht])]
  by_cases hslash : m.slash :: rest = [] ∨ (m.slash :: rest).getLast? = some m.slash
  · rw [if_pos hslash]
    have hlast := hslash.resolve_left (List.cons_ne_nil m.slash rest)
    obtain ⟨front, hfront⟩ := List.getLast?_eq_some_iff.mp hlast
    rw [hfront, List.append_assoc, List.singleton_append, moves_join, moves_join, moves_nil,
      List.append_nil]
  · rw [if_neg hslash, moves_join]

theorem proper_moves (path : List χ) : m.Proper (m.moves path) := fun _ => isName_of_mem_moves

omit [DecidableEq χ] in
theorem isName_of_mem_walk (h : m.Proper moves') {name : List χ} (hmem : name ∈ walk [] moves') :
    m.IsName name := by
  rcases mem_walk hmem with hnil | hdown
  · cases hnil
  · exact h name hdown

theorem moveText_spec {x : Move (List χ)} (h : ∀ name, x = .down name → m.IsName name) :
    m.slash ∉ m.moveText x ∧ m.move (m.moveText x) = some x := by
  cases x with
  | up =>
    constructor
    · simp [moveText, m.slash_ne_dot]
    · simp [moveText, move]
  | down name => exact ⟨(h name rfl).slash, move_of_isName (h name rfl)⟩

/-- What is written down is read back. -/
theorem moves_written (h : m.Proper moves') : m.moves (m.written moves') = moves' := by
  have htext : ∀ x ∈ moves', m.slash ∉ m.moveText x ∧ m.move (m.moveText x) = some x := by
    intro x hx
    apply moveText_spec
    rintro name rfl
    exact h name hx
  cases moves' with
  | nil => exact moves_nil
  | cons x rest =>
    have hparts : (m.written (x :: rest)).splitOn m.slash = (x :: rest).map m.moveText := by
      apply List.splitOn_intercalate
      · intro part hpart
        obtain ⟨y, hy, rfl⟩ := List.mem_map.mp hpart
        exact (htext y hy).1
      · exact List.cons_ne_nil _ _
    rw [moves, hparts, List.filterMap_map]
    exact (List.filterMap_congr fun y hy => (htext y hy).2).trans List.filterMap_some

theorem isAbsolute_written (h : m.Proper moves') : m.isAbsolute (m.written moves') = false := by
  cases moves' with
  | nil => rfl
  | cons x rest =>
    have hhead : ∃ c l, m.moveText x = c :: l ∧ c ≠ m.slash := by
      cases x with
      | up => exact ⟨m.dot, [m.dot], rfl, m.slash_ne_dot.symm⟩
      | down name =>
        have hname := h name List.mem_cons_self
        obtain ⟨c, l, rfl⟩ := List.exists_cons_of_ne_nil hname.ne_nil
        exact ⟨c, l, rfl, fun he => hname.slash (he ▸ List.mem_cons_self)⟩
    obtain ⟨c, l, htext, hc⟩ := hhead
    cases rest with
    | nil => simp [written, isAbsolute, htext, hc]
    | cons y rest => simp [written, isAbsolute, List.intercalate_cons_cons, htext, hc]

theorem written_eq_nil (h : m.Proper moves') : m.written moves' = [] ↔ moves' = [] := by
  constructor
  · intro hnil
    rw [← moves_written h, hnil, moves_nil]
  · rintro rfl
    rfl

/-- Between two moves there is a slash, and nowhere else. -/
theorem count_written (h : m.Proper moves') :
    (m.written moves').count m.slash = moves'.length - 1 := by
  induction moves' with
  | nil => rfl
  | cons x rest ih =>
    have hx : (m.moveText x).count m.slash = 0 := by
      apply List.count_eq_zero_of_not_mem
      apply (moveText_spec _).1
      rintro name rfl
      exact h name List.mem_cons_self
    cases rest with
    | nil => simpa [written] using hx
    | cons y rest =>
      have hrest := ih fun name hname => h name (List.mem_cons_of_mem _ hname)
      have hcut : m.written (x :: y :: rest) = m.moveText x ++ [m.slash] ++ m.written (y :: rest) :=
        List.intercalate_cons_cons
      rw [hcut, List.count_append, List.count_append, hx, hrest]
      simp
      omega

theorem relative_proper (h : ∀ n ∈ target, m.IsName n) : m.Proper (relative here target) := by
  intro name hname
  induction here generalizing target with
  | nil =>
    rw [relative_nil_left] at hname
    obtain ⟨n, hn, heq⟩ := List.mem_map.mp hname
    exact Move.down.inj heq ▸ h n hn
  | cons a here ih =>
    cases target with
    | nil =>
      rw [relative_nil_right] at hname
      cases List.eq_of_mem_replicate hname
    | cons b target =>
      rw [relative] at hname
      split_ifs at hname with hab
      · exact ih (fun n hn => h n (List.mem_cons_of_mem _ hn)) hname
      · rcases List.mem_append.mp hname with hup | hdown
        · cases List.eq_of_mem_replicate hup
        · obtain ⟨n, hn, heq⟩ := List.mem_map.mp hdown
          exact Move.down.inj heq ▸ h n hn

theorem moves_way (h : ∀ n ∈ target, m.IsName n) : m.moves (m.way here target) = relative here target :=
  moves_written (relative_proper h)

theorem isAbsolute_way (h : ∀ n ∈ target, m.IsName n) : m.isAbsolute (m.way here target) = false :=
  isAbsolute_written (relative_proper h)

theorem way_injective {target' : List (List χ)} (h : ∀ n ∈ target, m.IsName n)
    (h' : ∀ n ∈ target', m.IsName n) (hway : m.way here target = m.way here target') :
    target = target' := by
  apply relative_injective here
  rw [← moves_way h, ← moves_way h', hway]

/-- What an absolute path names, and where it stands. -/
theorem components_of_moves (h : m.isAbsolute path = true) {before : List (Move (List χ))}
    {x : Move (List χ)} (hmoves : m.moves path = before ++ [x]) :
    m.parent path = some (m.slash :: m.written before) ∧
      m.fileName path = (if x = .up then none else some (m.moveText x)) := by
  have hlast : (PathComponent.rootDir :: (before ++ [x]).map asComponent).getLast? =
      some (asComponent x) := by
    rw [List.map_append, ← List.cons_append]
    exact List.getLast?_concat
  have hrest : (PathComponent.rootDir :: (before ++ [x]).map asComponent).dropLast =
      .rootDir :: before.map asComponent := by
    rw [List.map_append, ← List.cons_append]
    exact List.dropLast_concat
  have htext : (before.map asComponent).map m.text = before.map m.moveText := by
    rw [List.map_map]
    apply List.map_congr_left
    intro y _
    cases y <;> rfl
  rw [parent, fileName, components_absolute h, hmoves, hlast, hrest, render, htext, written]
  cases x with
  | up => exact ⟨rfl, rfl⟩
  | down name => exact ⟨rfl, rfl⟩

end Redo.Library.PathMarks
