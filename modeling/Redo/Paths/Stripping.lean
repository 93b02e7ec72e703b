import Mathlib.Data.List.DropRight
import Redo.Paths.Keys

/-! # A path without the base in front of it

`strip_prefix` goes by components. What is left is a piece of the text, with its inner slashes and
dots.
-/
namespace Redo.Paths
open Library Remote Cache

/-- A piece between two slashes that is no component. -/
def isBlankPart (part : Text) : Bool := (component part).isNone

/-- The pieces behind the components. -/
def stripParts : List Component → List Text → Option (List Text)
  | [], parts => some ((parts.dropWhile isBlankPart).rdropWhile isBlankPart)
  | c :: cs, parts =>
    match parts.dropWhile isBlankPart with
    | [] => none
    | part :: rest => if component part = some c then stripParts cs rest else none

/-- `strip_prefix`, for an absolute path. A base without components leaves it whole. -/
def stripPrefix (path base : Text) : Option Text :=
  match components base with
  | [] =>
    let parts := (path.splitOn '/').rdropWhile isBlankPart
    some (if parts = [] then ['/'] else ['/'].intercalate parts)
  | .rootDir :: cs => (stripParts cs (path.splitOn '/')).map ['/'].intercalate
  | _ :: _ => none

/-- A path by its name below the base, if it lies there. -/
def relativeTo (base path : Text) : Option Text :=
  if isAbsolute path then stripPrefix path base else some path

variable {base path d : Text} {parts rest : List Text} {cs : List Component}

theorem filterMap_dropWhile (parts : List Text) :
    (parts.dropWhile isBlankPart).filterMap component = parts.filterMap component := by
  induction parts with
  | nil => rfl
  | cons part parts ih =>
    rw [List.dropWhile_cons]
    by_cases hblank : isBlankPart part = true
    · have hnone : component part = none := by simpa [isBlankPart] using hblank
      rw [if_pos hblank, ih, List.filterMap_cons_none hnone]
    · rw [if_neg hblank]

theorem filterMap_rdropWhile (parts : List Text) :
    (parts.rdropWhile isBlankPart).filterMap component = parts.filterMap component := by
  rw [List.rdropWhile, List.filterMap_reverse, filterMap_dropWhile, List.filterMap_reverse,
    List.reverse_reverse]

/-- What is left are the components behind those of the base, and it begins with one. -/
theorem stripParts_spec (h : stripParts cs parts = some rest) :
    parts.filterMap component = cs ++ rest.filterMap component ∧ rest ⊆ parts ∧
      ∀ part ∈ rest.head?, isBlankPart part = false := by
  induction cs generalizing parts with
  | nil =>
    obtain rfl := Option.some.inj h
    refine ⟨?_, ?_, ?_⟩
    · rw [filterMap_rdropWhile, filterMap_dropWhile, List.nil_append]
    · intro part hpart
      exact (List.dropWhile_sublist _).subset ((List.rdropWhile_prefix _ _).subset hpart)
    · intro part hpart
      have hfirst : part ∈ (parts.dropWhile isBlankPart).head? := by
        obtain ⟨rest, hrest⟩ := List.head?_eq_some_iff.mp hpart
        obtain ⟨more, hmore⟩ := List.rdropWhile_prefix isBlankPart (parts.dropWhile isBlankPart)
        rw [← hmore, hrest]
        rfl
      have hnot := List.head?_dropWhile_not isBlankPart parts
      rw [Option.mem_def.mp hfirst] at hnot
      simpa using hnot
  | cons c cs ih =>
    rw [stripParts] at h
    split at h
    · cases h
    · rename_i part more hdrop
      split at h
      · rename_i hcomponent
        obtain ⟨hparts, hsub, hhead⟩ := ih h
        refine ⟨?_, fun x hx => ?_, hhead⟩
        · rw [← filterMap_dropWhile, hdrop, List.filterMap_cons_some hcomponent, hparts]
          rfl
        · exact (List.dropWhile_sublist _).subset (hdrop ▸ List.mem_cons_of_mem part (hsub hx))
      · cases h

theorem map_asComponent_moves (path : Text) :
    (moves path).map asComponent = (path.splitOn '/').filterMap component := by
  rw [moves, List.map_filterMap]
  exact List.filterMap_congr fun part _ => (component_eq part).symm

theorem asComponent_injective : Function.Injective asComponent := by
  intro m m' h
  cases m <;> cases m' <;> simp_all [asComponent]

theorem isAbsolute_intercalate_parts (hslash : ∀ part ∈ rest, '/' ∉ part)
    (hhead : ∀ part ∈ rest.head?, isBlankPart part = false) :
    isAbsolute (['/'].intercalate rest) = false := by
  cases rest with
  | nil => rfl
  | cons part more =>
    have hpart := hhead part rfl
    cases part with
    | nil => simp [isBlankPart, component] at hpart
    | cons a l =>
      have ha : a ≠ '/' := by
        rintro rfl
        exact hslash _ List.mem_cons_self List.mem_cons_self
      cases more <;> simp [isAbsolute, ha]

/-- Joined to the base again it leads to the same place. -/
theorem moves_push_stripPrefix (hbase : isAbsolute base = true) (h : stripPrefix path base = some d) :
    moves (push base d) = moves path := by
  rw [stripPrefix, components_absolute hbase] at h
  obtain ⟨rest, hstrip, rfl⟩ := Option.map_eq_some_iff.mp h
  obtain ⟨hparts, hsub, hhead⟩ := stripParts_spec hstrip
  have hslash : ∀ part ∈ rest, '/' ∉ part := fun part hpart => not_mem_of_mem_splitOn (hsub hpart)
  have hrelative : isAbsolute (['/'].intercalate rest) = false :=
    isAbsolute_intercalate_parts hslash hhead
  have hrest : (moves (['/'].intercalate rest)).map asComponent = rest.filterMap component := by
    rw [map_asComponent_moves]
    by_cases hnil : rest = []
    · rw [hnil]
      rfl
    · rw [List.splitOn_intercalate _ hslash hnil]
  rw [moves_push hbase hrelative]
  refine List.map_injective_iff.mpr asComponent_injective ?_
  rw [List.map_append, hrest, map_asComponent_moves path, hparts]

theorem moves_push_relativeTo (hbase : isAbsolute base = true) (h : relativeTo base path = some d) :
    moves (push base d) = moves (push base path) := by
  unfold relativeTo at h
  split at h
  · rename_i habs
    rw [moves_push_stripPrefix hbase h, push_absolute habs]
  · obtain rfl := Option.some.inj h
    rfl

end Redo.Paths
