import Redo.Paths.Keys

/-! # The names that are printed

A row is shown as the way to its file from the current directory. What is printed can be given to
another command there.
-/
namespace Redo.Paths
open Library Remote Cache State

/-- `diff_paths` of the joined name and the current directory. -/
def Process.shown (p : Process) (name : Text) : Text :=
  (p.diffPaths (push p.envBase name) p.cwd.path).getD name

variable {p : Process} {name : Text} {target : List Text}

theorem relative_below (here names : List Text) : relative here (here ++ names) = downs names := by
  induction here with
  | nil => exact relative_nil_left names
  | cons a here ih => rw [List.cons_append, relative, if_pos rfl, ih]

theorem intercalate_eq_render (name : Text) (names : List Text) :
    ['/'].intercalate (name :: names) = name ++ render names := by
  induction names generalizing name with
  | nil => simp [render]
  | cons a names ih =>
    rw [List.intercalate_cons_cons, ih]
    simp [render]

/-- The row of a file below the base. -/
structure Below (p : Process) (name : Text) (target : List Text) : Prop where
  proper : ∀ n ∈ target, IsName n
  above : p.base.names <+: target
  ne : target ≠ p.base.names
  name_eq : name = way p.base.names target

namespace Below
theorem push_envBase (h : Below p name target) (hroot : p.base.names ≠ []) :
    push p.envBase name = pathOf target := by
  obtain ⟨hproper, ⟨names, rfl⟩, hne, hname⟩ := h
  cases names with
  | nil => exact absurd (List.append_nil _) hne
  | cons a names =>
    have hmoves : (downs (a :: names) : List (Move Text)).map moveText = a :: names := by
      rw [downs, List.map_map]
      exact List.map_id _
    have hslash : ¬(render p.base.names = [] ∨ (render p.base.names).getLast? = some '/') := by
      rintro (hnil | hlast)
      · rw [render_eq_pathOf hroot] at hnil
        have habs := isAbsolute_pathOf p.base.names
        rw [hnil] at habs
        cases habs
      · exact getLast?_render p.base.proper hlast
    have hrelative := @isAbsolute_way p.base.names _ hproper
    rw [← hname] at hrelative
    rw [push, if_neg (by simp [hrelative]), Process.envBase, if_neg hslash, hname, way, relative_below,
      hmoves, intercalate_eq_render, pathOf, if_neg (List.append_ne_nil_of_left_ne_nil hroot _)]
    simp [render]

theorem shown_eq (h : Below p name target) (hdiff : LexicalDiff p.diffPaths) (hroot : p.base.names ≠ []) :
    p.shown name = way p.cwd.names target := by
  have hbetween : p.diffPaths (pathOf target) p.cwd.path = some (way p.cwd.names target) :=
    hdiff.between ⟨target, h.proper⟩ p.cwd
  rw [Process.shown, h.push_envBase hroot, hbetween]
  rfl

/-- What is printed is looked up under the row again, unless it ends with a move up. -/
theorem byName_shown (h : Below p name target) (hdiff : LexicalDiff p.diffPaths)
    (hroot : p.base.names ≠ []) :
    p.byName (p.shown name) = name ↔ ¬(target <+: p.cwd.names ∧ target ≠ p.cwd.names) := by
  have hrelative := @isAbsolute_way p.cwd.names _ h.proper
  have halways : way p.cwd.names target ≠ ALWAYS.toList := by
    intro heq
    rw [heq] at hrelative
    exact absurd hrelative (by decide)
  have hmoves : moves (push p.cwd.path (way p.cwd.names target)) =
      downs p.cwd.names ++ relative p.cwd.names target := by
    rw [moves_push p.cwd.isAbsolute_path hrelative, Directory.moves_path, moves_way h.proper]
  have hne : downs p.cwd.names ++ relative p.cwd.names target ≠ [] := by
    intro hnil
    obtain ⟨hdowns, hback⟩ := List.append_eq_nil_iff.mp hnil
    have hplace := walk_relative p.cwd.names target
    rw [hback, List.map_eq_nil_iff.mp hdowns] at hplace
    have habove := h.above
    rw [← hplace] at habove
    exact hroot (List.prefix_nil.mp habove)
  rw [h.shown_eq hdiff hroot, byName_eq hdiff halways, hmoves, keyOf, if_neg hne, if_neg hroot, h.name_eq]
  constructor
  · rintro heq ⟨habove, hother⟩
    refine not_settled_above habove hother (way_injective ?_ h.proper heq)
    rw [← hmoves]
    exact fun n hn => isName_of_mem_settled hn
  · intro hnot
    rw [settled_eq (getLast?_back hnot), walk_append, walk_downs, List.nil_append, walk_relative]

end Below

end Redo.Paths
