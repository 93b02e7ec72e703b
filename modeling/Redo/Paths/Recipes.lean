import Mathlib.Data.List.Infix
import Redo.Paths.Keys

/-! # What a recipe is told to build

A recipe runs in the directory of its `.do` file. Its commands find the target again from the
directory where the first command was started, by two variables.
-/
namespace Redo.Paths
open Library Remote Cache State

/-- `Path::exists`. -/
def Tree.found (tree : Tree) (path : Text) : Bool := (canonicalize tree path).isSome

/-- `find_do_for_target`, without what it records. -/
def Process.findDoForTarget (p : Process) (name : Text) : Option DoFile :=
  (possibleDoFiles name p.envBase).find? fun c => p.tree.found (push c.dodir c.dofile)

/-- The first argument of the recipe, and `REDO_TARGET`. -/
def DoFile.arg1 (c : DoFile) : Text := c.basename ++ c.ext

/-- `REDO_PWD`. -/
def Process.pwdRel (p : Process) (startdir dodir : Text) : Text :=
  p.relpath ((canonicalize p.tree dodir).getD dodir) startdir

/-- `current_target_abs`. -/
def currentTargetAbs (startdir pwd target : Text) : Text := push (push startdir pwd) target

variable {base t path : Text} {dir names : List Text} {file : Text} {c : DoFile} {p p' : Process}
  {tree : Tree} {start : Directory}

/-- A candidate stands on the way to the target, and what it has to build is the rest of the way. -/
theorem parts_of_mem (h : Enumerated base t dir file) (hc : c ∈ possibleDoFiles t base) :
    ∃ front back, dir = front ++ back ∧ place c.dodir = front ∧
      c.arg1 = ['/'].intercalate (back ++ [file]) ∧ isAbsolute c.dofile = false := by
  have hfile : IsName file := isName_of_mem_place (h.target ▸ List.mem_append_right dir List.mem_cons_self)
  have hmem : c.candidate ∈ candidates dir file := h.candidates ▸ List.mem_map_of_mem hc
  rw [candidates] at hmem
  rcases List.mem_cons.mp hmem with heq | hmem
  · obtain ⟨hdir, hdofile, -, hbasename, hext⟩ := Candidate.mk.inj heq
    refine ⟨dir, [], (List.append_nil dir).symm, hdir, ?_, ?_⟩
    · rw [DoFile.arg1, hbasename, hext, List.append_nil, List.nil_append, List.intercalate_singleton]
    · rw [hdofile]
      have habs := isAbsolute_of_isName hfile
      cases file with
      | nil => exact absurd rfl hfile.ne_nil
      | cons a rest => exact habs
  · obtain ⟨d, hd, hmem⟩ := List.mem_flatMap.mp hmem
    obtain ⟨q, hq, heq⟩ := List.mem_map.mp hmem
    obtain ⟨hdir, hdofile, -, hbasename, hext⟩ := Candidate.mk.inj heq.symm
    obtain ⟨back, rfl⟩ := (List.mem_inits _ _).mp (List.mem_reverse.mp hd)
    refine ⟨d, back, rfl, hdir, ?_, ?_⟩
    · have hdrop : (d ++ back).drop d.length = back := List.drop_left
      rw [DoFile.arg1, hbasename, hext, hdrop]
      cases back with
      | nil => rw [List.nil_append, List.nil_append, List.intercalate_singleton,
          List.intercalate_singleton, append_of_mem_dotSplits hq]
      | cons a back =>
        have hne : a :: back ≠ [] := List.cons_ne_nil a back
        rw [intercalate_append_singleton hne, intercalate_append_singleton hne, List.append_assoc,
          List.cons_append, append_of_mem_dotSplits hq]
    · rw [hdofile]
      rfl

theorem isAbsolute_dodir (h : Enumerated base t dir file) (hbase : isAbsolute base = true)
    (hdir : dir ≠ []) (hc : c ∈ possibleDoFiles t base) : isAbsolute c.dodir = true := by
  rw [possibleDoFiles_eq hbase h.target, if_neg hdir] at hc
  rcases List.mem_cons.mp hc with rfl | hc
  · exact isAbsolute_join hbase _
  · obtain ⟨i, hi, hc⟩ := List.mem_flatMap.mp hc
    obtain ⟨k, rfl⟩ : ∃ k, i = k + 1 :=
      Nat.exists_eq_add_of_le' (List.mem_range'_1.mp (List.mem_reverse.mp hi)).1
    obtain ⟨q, -, rfl⟩ := List.mem_map.mp hc
    change isAbsolute (orRoot (['/'].intercalate (([] :: dir).take (k + 1)))) = true
    rw [List.take_succ_cons, orRoot]
    split_ifs with hnil
    · rfl
    · cases htake : dir.take k with
      | nil =>
        rw [htake] at hnil
        exact absurd rfl hnil
      | cons a rest => rfl

/-- What a file that exists stands in can be looked up. -/
theorem canonicalize_dir (h : isAbsolute path = true) (ht : isAbsolute t = false)
    (hfound : tree.found (push path t) = true) : canonicalize tree path = some (pathOf (place path)) := by
  rw [Tree.found, canonicalize, Option.isSome_map, moves_push h ht, List.foldlM_append] at hfound
  cases hvisit : (moves path).foldlM tree.visit [] with
  | none =>
    rw [hvisit] at hfound
    cases hfound
  | some found =>
    rw [canonicalize, hvisit, Option.map_some, foldlM_visit hvisit]
    rfl

/-- The way from the start to the directory. From the root there is none, and to the root nothing is
left of it. -/
theorem pwdRel_eq (hdiff : LexicalDiff p.diffPaths)
    (hdir : canonicalize p.tree path = some (pathOf names)) (hnames : ∀ n ∈ names, IsName n) :
    p.pwdRel start.path path =
      if names = [] then [] else if start.names = [] then pathOf names else way start.names names := by
  have hnormal : ∀ d : Directory, normalizePath (realdirpath p.tree d.path) =
      if d.names = [] then [] else pathOf d.names := by
    intro d
    rw [normalizePath_realdirpath _ d.isAbsolute_path, d.moves_path, settled_downs]
    simp [downs]
  have hthere : (canonicalize p.tree path).getD path = Directory.path ⟨names, hnames⟩ := by
    rw [hdir]
    rfl
  rw [Process.pwdRel, hthere, Process.relpath, Directory.isAbsolute_path, Directory.isAbsolute_path,
    if_pos rfl, if_pos rfl, hnormal, hnormal]
  dsimp only
  by_cases hnil : names = []
  · by_cases hstart : start.names = []
    · simp [hnil, hstart, hdiff.empty]
    · have hnone : p.diffPaths [] (pathOf start.names) = none := hdiff.to_relative start
      simp [hnil, hstart, hnone]
  · by_cases hstart : start.names = []
    · have hsome : p.diffPaths (pathOf names) [] = some (pathOf names) :=
        hdiff.from_relative ⟨names, hnames⟩
      simp [hnil, hstart, hsome]
    · have hsome : p.diffPaths (pathOf names) (pathOf start.names) = some (way start.names names) :=
        hdiff.between ⟨names, hnames⟩ start
      simp [hnil, hstart, hsome]

/-- What the two variables say together. -/
structure LeadsBack (path : Text) (target : List Text) : Prop where
  absolute : isAbsolute path = true
  place : place path = target
  last : (moves path).getLast? ≠ some .up
  long : 2 ≤ (moves path).length

theorem leadsBack_push {back : List Text} (h : isAbsolute path = true) (hback : ∀ n ∈ back ++ [file], IsName n)
    (hlong : moves path ≠ [] ∨ back ≠ []) :
    LeadsBack (push path (['/'].intercalate (back ++ [file]))) (place path ++ back ++ [file]) := by
  have hmoves : moves (push path (['/'].intercalate (back ++ [file]))) =
      moves path ++ downs back ++ [.down file] := by
    rw [moves_push h (isAbsolute_intercalate hback), moves_intercalate hback, List.append_assoc]
    simp [downs]
  have hpos : 0 < (moves path).length + back.length := by
    rcases hlong with hne | hne
    · have := List.length_pos_of_ne_nil hne
      omega
    · have := List.length_pos_of_ne_nil hne
      omega
  constructor
  · exact isAbsolute_push h _
  · rw [Paths.place, hmoves, walk_append, walk_append, walk_downs]
    rfl
  · rw [hmoves, List.getLast?_concat]
    simp
  · rw [hmoves]
    simp [downs]
    omega

/-- Where the recipe's commands look for the target. -/
theorem leadsBack_currentTargetAbs {back : List Text} (hdiff : LexicalDiff p.diffPaths)
    (hdir : canonicalize p.tree path = some (pathOf names)) (hnames : ∀ n ∈ names, IsName n)
    (hback : ∀ n ∈ back ++ [file], IsName n) (hlong : names ++ back ≠ []) :
    LeadsBack (currentTargetAbs start.path (p.pwdRel start.path path) (['/'].intercalate (back ++ [file])))
      ((if names = [] then start.names else names) ++ back ++ [file]) := by
  have hpush : ∀ {q : Text}, isAbsolute q = true → place q = (if names = [] then start.names else names) →
      (names ≠ [] → moves q ≠ []) → LeadsBack (push q (['/'].intercalate (back ++ [file])))
        ((if names = [] then start.names else names) ++ back ++ [file]) := by
    intro q hq hplace hne
    rw [← hplace]
    refine leadsBack_push hq hback ?_
    by_cases hnil : names = []
    · exact .inr (by simpa [hnil] using hlong)
    · exact .inl (hne hnil)
  rw [currentTargetAbs, pwdRel_eq hdiff hdir hnames]
  by_cases hnil : names = []
  · rw [if_pos hnil]
    refine hpush (isAbsolute_push start.isAbsolute_path _) ?_ fun hne => absurd hnil hne
    rw [if_pos hnil, place, moves_push start.isAbsolute_path rfl, moves_nil, List.append_nil]
    exact start.place_path
  rw [if_neg hnil]
  by_cases hstart : start.names = []
  · rw [if_pos hstart, push_absolute (isAbsolute_pathOf names)]
    refine hpush (isAbsolute_pathOf names) ?_ fun hne => ?_
    · rw [if_neg hnil, place, moves_pathOf hnames, walk_downs, List.nil_append]
    · rw [moves_pathOf hnames]
      exact downs_ne_nil hne
  · have hmoves : moves (push start.path (way start.names names)) =
        downs start.names ++ relative start.names names := by
      rw [moves_push start.isAbsolute_path (isAbsolute_way hnames), start.moves_path, moves_way hnames]
    rw [if_neg hstart]
    refine hpush (isAbsolute_push start.isAbsolute_path _) ?_ fun _ => ?_
    · rw [if_neg hnil, place, hmoves, walk_append, walk_downs, List.nil_append, walk_relative]
    · rw [hmoves]
      exact List.append_ne_nil_of_left_ne_nil (downs_ne_nil hstart) _

/-- The way to a place that does not lie above ends with its name. -/
theorem filePart_way {here target : List Text} (h : ∀ n ∈ target, IsName n) (habove : ¬ target <+: here) :
    IsName (filePart (way here target)) := by
  have hne : relative here target ≠ [] := by
    intro hnil
    rw [relative_eq_nil] at hnil
    exact habove (hnil ▸ List.prefix_rfl)
  obtain ⟨before, m, hlast⟩ : ∃ before m, relative here target = before ++ [m] :=
    ⟨_, _, (List.dropLast_append_getLast hne).symm⟩
  have hproper : Proper (relative here target) := relative_proper h
  cases m with
  | up =>
    have hup : (relative here target).getLast? = some .up := by
      rw [hlast, List.getLast?_concat]
    exact absurd ((relative_getLast? here target).mp hup).1 habove
  | down name =>
    have hname : IsName name := hproper name (hlast ▸ List.mem_append_right before List.mem_cons_self)
    have hslash : ∀ part ∈ (relative here target).map moveText, '/' ∉ part := by
      intro part hpart
      obtain ⟨m, hm, rfl⟩ := List.mem_map.mp hpart
      cases m with
      | up => decide
      | down n => exact (hproper n hm).slash
    rw [filePart, way, List.splitOn_intercalate _ hslash (by simpa using hne), hlast, List.map_append]
    simpa [moveText] using hname

theorem ne_always_of_length (h : 2 ≤ (moves t).length) : t ≠ ALWAYS.toList := by
  rintro rfl
  have hone : (moves ALWAYS.toList).length = 1 := by decide
  omega

/-- The row of the place, below any base but the root. -/
theorem LeadsBack.byName {target : List Text} (h : LeadsBack path target) (hdiff : LexicalDiff p.diffPaths)
    (hroot : p.base.names ≠ []) : p.byName path = way p.base.names target := by
  have hne : moves path ≠ [] := by
    intro hnil
    have hlong := h.long
    rw [hnil] at hlong
    simp at hlong
  rw [byName_eq hdiff (ne_always_of_length h.long), push_absolute h.absolute, keyOf, if_neg hne,
    if_neg hroot, settled_eq h.last, ← h.place]
  rfl

/-- The candidates for a target with a row of its own. -/
theorem Spelled.enumerated {s : Text} (hdiff : LexicalDiff p.diffPaths) (hs : Spelled p s)
    (hlength : 2 ≤ (place (push p.cwd.path s)).length) (hrow : p.byName s ≠ []) :
    p.base.names ≠ [] ∧ isAbsolute p.envBase = true ∧ ∃ dir file, dir ≠ [] ∧
      place (push p.cwd.path s) = dir ++ [file] ∧ Enumerated p.envBase (p.byName s) dir file := by
  have hroot : p.base.names ≠ [] := by
    intro hnil
    have hnone := hs.2
    rw [if_pos hnil] at hnone
    rw [place, hnone.1] at hlength
    simp [walk] at hlength
  have hname := hs.byName hdiff
  have hproper : ∀ n ∈ place (push p.cwd.path s), IsName n := fun n hn => isName_of_mem_place hn
  have habove : ¬ place (push p.cwd.path s) <+: p.base.names := by
    have hcase := hs.2
    rw [if_neg hroot] at hcase
    intro hle
    have hsame : place (push p.cwd.path s) = p.base.names := by
      by_contra hne
      exact hcase.2 ⟨hle, hne⟩
    rw [hname, ne_eq, way_eq_nil hproper] at hrow
    exact hrow hsame.symm
  have habs : isAbsolute p.envBase = true := by
    rw [Process.envBase, render_eq_pathOf hroot]
    exact isAbsolute_pathOf _
  generalize place (push p.cwd.path s) = target at hlength hname hproper habove
  obtain ⟨dir, file, rfl⟩ : ∃ dir file, target = dir ++ [file] := by
    have hne : target ≠ [] := by
      rintro rfl
      simp at hlength
    exact ⟨_, _, (List.dropLast_append_getLast hne).symm⟩
  have hdir : dir ≠ [] := by
    rintro rfl
    simp at hlength
  have htarget : place (join p.envBase (p.byName s)) = dir ++ [file] := by
    rw [place, hname, moves_join_of_relative (isAbsolute_way hproper), moves_way hproper,
      Process.envBase, moves_render p.base.proper, walk_append, walk_downs, List.nil_append,
      walk_relative]
  exact ⟨hroot, habs, dir, file, hdir, rfl,
    Paths.enumerated habs htarget hdir (hname ▸ filePart_way hproper habove)⟩

/-- What a recipe's commands take for the target: it is looked up under the row of the target, from
wherever they are called, unless the recipe stands in the root and the first command does not. -/
theorem byName_currentTargetAbs {s : Text} (hdiff : LexicalDiff p.diffPaths)
    (hdiff' : LexicalDiff p'.diffPaths) (hs : Spelled p s)
    (hlength : 2 ≤ (place (push p.cwd.path s)).length) (hrow : p.byName s ≠ [])
    (hfind : p.findDoForTarget (p.byName s) = some c) (hbase : p'.base.names = p.base.names) :
    p'.byName (currentTargetAbs start.path (p.pwdRel start.path c.dodir) c.arg1) = p.byName s ↔
      place c.dodir ≠ [] ∨ start.names = [] := by
  obtain ⟨hroot, habs, dir, file, hdir, hplace, henum⟩ := hs.enumerated hdiff hlength hrow
  have hname := hs.byName hdiff
  have hproper : ∀ n ∈ dir ++ [file], IsName n := fun n hn => isName_of_mem_place (hplace.symm ▸ hn)
  have hmem : c ∈ possibleDoFiles (p.byName s) p.envBase := List.mem_of_find?_eq_some hfind
  have hfound : p.tree.found (push c.dodir c.dofile) = true := by
    simpa using List.find?_some hfind
  obtain ⟨front, back, rfl, hfront, harg, hdofile⟩ := parts_of_mem henum hmem
  have hcanonical := canonicalize_dir (isAbsolute_dodir henum habs hdir hmem) hdofile hfound
  rw [hfront] at hcanonical
  have hleads := @leadsBack_currentTargetAbs _ _ _ p start back hdiff hcanonical
    (fun n hn => hproper n (by simp [hn])) (fun n hn => hproper n (by simp at hn ⊢; tauto)) hdir
  rw [harg, hleads.byName hdiff' (hbase.symm ▸ hroot), hname, hplace, hfront, hbase]
  have hiff : (if front = [] then start.names else front) ++ back ++ [file] = front ++ back ++ [file] ↔
      front ≠ [] ∨ start.names = [] := by
    by_cases hnil : front = [] <;> simp [hnil]
  rw [← hiff]
  constructor
  · intro heq
    refine way_injective ?_ hproper heq
    rw [← hleads.place]
    exact fun n hn => isName_of_mem_place hn
  · exact congrArg _

end Redo.Paths
