import Redo.Paths.Candidates
import Redo.State.Files

/-! # The name of a row

A row of `Files` is named by the way from the base to the file. The directory of the path is
looked up, the rest is lexical. Without links both come to one place.
-/
namespace Redo.Paths
open Library Remote Cache State

/-- `PathBuf::push`. -/
def push (path p : Text) : Text :=
  if isAbsolute p then p
  else if path = [] ∨ path.getLast? = some '/' then path ++ p
  else path ++ '/' :: p

def normalizePath (path : Text) : Text := (normalizePathLex path).foldl push []

/-- What there is on the disk, without links. -/
structure Tree where
  present : List Text → Bool
  directory : List Text → Bool

def Tree.visit (tree : Tree) (here : List Text) (m : Move Text) : Option (List Text) :=
  if tree.directory here ∧ tree.present (walk here [m]) then some (walk here [m]) else none

def pathOf (names : List Text) : Text := if names = [] then ['/'] else render names

/-- `std::fs::canonicalize` of an absolute path. -/
def canonicalize (tree : Tree) (path : Text) : Option Text :=
  ((moves path).foldlM tree.visit []).map pathOf

def realdirpath (tree : Tree) (t : Text) : Text :=
  let dname := (parent t).getD []
  let fname := (fileName t).getD []
  if dname = [] then fname
  else push ((canonicalize tree dname).getD (normalizePath dname)) fname

/-- A process: what it sees, where it is, and the crate that gives the difference of two paths. -/
structure Process where
  tree : Tree
  base : Directory
  cwd : Directory
  diffPaths : Text → Text → Option Text

/-- `REDO_BASE` has no slash at its end. -/
def Process.envBase (p : Process) : Text := render p.base.names

/-- The name `File::by_name` looks for. -/
def Process.byName (p : Process) (name : Text) : Text :=
  if name = ALWAYS.toList then name
  else
    let abs := if isAbsolute name then name else push p.cwd.path name
    let abs := normalizePath (realdirpath p.tree abs)
    let base := normalizePath (realdirpath p.tree p.envBase)
    (p.diffPaths abs base).getD abs

def Process.relpath (p : Process) (t base : Text) : Text :=
  let tAbs := if isAbsolute t then t else push p.cwd.path t
  let baseAbs := if isAbsolute base then base else push p.cwd.path base
  let tNorm := normalizePath (realdirpath p.tree tAbs)
  let bNorm := normalizePath (realdirpath p.tree baseAbs)
  (p.diffPaths tNorm bNorm).getD tNorm

def moveText : Move Text → Text
  | .up => ['.', '.']
  | .down name => name

/-- The way between two places as a text. -/
def way (here target : List Text) : Text := ['/'].intercalate ((relative here target).map moveText)

/-- What the crate `pathdiff` says of its function, for normal paths. -/
structure LexicalDiff (diffPaths : Text → Text → Option Text) : Prop where
  between : ∀ a b : Directory, diffPaths a.path b.path = some (way b.names a.names)
  from_relative : ∀ a : Directory, diffPaths a.path [] = some a.path
  to_relative : ∀ b : Directory, diffPaths [] b.path = none
  empty : diffPaths [] [] = some []

variable {path t : Text} {here target names : List Text} {p : Process}

theorem absolute_cons (h : isAbsolute path = true) : ∃ rest, path = '/' :: rest := by
  cases path with
  | nil => cases h
  | cons c rest => exact ⟨rest, congrArg (· :: rest) (Option.some.inj (of_decide_eq_true h))⟩

theorem moves_push (h : isAbsolute path = true) (ht : isAbsolute t = false) :
    moves (push path t) = moves path ++ moves t := by
  obtain ⟨rest, rfl⟩ := absolute_cons h
  rw [push, if_neg (by simp [ht])]
  by_cases hslash : ('/' :: rest : Text) = [] ∨ ('/' :: rest).getLast? = some '/'
  · rw [if_pos hslash]
    have hlast := hslash.resolve_left (List.cons_ne_nil '/' rest)
    obtain ⟨front, hfront⟩ := List.getLast?_eq_some_iff.mp hlast
    rw [hfront, List.append_assoc, List.singleton_append, moves_join, moves_join, moves_nil,
      List.append_nil]
  · rw [if_neg hslash, moves_join]

theorem push_absolute (ht : isAbsolute t = true) : push path t = t := by
  rw [push, if_pos ht]

theorem isAbsolute_push (h : isAbsolute path = true) (t : Text) : isAbsolute (push path t) = true := by
  obtain ⟨rest, rfl⟩ := absolute_cons h
  unfold push
  split_ifs with habs
  · exact habs
  · rfl
  · rfl

theorem getLast?_render (h : ∀ n ∈ names, IsName n) : (render names).getLast? ≠ some '/' := by
  rcases List.eq_nil_or_concat names with rfl | ⟨front, name, rfl⟩
  · exact Option.some_ne_none '/' ∘ Eq.symm
  · have hname : IsName name := h name (by simp)
    intro hlast
    rw [render, List.concat_eq_append, List.flatMap_append, List.flatMap_singleton,
      List.getLast?_append, List.getLast?_cons_of_ne_nil hname.ne_nil] at hlast
    obtain ⟨c, hc⟩ := Option.ne_none_iff_exists'.mp (mt List.getLast?_eq_none_iff.mp hname.ne_nil)
    rw [hc, Option.some_or] at hlast
    exact hname.slash (Option.some.inj hlast ▸ List.mem_of_getLast? hc)

theorem push_pathOf {name : Text} (h : ∀ n ∈ names ++ [name], IsName n) :
    push (pathOf names) name = pathOf (names ++ [name]) := by
  have hname : IsName name := h name (List.mem_append_right names List.mem_cons_self)
  have hnames : ∀ n ∈ names, IsName n := fun n hn => h n (List.mem_append_left _ hn)
  rw [push, if_neg (by simp [isAbsolute_of_isName hname]), pathOf, pathOf,
    if_neg (List.append_ne_nil_of_right_ne_nil names (List.cons_ne_nil name []))]
  by_cases hnil : names = []
  · have hslash : (['/'] : Text) = [] ∨ (['/'] : Text).getLast? = some '/' := Or.inr rfl
    rw [if_pos hnil, if_pos hslash, hnil]
    simp [render]
  · have hslash : ¬ (render names = [] ∨ (render names).getLast? = some '/') := by
      rintro (hrender | hlast)
      · cases names with
        | nil => exact hnil rfl
        | cons a l => cases hrender
      · exact getLast?_render hnames hlast
    rw [if_neg hnil, if_neg hslash, render, render, List.flatMap_append, List.flatMap_singleton]

theorem foldl_push (h : ∀ n ∈ here ++ names, IsName n) :
    names.foldl push (pathOf here) = pathOf (here ++ names) := by
  induction names generalizing here with
  | nil => rw [List.append_nil]; rfl
  | cons name names ih =>
    have happend : here ++ name :: names = (here ++ [name]) ++ names := List.append_cons here name names
    rw [happend] at h
    rw [List.foldl_cons, push_pathOf fun n hn => h n (List.mem_append_left _ hn), ih h, ← happend]

theorem normalizePath_absolute (h : isAbsolute path = true) :
    normalizePath path = pathOf (place path) := by
  rw [normalizePath, normalizePathLex_absolute h, List.foldl_cons]
  have hpush : (place path).foldl push (pathOf []) = pathOf ([] ++ place path) :=
    foldl_push fun n hn => isName_of_mem_place hn
  exact hpush

theorem isAbsolute_pathOf (names : List Text) : isAbsolute (pathOf names) = true := by
  cases names <;> rfl

theorem moves_pathOf (h : ∀ n ∈ names, IsName n) : moves (pathOf names) = downs names :=
  Directory.moves_path ⟨names, h⟩

theorem foldlM_visit {tree : Tree} {path : List (Move Text)} {found : List Text}
    (h : path.foldlM tree.visit here = some found) : found = walk here path := by
  induction path generalizing here with
  | nil => exact (Option.some.inj h).symm
  | cons m path ih =>
    rw [List.foldlM_cons] at h
    obtain ⟨next, hvisit, hrest⟩ := Option.bind_eq_some_iff.mp h
    have hnext : next = walk here [m] := by
      unfold Tree.visit at hvisit
      split_ifs at hvisit
      exact (Option.some.inj hvisit).symm
    rw [ih hrest, hnext, ← walk_append]
    rfl

/-- Without links, what the lookup of a directory finds is its normal form. -/
theorem canonicalize_or (tree : Tree) (h : isAbsolute path = true) :
    (canonicalize tree path).getD (normalizePath path) = pathOf (place path) := by
  cases hvisit : (moves path).foldlM tree.visit [] with
  | none => rw [canonicalize, hvisit, Option.map_none, Option.getD_none, normalizePath_absolute h]
  | some found =>
    rw [canonicalize, hvisit, Option.map_some, Option.getD_some, foldlM_visit hvisit]
    rfl

/-- Moves as they are read from a text. -/
def Proper (path : List (Move Text)) : Prop := ∀ name, .down name ∈ path → IsName name

theorem proper_moves (path : Text) : Proper (moves path) := fun _ => isName_of_mem_moves

theorem moves_texts {path : List (Move Text)} (h : Proper path) :
    moves (['/'].intercalate (path.map moveText)) = path := by
  have htext : ∀ m ∈ path, '/' ∉ moveText m ∧ move (moveText m) = some m := by
    intro m hm
    cases m with
    | up => exact ⟨by decide, by decide⟩
    | down name =>
      have hname := h name hm
      exact ⟨hname.slash, move_of_isName hname⟩
  cases path with
  | nil => rfl
  | cons m path =>
    have hparts : (['/'].intercalate ((m :: path).map moveText)).splitOn '/' =
        (m :: path).map moveText := by
      refine List.splitOn_intercalate _ ?_ (List.cons_ne_nil _ _)
      intro part hpart
      obtain ⟨m', hm', rfl⟩ := List.mem_map.mp hpart
      exact (htext m' hm').1
    rw [moves, hparts, List.filterMap_map]
    exact (List.filterMap_congr fun m' hm' => (htext m' hm').2).trans List.filterMap_some

theorem components_of_moves (h : isAbsolute path = true) {before : List (Move Text)} {m : Move Text}
    (hmoves : moves path = before ++ [m]) :
    parent path = some ('/' :: ['/'].intercalate (before.map moveText)) ∧
      fileName path = (if m = .up then none else some (moveText m)) := by
  have hlast : (Component.rootDir :: (before ++ [m]).map asComponent).getLast? =
      some (asComponent m) := by
    rw [List.map_append, ← List.cons_append]
    exact List.getLast?_concat
  have hrest : (Component.rootDir :: (before ++ [m]).map asComponent).dropLast =
      .rootDir :: before.map asComponent := by
    rw [List.map_append, ← List.cons_append]
    exact List.dropLast_concat
  have htext : (before.map asComponent).map Component.text = before.map moveText := by
    rw [List.map_map]
    exact List.map_congr_left fun m' _ => by cases m' <;> rfl
  rw [parent, fileName, components_absolute h, hmoves, hlast, hrest, renderComponents, htext]
  cases m with
  | up => exact ⟨rfl, rfl⟩
  | down name => exact ⟨rfl, rfl⟩

/-- What is left of a path that ends with a move up: it is not made. -/
def settled {α : Type*} [DecidableEq α] (path : List (Move α)) : List α :=
  walk [] (if path.getLast? = some .up then path.dropLast else path)

theorem isName_of_mem_walk {path : List (Move Text)} (h : Proper path) {name : Text}
    (hmem : name ∈ walk [] path) : IsName name := by
  rcases mem_walk hmem with hnil | hdown
  · cases hnil
  · exact h name hdown

theorem isName_of_mem_settled {name : Text} (h : name ∈ settled (moves path)) : IsName name := by
  refine isName_of_mem_walk ?_ h
  intro n hn
  split_ifs at hn
  · exact isName_of_mem_moves ((List.dropLast_sublist _).subset hn)
  · exact isName_of_mem_moves hn

/-- The normal form of what `realdirpath` makes of an absolute path. -/
theorem normalizePath_realdirpath (tree : Tree) (h : isAbsolute path = true) :
    normalizePath (realdirpath tree path) =
      if moves path = [] then [] else pathOf (settled (moves path)) := by
  by_cases hnil : moves path = []
  · have hcomponents : components path = [.rootDir] := by
      rw [components_absolute h, hnil]
      rfl
    have hparent : parent path = none := by rw [parent, hcomponents]; rfl
    have hname : fileName path = none := by rw [fileName, hcomponents]; rfl
    rw [if_pos hnil, realdirpath, hparent, hname]
    rfl
  · obtain ⟨before, m, hmoves⟩ : ∃ before m, moves path = before ++ [m] :=
      ⟨_, _, (List.dropLast_append_getLast hnil).symm⟩
    obtain ⟨hparent, hname⟩ := components_of_moves h hmoves
    have hproper : Proper before := fun name hn =>
      isName_of_mem_moves (hmoves.symm ▸ List.mem_append_left _ hn)
    have hdname : moves ('/' :: ['/'].intercalate (before.map moveText)) = before := by
      rw [moves_cons_slash, moves_texts hproper]
    rw [if_neg hnil, realdirpath, hparent, hname, Option.getD_some]
    rw [if_neg (List.cons_ne_nil _ _), canonicalize_or tree rfl, place, hdname,
      normalizePath_absolute (isAbsolute_push (isAbsolute_pathOf _) _), place]
    congr 1
    have hwalk : ∀ n ∈ walk [] before, IsName n := fun n hn => isName_of_mem_walk hproper hn
    cases m with
    | up =>
      rw [if_pos rfl, Option.getD_none, moves_push (isAbsolute_pathOf _) rfl, moves_pathOf hwalk,
        moves_nil, List.append_nil, walk_downs, settled, hmoves, List.getLast?_concat, if_pos rfl,
        List.dropLast_concat, List.nil_append]
    | down name =>
      have hfile : IsName name := isName_of_mem_moves (hmoves.symm ▸ List.mem_append_right _ List.mem_cons_self)
      rw [if_neg (by simp), Option.getD_some, moveText,
        moves_push (isAbsolute_pathOf _) (isAbsolute_of_isName hfile), moves_pathOf hwalk,
        moves_of_isName hfile, walk_append, walk_downs, settled, hmoves, List.getLast?_concat,
        if_neg (by simp), walk_append, List.nil_append]

theorem relative_proper (h : ∀ n ∈ target, IsName n) : Proper (relative here target) := by
  intro name hname
  induction here generalizing target with
  | nil =>
    rw [relative_nil_left] at hname
    obtain ⟨n, hn, heq⟩ := List.mem_map.mp hname
    exact Move.down.inj heq ▸ h n hn
  | cons a here ih =>
    cases target with
    | nil =>
      rw [relative_nil_right] at hname
      cases List.eq_of_mem_replicate hname
    | cons b target =>
      rw [relative] at hname
      split_ifs at hname with hab
      · exact ih (fun n hn => h n (List.mem_cons_of_mem _ hn)) hname
      · rcases List.mem_append.mp hname with hup | hdown
        · cases List.eq_of_mem_replicate hup
        · obtain ⟨n, hn, heq⟩ := List.mem_map.mp hdown
          exact Move.down.inj heq ▸ h n hn

theorem moves_way (h : ∀ n ∈ target, IsName n) : moves (way here target) = relative here target :=
  moves_texts (relative_proper h)

theorem way_injective {target' : List Text} (h : ∀ n ∈ target, IsName n) (h' : ∀ n ∈ target', IsName n)
    (hway : way here target = way here target') : target = target' := by
  refine relative_injective here ?_
  rw [← moves_way h, ← moves_way h', hway]

theorem isAbsolute_texts {path : List (Move Text)} (h : Proper path) :
    isAbsolute (['/'].intercalate (path.map moveText)) = false := by
  cases path with
  | nil => rfl
  | cons m path =>
    have hhead : ∃ c l, moveText m = c :: l ∧ c ≠ '/' := by
      cases m with
      | up => exact ⟨'.', ['.'], rfl, by decide⟩
      | down name =>
        have hname := h name List.mem_cons_self
        cases name with
        | nil => exact absurd rfl hname.ne_nil
        | cons c l => exact ⟨c, l, rfl, fun he => hname.slash (he ▸ List.mem_cons_self)⟩
    obtain ⟨c, l, hc, hne⟩ := hhead
    rw [List.map_cons, hc]
    cases path <;> simp [isAbsolute, hne]

theorem isAbsolute_way (h : ∀ n ∈ target, IsName n) : isAbsolute (way here target) = false :=
  isAbsolute_texts (relative_proper h)

theorem way_eq_nil (h : ∀ n ∈ target, IsName n) : way here target = [] ↔ here = target := by
  refine Iff.trans ?_ (relative_eq_nil here target)
  constructor
  · intro hnil
    rw [← moves_way h, hnil, moves_nil]
  · intro hnil
    rw [way, hnil]
    rfl

theorem render_eq_pathOf (h : names ≠ []) : render names = pathOf names := by
  rw [pathOf, if_neg h]

theorem downs_ne_nil {α : Type*} {names : List α} (h : names ≠ []) : downs names ≠ [] := mt List.map_eq_nil_iff.mp h

theorem settled_downs {α : Type*} [DecidableEq α] (names : List α) : settled (downs names) = names := by
  have hlast : (downs names).getLast? ≠ some (.up : Move α) := by
    intro hup
    obtain ⟨n, -, heq⟩ := List.mem_map.mp (List.mem_of_getLast? hup)
    cases heq
  rw [settled, if_neg hlast, walk_downs, List.nil_append]

/-- The base as the lookup has it: nothing where it is the root. -/
theorem normalizePath_envBase (p : Process) :
    normalizePath (realdirpath p.tree p.envBase) =
      if p.base.names = [] then [] else pathOf p.base.names := by
  by_cases hnil : p.base.names = []
  · rw [Process.envBase, hnil, if_pos rfl]
    rfl
  · have hmoves := moves_pathOf p.base.proper
    have hne := downs_ne_nil hnil
    rw [Process.envBase, render_eq_pathOf hnil, normalizePath_realdirpath _ (isAbsolute_pathOf _), hmoves,
      if_neg hne, if_neg hnil, settled_downs]

/-- The key of a path, by the three cases of the lookup. -/
def keyOf (base : List Text) (path : List (Move Text)) : Text :=
  if path = [] then [] else if base = [] then pathOf (settled path) else way base (settled path)

theorem byName_eq (hdiff : LexicalDiff p.diffPaths) (halways : t ≠ ALWAYS.toList) :
    p.byName t = keyOf p.base.names (moves (push p.cwd.path t)) := by
  have habs : (if isAbsolute t then t else push p.cwd.path t) = push p.cwd.path t := by
    by_cases h : isAbsolute t = true
    · rw [if_pos h, push_absolute h]
    · rw [if_neg h]
  have hroot : isAbsolute (push p.cwd.path t) = true := isAbsolute_push p.cwd.isAbsolute_path t
  have hsettled : ∀ n ∈ settled (moves (push p.cwd.path t)), IsName n := fun n hn =>
    isName_of_mem_settled hn
  rw [Process.byName, if_neg halways, habs]
  dsimp only
  rw [normalizePath_realdirpath p.tree hroot, normalizePath_envBase, keyOf]
  by_cases hnil : moves (push p.cwd.path t) = []
  · rw [if_pos hnil, if_pos hnil]
    by_cases hbase : p.base.names = []
    · rw [if_pos hbase, hdiff.empty]
      rfl
    · rw [if_neg hbase]
      have hnone : p.diffPaths [] (pathOf p.base.names) = none := hdiff.to_relative p.base
      rw [hnone]
      rfl
  · rw [if_neg hnil, if_neg hnil]
    by_cases hbase : p.base.names = []
    · rw [if_pos hbase, if_pos hbase]
      have hsome : p.diffPaths (pathOf (settled (moves (push p.cwd.path t)))) [] = some _ :=
        hdiff.from_relative ⟨_, hsettled⟩
      rw [hsome]
      rfl
    · rw [if_neg hbase, if_neg hbase]
      have hsome : p.diffPaths (pathOf (settled (moves (push p.cwd.path t)))) (pathOf p.base.names) =
        some _ := hdiff.between ⟨_, hsettled⟩ p.base
      rw [hsome]
      rfl

/-- The rows are named as files are named to the user, below any base but the root. -/
theorem byName_eq_relpath (hbase : p.base.names ≠ []) (halways : t ≠ ALWAYS.toList) :
    p.byName t = p.relpath t p.envBase := by
  have habs : isAbsolute p.envBase = true := by
    rw [Process.envBase, render_eq_pathOf hbase, isAbsolute_pathOf]
  rw [Process.byName, Process.relpath, if_neg halways, if_pos habs]

/-- A path that does not end with a move up is made whole. -/
theorem settled_eq {α : Type*} [DecidableEq α] {path : List (Move α)} (h : path.getLast? ≠ some .up) : settled path = walk [] path := by
  rw [settled, if_neg h]

/-- A last move up is left out, and the place is another one unless it is the root. -/
theorem settled_up {α : Type*} [DecidableEq α] {path : List (Move α)} (h : path.getLast? = some .up) :
    (settled path).dropLast = walk [] path := by
  obtain ⟨before, rfl⟩ := List.getLast?_eq_some_iff.mp h
  rw [settled, if_pos h, List.dropLast_concat, walk_append]
  rfl

/-- A place above the base is not found again: its key ends with a move up. -/
theorem not_settled_above {α : Type*} [DecidableEq α] {here target : List α} (habove : target <+: here)
    (hne : target ≠ here) :
    settled (downs here ++ relative here target) ≠ target := by
  have hup := (relative_getLast? here target).mpr ⟨habove, hne⟩
  obtain ⟨rest, rfl⟩ := habove
  rw [relative_append] at hup ⊢
  cases rest with
  | nil => exact absurd (List.append_nil target).symm hne
  | cons a rest =>
    have hlast : (downs (target ++ a :: rest) ++ ups (a :: rest).length).getLast? = some .up := by
      rw [List.getLast?_append, hup]
      rfl
    have hups : ups (a :: rest).length = (ups rest.length ++ [.up] : List (Move α)) :=
      List.replicate_succ'
    rw [settled, if_pos hlast, hups, ← List.append_assoc, List.dropLast_concat, walk_append, walk_downs,
      List.nil_append, walk_ups]
    intro heq
    have hlength := congrArg List.length heq
    simp at hlength
    omega

/-- Which spellings the lookup gets right. -/
def Spelled (p : Process) (t : Text) : Prop :=
  t ≠ ALWAYS.toList ∧
    if p.base.names = [] then moves (push p.cwd.path t) = [] ∧ p.cwd.names = []
    else (moves (push p.cwd.path t)).getLast? ≠ some .up ∧
      ¬ (place (push p.cwd.path t) <+: p.base.names ∧ place (push p.cwd.path t) ≠ p.base.names)

instance (p : Process) (t : Text) : Decidable (Spelled p t) :=
  inferInstanceAs (Decidable (_ ∧ if p.base.names = [] then _ else _))

/-- What is joined to the base is not taken for the row of `redo-always`: there is only one slash
in front. -/
theorem push_render_ne_always {base : Directory} (hbase : base.names ≠ []) (h : isAbsolute t = false) :
    push (render base.names) t ≠ ALWAYS.toList := by
  obtain ⟨name, rest, hnames⟩ := List.exists_cons_of_ne_nil hbase
  have hname := base.proper name (hnames ▸ List.mem_cons_self)
  obtain ⟨c, l, rfl⟩ := List.exists_cons_of_ne_nil hname.ne_nil
  have hc : c ≠ '/' := fun he => hname.slash (he ▸ List.mem_cons_self)
  have hsecond : (push (render base.names) t)[1]? = some c := by
    rw [hnames, push, if_neg (by simp [h])]
    split_ifs <;> rfl
  intro heq
  rw [heq] at hsecond
  exact hc (Option.some.inj hsecond).symm

/-- The path back from a place that does not lie above the base ends with a name. -/
theorem getLast?_back {α : Type*} [DecidableEq α] {here target : List α} (h : ¬ (target <+: here ∧ target ≠ here)) :
    (downs here ++ relative here target).getLast? ≠ some .up := by
  rw [List.getLast?_append]
  cases hlast : (relative here target).getLast? with
  | none =>
    intro hup
    rw [Option.none_or] at hup
    obtain ⟨n, -, heq⟩ := List.mem_map.mp (List.mem_of_getLast? hup)
    cases heq
  | some m =>
    rw [Option.some_or, ← hlast]
    exact mt (relative_getLast? here target).mp h

/-- A good spelling is looked up under the way to its place. -/
theorem Spelled.byName (hdiff : LexicalDiff p.diffPaths) (h : Spelled p t) :
    p.byName t = way p.base.names (place (push p.cwd.path t)) := by
  obtain ⟨halways, hcase⟩ := h
  rw [byName_eq hdiff halways, keyOf]
  by_cases hbase : p.base.names = []
  · rw [if_pos hbase] at hcase
    rw [if_pos hcase.1, place, hcase.1, hbase]
    rfl
  · rw [if_neg hbase] at hcase
    rw [if_neg hbase, settled_eq hcase.1]
    by_cases hnil : moves (push p.cwd.path t) = []
    · refine absurd ⟨?_, ?_⟩ hcase.2
      · rw [place, hnil]
        exact List.nil_prefix
      · rw [place, hnil]
        exact Ne.symm hbase
    · rw [if_neg hnil]
      rfl

/-- The difference of two absolute paths, or of nothing. -/
def lexicalDiff (path base : Text) : Option Text :=
  if isAbsolute path = isAbsolute base then some (way (place base) (place path))
  else if isAbsolute path then some path else none

theorem lexicalDiff_spec : LexicalDiff lexicalDiff where
  between a b := by
    rw [lexicalDiff, a.isAbsolute_path, b.isAbsolute_path, if_pos rfl, Directory.place_path,
      Directory.place_path]
  from_relative a := by
    have hnil : isAbsolute [] = false := rfl
    rw [lexicalDiff, a.isAbsolute_path, hnil, if_neg Bool.noConfusion, if_pos rfl]
  to_relative b := by
    have hnil : isAbsolute [] = false := rfl
    rw [lexicalDiff, b.isAbsolute_path, hnil, if_neg Bool.noConfusion, if_neg Bool.noConfusion]
  empty := rfl

/-- A process in `/b/c` with the base `/b`, and nothing else on the disk. -/
def processBelow : Process where
  tree := { present := fun here => here.isPrefixOf ["b".toList, "c".toList]
            directory := fun here => here.isPrefixOf ["b".toList, "c".toList] }
  base := ⟨["b".toList], by decide⟩
  cwd := ⟨["b".toList, "c".toList], by decide⟩
  diffPaths := lexicalDiff

end Redo.Paths
