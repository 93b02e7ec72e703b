import Redo.Library.PathWays
import Redo.Paths.Normalizers

/-! # The name of a row, from the bytes of a path

The names of files are bytes. A key is the way from the base to the file, and what is no UTF-8 in
it is replaced when it becomes the name of a row. What a process is asked for is text, and so is
`REDO_BASE`.
-/
namespace Redo.Paths.Os
open Library Remote Cache State

/-- What there is on the disk, without links. -/
structure Tree where
  present : List OsText → Bool
  directory : List OsText → Bool

def Tree.visit (tree : Tree) (here : List OsText) (m : Move OsText) : Option (List OsText) :=
  if tree.directory here ∧ tree.present (walk here [m]) then some (walk here [m]) else none

/-- `std::fs::canonicalize` of an absolute path. -/
def canonicalize (tree : Tree) (path : OsText) : Option OsText :=
  ((unix.moves path).foldlM tree.visit []).map unix.rooted

def realdirpath (tree : Tree) (t : OsText) : OsText :=
  let dname := (unix.parent t).getD []
  let fname := (unix.fileName t).getD []
  if dname = [] then fname
  else unix.push ((canonicalize tree dname).getD (normalizePath dname)) fname

/-- A process: what it sees, where it is, and the crate that gives the difference of two paths. -/
structure Process where
  tree : Tree
  base : Directory
  cwd : List OsText
  cwd_proper : ∀ n ∈ cwd, unix.IsName n
  diffPaths : OsText → OsText → Option OsText

/-- `REDO_BASE` has no slash at its end. -/
def Process.envBase (p : Process) : Text := Paths.render p.base.names

/-- The name `File::by_name` looks for. -/
def Process.byName (p : Process) (name : Text) : Text :=
  if name = ALWAYS.toList then name
  else
    let abs := if isAbsolute name then encode name else unix.push (unix.rooted p.cwd) (encode name)
    let abs := normalizePath (realdirpath p.tree abs)
    let base := normalizePath (realdirpath p.tree (encode p.envBase))
    lossy ((p.diffPaths abs base).getD abs)

/-- What the crate `pathdiff` says of its function, for normal paths. -/
structure LexicalDiff (diffPaths : OsText → OsText → Option OsText) : Prop where
  between : ∀ a b, (∀ n ∈ a, unix.IsName n) → (∀ n ∈ b, unix.IsName n) →
    diffPaths (unix.rooted a) (unix.rooted b) = some (unix.way b a)
  from_relative : ∀ a, (∀ n ∈ a, unix.IsName n) →
    diffPaths (unix.rooted a) [] = some (unix.rooted a)
  to_relative : ∀ b, (∀ n ∈ b, unix.IsName n) → diffPaths [] (unix.rooted b) = none
  empty : diffPaths [] [] = some []

namespace Process

def baseNames (p : Process) : List OsText := p.base.names.map encode

/-- The moves from the root that a spelling stands for. -/
def route (p : Process) (t : Text) : List (Move OsText) :=
  unix.moves (unix.push (unix.rooted p.cwd) (encode t))

def placeOf (p : Process) (t : Text) : List OsText := walk [] (p.route t)

end Process

/-- The spelling is looked up under the way from the base to its place, and that leads there again. -/
structure Keyed (p : Process) (t : Text) : Prop where
  name : encode (p.byName t) = unix.way p.baseNames (p.placeOf t)
  again : p.byName (push p.envBase (p.byName t)) = p.byName t

/-- Which spellings the lookup gets right. -/
def Spelled (p : Process) (t : Text) : Prop :=
  t ≠ ALWAYS.toList ∧
    (if p.base.names = [] then p.route t = [] ∧ p.cwd = []
    else (p.route t).getLast? ≠ some .up ∧
      ¬ (p.placeOf t <+: p.baseNames ∧ p.placeOf t ≠ p.baseNames)) ∧
    IsUtf8 (unix.way p.baseNames (p.placeOf t))

instance (p : Process) (t : Text) : Decidable (Spelled p t) :=
  inferInstanceAs (Decidable (_ ∧ (if p.base.names = [] then _ else _) ∧ _))

variable {path : OsText} {t : Text} {here target names : List OsText} {p : Process}

theorem normalizePath_absolute (h : unix.isAbsolute path = true) :
    normalizePath path = unix.rooted (unix.place path) := keepNormal_absolute h

theorem foldlM_visit {tree : Tree} {path : List (Move OsText)} {found : List OsText}
    (h : path.foldlM tree.visit here = some found) : found = walk here path := by
  induction path generalizing here with
  | nil => exact (Option.some.inj h).symm
  | cons m path ih =>
    rw [List.foldlM_cons] at h
    obtain ⟨next, hvisit, hrest⟩ := Option.bind_eq_some_iff.mp h
    have hnext : next = walk here [m] := by
      unfold Tree.visit at hvisit
      split_ifs at hvisit
      exact (Option.some.inj hvisit).symm
    rw [ih hrest, hnext, ← walk_append]
    rfl

/-- Without links, what the lookup of a directory finds is its normal form. -/
theorem canonicalize_or (tree : Tree) (h : unix.isAbsolute path = true) :
    (canonicalize tree path).getD (normalizePath path) = unix.rooted (unix.place path) := by
  cases hvisit : (unix.moves path).foldlM tree.visit [] with
  | none => rw [canonicalize, hvisit, Option.map_none, Option.getD_none, normalizePath_absolute h]
  | some found =>
    rw [canonicalize, hvisit, Option.map_some, Option.getD_some, foldlM_visit hvisit]
    rfl

theorem isName_of_mem_settled {path : List (Move OsText)} (h : unix.Proper path) {name : OsText}
    (hmem : name ∈ settled path) : unix.IsName name := by
  refine PathMarks.isName_of_mem_walk ?_ hmem
  intro n hn
  split_ifs at hn
  · exact h n ((List.dropLast_sublist _).subset hn)
  · exact h n hn

/-- The normal form of what `realdirpath` makes of an absolute path. -/
theorem normalizePath_realdirpath (tree : Tree) (h : unix.isAbsolute path = true) :
    normalizePath (realdirpath tree path) =
      if unix.moves path = [] then [] else unix.rooted (settled (unix.moves path)) := by
  by_cases hnil : unix.moves path = []
  · have hcomponents : unix.components path = [.rootDir] := by
      rw [PathMarks.components_absolute h, hnil]
      rfl
    have hparent : unix.parent path = none := by
      rw [PathMarks.parent, hcomponents]
      rfl
    have hname : unix.fileName path = none := by
      rw [PathMarks.fileName, hcomponents]
      rfl
    rw [if_pos hnil, realdirpath, hparent, hname]
    rfl
  · obtain ⟨before, m, hmoves⟩ : ∃ before m, unix.moves path = before ++ [m] :=
      ⟨_, _, (List.dropLast_append_getLast hnil).symm⟩
    obtain ⟨hparent, hname⟩ := PathMarks.components_of_moves h hmoves
    have hproper : unix.Proper before := fun name hn =>
      PathMarks.isName_of_mem_moves (hmoves.symm ▸ List.mem_append_left _ hn)
    have hdname : unix.moves (unix.slash :: unix.written before) = before := by
      rw [PathMarks.moves_cons_slash, PathMarks.moves_written hproper]
    have habs : unix.isAbsolute (unix.slash :: unix.written before) = true := rfl
    have hwalk : ∀ n ∈ walk [] before, unix.IsName n := fun n hn =>
      PathMarks.isName_of_mem_walk hproper hn
    have hroot := PathMarks.isAbsolute_rooted (m := unix) (walk [] before)
    rw [if_neg hnil, realdirpath, hparent, hname, Option.getD_some]
    rw [if_neg (List.cons_ne_nil _ _), canonicalize_or tree habs, PathMarks.place, hdname,
      normalizePath_absolute (PathMarks.isAbsolute_push hroot _), PathMarks.place]
    congr 1
    cases m with
    | up =>
      rw [if_pos rfl, Option.getD_none, PathMarks.moves_push hroot rfl, PathMarks.moves_rooted hwalk,
        PathMarks.moves_nil, List.append_nil, walk_downs, settled, hmoves, List.getLast?_concat,
        if_pos rfl, List.dropLast_concat, List.nil_append]
    | down name =>
      have hfile : unix.IsName name :=
        PathMarks.isName_of_mem_moves (hmoves.symm ▸ List.mem_append_right _ List.mem_cons_self)
      rw [if_neg (by simp), Option.getD_some, PathMarks.moveText,
        PathMarks.moves_push hroot (PathMarks.isAbsolute_of_isName hfile),
        PathMarks.moves_rooted hwalk, PathMarks.moves_of_isName hfile, walk_append, walk_downs,
        settled, hmoves, List.getLast?_concat, if_neg (by simp), walk_append, List.nil_append]

/-- Places of text, as bytes. -/
theorem rooted_encode (names : List Text) : unix.rooted (names.map encode) = encode (pathOf names) := by
  rw [← encode_rooted, pathOf]
  split_ifs with hnil
  · rw [hnil]
    rfl
  · congr 1
    induction names with
    | nil => exact absurd rfl hnil
    | cons name names ih =>
      cases names with
      | nil => simp [Paths.render]
      | cons next names =>
        have hrest := ih (List.cons_ne_nil next names)
        rw [List.intercalate_cons_cons, Paths.render, List.flatMap_cons]
        rw [Paths.render] at hrest
        rw [← hrest]
        simp

theorem isName_encode {name : Text} (h : IsName name) : unix.IsName (encode name) where
  ne_nil hnil := h.ne_nil (encode_eq_nil.mp hnil)
  slash hmem := by
    obtain ⟨c, hc, hbyte⟩ := List.mem_flatMap.mp hmem
    exact h.slash (slash_of_byte hbyte ▸ hc)
  ne_dot hdot := h.ne_dot (encode_injective (hdot.trans (by decide)))
  ne_dots hdots := h.ne_dots (encode_injective (hdots.trans (by decide)))

theorem baseNames_proper (p : Process) : ∀ n ∈ p.baseNames, unix.IsName n := by
  intro n hn
  obtain ⟨name, hname, rfl⟩ := List.mem_map.mp hn
  exact isName_encode (p.base.proper name hname)

theorem baseNames_eq_nil : p.baseNames = [] ↔ p.base.names = [] := List.map_eq_nil_iff

/-- The base as the lookup has it: nothing where it is the root. -/
theorem normalizePath_envBase (p : Process) :
    normalizePath (realdirpath p.tree (encode p.envBase)) =
      if p.base.names = [] then [] else unix.rooted p.baseNames := by
  by_cases hnil : p.base.names = []
  · rw [Process.envBase, hnil, if_pos rfl]
    rfl
  · have hmoves := PathMarks.moves_rooted (baseNames_proper p)
    have hne : downs p.baseNames ≠ [] := downs_ne_nil (mt baseNames_eq_nil.mp hnil)
    rw [Process.envBase, render_eq_pathOf hnil, ← rooted_encode,
      normalizePath_realdirpath _ (PathMarks.isAbsolute_rooted _)]
    rw [show p.base.names.map encode = p.baseNames from rfl, hmoves, if_neg hne, if_neg hnil,
      settled_downs]

/-- The key of a path, by the three cases of the lookup. -/
def keyOf (base : List OsText) (path : List (Move OsText)) : OsText :=
  if path = [] then [] else if base = [] then unix.rooted (settled path) else unix.way base (settled path)

theorem route_proper (p : Process) (t : Text) : unix.Proper (p.route t) := PathMarks.proper_moves _

theorem byName_eq (hdiff : LexicalDiff p.diffPaths) (halways : t ≠ ALWAYS.toList) :
    p.byName t = lossy (keyOf p.baseNames (p.route t)) := by
  have habs : (if isAbsolute t then encode t else unix.push (unix.rooted p.cwd) (encode t)) =
      unix.push (unix.rooted p.cwd) (encode t) := by
    by_cases h : isAbsolute t = true
    · rw [if_pos h, PathMarks.push_absolute ((isAbsolute_encode t).trans h)]
    · rw [if_neg h]
  have hroot : unix.isAbsolute (unix.push (unix.rooted p.cwd) (encode t)) = true :=
    PathMarks.isAbsolute_push (PathMarks.isAbsolute_rooted p.cwd) (encode t)
  have hsettled : ∀ n ∈ settled (p.route t), unix.IsName n := fun n hn =>
    isName_of_mem_settled (route_proper p t) hn
  have hbaseNames := baseNames_proper p
  rw [Process.byName, if_neg halways, habs]
  dsimp only
  rw [normalizePath_realdirpath p.tree hroot, normalizePath_envBase, keyOf,
    show unix.moves (unix.push (unix.rooted p.cwd) (encode t)) = p.route t from rfl]
  congr 1
  by_cases hnil : p.route t = []
  · rw [if_pos hnil, if_pos hnil]
    by_cases hbase : p.base.names = []
    · rw [if_pos hbase, hdiff.empty]
      rfl
    · rw [if_neg hbase, hdiff.to_relative _ hbaseNames]
      rfl
  · rw [if_neg hnil, if_neg hnil]
    by_cases hbase : p.base.names = []
    · rw [if_pos hbase, if_pos (baseNames_eq_nil.mpr hbase), hdiff.from_relative _ hsettled]
      rfl
    · rw [if_neg hbase, if_neg (mt baseNames_eq_nil.mp hbase), hdiff.between _ _ hsettled hbaseNames]
      rfl

/-- Replacing changes no slash, so what is read for a way is no shorter and no longer. -/
theorem length_of_lossy_way {target' : List OsText} (h : ∀ n ∈ target, unix.IsName n)
    (h' : ∀ n ∈ target', unix.IsName n)
    (heq : encode (lossy (unix.way here target)) = unix.way here target') :
    (relative here target).length = (relative here target').length := by
  have hproper : unix.Proper (relative here target) := PathMarks.relative_proper h
  have hproper' : unix.Proper (relative here target') := PathMarks.relative_proper h'
  have hcount := (reads_lossy (unix.way here target)).count (x := SLASH) (by decide)
  rw [heq] at hcount
  have hslashes : (relative here target').length - 1 = (relative here target).length - 1 :=
    (PathMarks.count_written hproper').symm.trans (hcount.trans (PathMarks.count_written hproper))
  have hempty : relative here target = [] ↔ relative here target' = [] := by
    rw [← PathMarks.written_eq_nil hproper, ← PathMarks.written_eq_nil hproper',
      show unix.written (relative here target') = unix.way here target' from rfl, ← heq, encode_eq_nil]
    constructor
    · intro hnil
      rw [show unix.way here target = unix.written (relative here target) from rfl, hnil]
      rfl
    · intro hnil
      by_contra hne
      exact (reads_lossy _).ne_nil hne hnil
  rw [← List.length_eq_zero_iff, ← List.length_eq_zero_iff] at hempty
  omega

/-- A key with a move up left out is not the way to the place. -/
theorem lossy_settled_ne {path : List (Move OsText)} (h : unix.Proper path)
    (hup : path.getLast? = some .up) (hne : settled path ≠ walk [] path) :
    encode (lossy (unix.way here (settled path))) ≠ unix.way here (walk [] path) := by
  intro heq
  have hdrop := settled_up hup
  have hlength := length_of_lossy_way (fun n hn => isName_of_mem_settled h hn)
    (fun n hn => PathMarks.isName_of_mem_walk h hn) heq
  have hpos : (settled path).length ≠ 0 := by
    intro hzero
    have hnil := List.length_eq_zero_iff.mp hzero
    apply hne
    rw [← hdrop, hnil]
    rfl
  have hshorter : (walk [] path).length = (settled path).length - 1 := by
    rw [← hdrop, List.length_dropLast]
  have hmod := relative_length_mod here (settled path)
  have hmod' := relative_length_mod here (walk [] path)
  omega

/-- A good spelling is looked up under the way to its place. -/
theorem Spelled.byName (hdiff : LexicalDiff p.diffPaths) (h : Spelled p t) :
    p.byName t = lossy (unix.way p.baseNames (p.placeOf t)) := by
  obtain ⟨halways, hcase, -⟩ := h
  rw [byName_eq hdiff halways, keyOf]
  by_cases hbase : p.base.names = []
  · rw [if_pos hbase] at hcase
    rw [if_pos hcase.1, Process.placeOf, hcase.1, baseNames_eq_nil.mpr hbase]
    rfl
  · rw [if_neg hbase] at hcase
    rw [if_neg (mt baseNames_eq_nil.mp hbase), settled_eq hcase.1]
    by_cases hnil : p.route t = []
    · refine absurd ⟨?_, ?_⟩ hcase.2
      · rw [Process.placeOf, hnil]
        exact List.nil_prefix
      · rw [Process.placeOf, hnil]
        exact Ne.symm (mt baseNames_eq_nil.mp hbase)
    · rw [if_neg hnil]
      rfl

/-- What is joined to the base is read as a path from there. -/
theorem route_envBase (hbase : p.base.names ≠ []) {key : Text} (h : ∀ n ∈ target, unix.IsName n)
    (hkey : encode key = unix.way p.baseNames target) :
    p.route (push p.envBase key) = downs p.baseNames ++ relative p.baseNames target := by
  have hrelative : unix.isAbsolute (unix.way p.baseNames target) = false := PathMarks.isAbsolute_way h
  have habs := PathMarks.isAbsolute_rooted (m := unix) p.baseNames
  rw [Process.route, ← push_encode, Process.envBase, render_eq_pathOf hbase, ← rooted_encode, hkey,
    show p.base.names.map encode = p.baseNames from rfl,
    PathMarks.push_absolute (PathMarks.isAbsolute_push habs _),
    PathMarks.moves_push habs hrelative, PathMarks.moves_rooted (baseNames_proper p),
    PathMarks.moves_way h]

theorem placeOf_envBase (hbase : p.base.names ≠ []) {key : Text} (h : ∀ n ∈ target, unix.IsName n)
    (hkey : encode key = unix.way p.baseNames target) : p.placeOf (push p.envBase key) = target := by
  rw [Process.placeOf, route_envBase hbase h hkey, walk_append, walk_downs, List.nil_append,
    walk_relative]

theorem envBase_ne_always (hbase : p.base.names ≠ []) {key : Text}
    (h : ∀ n ∈ target, unix.IsName n) (hkey : encode key = unix.way p.baseNames target) :
    push p.envBase key ≠ ALWAYS.toList := by
  apply push_render_ne_always hbase
  rw [← isAbsolute_encode, hkey, PathMarks.isAbsolute_way h]

theorem route_nil (p : Process) : p.route [] = downs p.cwd := by
  rw [Process.route, show encode [] = [] from rfl,
    PathMarks.moves_push (PathMarks.isAbsolute_rooted _) rfl, PathMarks.moves_rooted p.cwd_proper,
    PathMarks.moves_nil, List.append_nil]

/-- A key from the root is absolute. -/
theorem lossy_rooted (names : List OsText) : ∃ rest, lossy (unix.rooted names) = '/' :: rest :=
  ⟨_, lossy_cons '/' ([unix.slash].intercalate names)⟩

theorem placeOf_proper (p : Process) (t : Text) : ∀ n ∈ p.placeOf t, unix.IsName n :=
  fun _ hn => PathMarks.isName_of_mem_walk (route_proper p t) hn

namespace Keyed

theorem isAbsolute_byName (h : Keyed p t) : isAbsolute (p.byName t) = false := by
  rw [← isAbsolute_encode, h.name, PathMarks.isAbsolute_way (placeOf_proper p t)]

theorem ne_always (h : Keyed p t) : t ≠ ALWAYS.toList := by
  rintro rfl
  cases h.isAbsolute_byName

section
variable (hdiff : LexicalDiff p.diffPaths) (h : Keyed p t)
include hdiff h

/-- With the root as base, everything but the root itself has an absolute key. -/
theorem route_eq_nil (hbase : p.base.names = []) : p.route t = [] := by
  by_contra hne
  have hkey := byName_eq hdiff h.ne_always
  have hrelative := h.isAbsolute_byName
  rw [keyOf, if_neg hne, if_pos (baseNames_eq_nil.mpr hbase)] at hkey
  obtain ⟨rest, hrest⟩ := lossy_rooted (settled (p.route t))
  rw [hkey, hrest] at hrelative
  cases hrelative

/-- The root's own key is empty, and read from another directory it is that directory. -/
theorem cwd_eq_nil (hbase : p.base.names = []) : p.cwd = [] := by
  by_contra hcwd
  have hempty : p.byName t = [] := by
    rw [byName_eq hdiff h.ne_always, keyOf, if_pos (h.route_eq_nil hdiff hbase)]
    rfl
  have hjoin : push p.envBase (p.byName t) = [] := by
    rw [hempty, Process.envBase, hbase]
    rfl
  have hnil : ([] : Text) ≠ ALWAYS.toList := by decide
  obtain ⟨rest, hrest⟩ := lossy_rooted (settled (downs p.cwd))
  have hagain := h.again
  rw [hjoin, hempty, byName_eq hdiff hnil, route_nil, keyOf, if_neg (downs_ne_nil hcwd),
    if_pos (baseNames_eq_nil.mpr hbase), hrest] at hagain
  cases hagain

/-- What the lookup has settled on has the place's own way from the base. -/
theorem settled_name (hbase : p.baseNames ≠ []) :
    encode (lossy (unix.way p.baseNames (settled (p.route t)))) =
      unix.way p.baseNames (p.placeOf t) := by
  have hkey := byName_eq hdiff h.ne_always
  have hname := h.name
  have hne : p.route t ≠ [] := by
    intro hnil
    rw [hkey, keyOf, if_pos hnil] at hname
    have hhere := (PathMarks.written_eq_nil (PathMarks.relative_proper (placeOf_proper p t))).mp hname.symm
    rw [relative_eq_nil, Process.placeOf, hnil] at hhere
    exact hbase hhere
  rwa [hkey, keyOf, if_neg hne, if_neg hbase] at hname

/-- The way to a directory above the base ends with `..`, where the second lookup goes wrong. -/
theorem not_above (hbase : p.base.names ≠ []) :
    ¬ (p.placeOf t <+: p.baseNames ∧ p.placeOf t ≠ p.baseNames) := by
  rintro ⟨habove, hother⟩
  have hplace := placeOf_proper p t
  have hbaseNames := mt baseNames_eq_nil.mp hbase
  have hback := route_envBase hbase hplace h.name
  have hthere := placeOf_envBase hbase hplace h.name
  have hup : (p.route (push p.envBase (p.byName t))).getLast? = some .up := by
    rw [hback, List.getLast?_append, (relative_getLast? _ _).mpr ⟨habove, hother⟩]
    rfl
  have hne : p.route (push p.envBase (p.byName t)) ≠ [] := by
    rw [hback]
    exact List.append_ne_nil_of_left_ne_nil (downs_ne_nil hbaseNames) _
  have hsettled : settled (p.route (push p.envBase (p.byName t))) ≠
      p.placeOf (push p.envBase (p.byName t)) := by
    rw [hthere, hback]
    exact not_settled_above habove hother
  apply @lossy_settled_ne p.baseNames _ (route_proper p _) hup hsettled
  have hsecond := byName_eq hdiff (envBase_ne_always hbase hplace h.name)
  rw [keyOf, if_neg hne, if_neg hbaseNames, h.again] at hsecond
  rw [← hsecond, h.name, show walk [] (p.route (push p.envBase (p.byName t))) = _ from hthere]

theorem not_up (hbase : p.base.names ≠ []) : (p.route t).getLast? ≠ some .up := by
  intro hup
  have hbaseNames := mt baseNames_eq_nil.mp hbase
  have hmade : settled (p.route t) = p.placeOf t := by
    by_contra hother
    exact lossy_settled_ne (route_proper p t) hup hother (h.settled_name hdiff hbaseNames)
  -- the place is its own parent, so it is the root, which is above the base
  have hnil : p.placeOf t = [] := by
    have hlength := congrArg List.length (settled_up hup)
    rw [hmade, List.length_dropLast, Process.placeOf] at hlength
    apply List.length_eq_zero_iff.mp
    rw [Process.placeOf]
    omega
  apply h.not_above hdiff hbase
  rw [hnil]
  exact ⟨List.nil_prefix, Ne.symm hbaseNames⟩

theorem spelled : Spelled p t := by
  refine ⟨h.ne_always, ?_, isUtf8_iff.mpr ⟨p.byName t, h.name⟩⟩
  by_cases hbase : p.base.names = []
  · rw [if_pos hbase]
    exact ⟨h.route_eq_nil hdiff hbase, h.cwd_eq_nil hdiff hbase⟩
  · rw [if_neg hbase]
    exact ⟨h.not_up hdiff hbase, h.not_above hdiff hbase⟩

end

end Keyed

theorem Spelled.keyed (hdiff : LexicalDiff p.diffPaths) (h : Spelled p t) : Keyed p t := by
  have hplace := placeOf_proper p t
  have hname := h.byName hdiff
  have hway : encode (p.byName t) = unix.way p.baseNames (p.placeOf t) := by
    rw [hname]
    exact h.2.2
  refine ⟨hway, ?_⟩
  by_cases hbase : p.base.names = []
  · obtain ⟨-, hcase, -⟩ := h
    rw [if_pos hbase] at hcase
    have hnil : ([] : Text) ≠ ALWAYS.toList := by decide
    have hkey : p.byName t = [] := by
      rw [hname, Process.placeOf, hcase.1, baseNames_eq_nil.mpr hbase]
      rfl
    have hjoin : push p.envBase [] = [] := by
      rw [Process.envBase, hbase]
      rfl
    rw [hkey, hjoin, byName_eq hdiff hnil, route_nil, hcase.2]
    rfl
  · have hcase := h.2.1
    rw [if_neg hbase] at hcase
    have hthere := placeOf_envBase hbase hplace hway
    have hagain : Spelled p (push p.envBase (p.byName t)) := by
      refine ⟨envBase_ne_always hbase hplace hway, ?_, ?_⟩
      · rw [if_neg hbase, hthere, route_envBase hbase hplace hway]
        exact ⟨getLast?_back hcase.2, hcase.2⟩
      · rw [hthere]
        exact h.2.2
    rw [hagain.byName hdiff, hthere, ← hname]

/-- The lookup is right for just these spellings, and two of them have one row when they have one
place. -/
theorem keyed_iff (hdiff : LexicalDiff p.diffPaths) :
    (Keyed p t ↔ Spelled p t) ∧
      ∀ t', Spelled p t → Spelled p t' → (p.byName t = p.byName t' ↔ p.placeOf t = p.placeOf t') := by
  refine ⟨⟨fun h => h.spelled hdiff, fun h => h.keyed hdiff⟩, fun t' h h' => ?_⟩
  have hname := (h.keyed hdiff).name
  have hname' := (h'.keyed hdiff).name
  constructor
  · intro heq
    rw [heq, hname'] at hname
    exact (PathMarks.way_injective (placeOf_proper p t') (placeOf_proper p t) hname).symm
  · intro heq
    rw [h.byName hdiff, h'.byName hdiff, heq]

theorem move_encode (part : Text) : unix.move (encode part) = (Paths.move part).map (Move.map encode) := by
  have hdot : encode part = [unix.dot] ↔ part = ['.'] := encode_eq_iff ['.']
  have hdots : encode part = [unix.dot, unix.dot] ↔ part = ['.', '.'] := encode_eq_iff ['.', '.']
  unfold PathMarks.move Paths.move
  simp only [hdot, hdots, encode_eq_nil]
  split_ifs <;> rfl

theorem moves_encode (t : Text) : unix.moves (encode t) = (moves t).map (Move.map encode) := by
  have hsplit : (encode t).splitOn SLASH = (t.splitOn '/').map encode := @splitOn_encode '/' (by decide) t
  have hmove : unix.move ∘ encode = fun part => (Paths.move part).map (Move.map encode) :=
    funext move_encode
  rw [PathMarks.moves, show unix.slash = SLASH from rfl, hsplit, List.filterMap_map, hmove, moves,
    List.map_filterMap]

theorem settled_encode (path : List (Move Text)) :
    settled (path.map (Move.map encode)) = (settled path).map encode := by
  have hup : (path.map (Move.map encode)).getLast? = some .up ↔ path.getLast? = some .up := by
    rw [List.getLast?_map]
    cases path.getLast? with
    | none => simp
    | some x => cases x <;> simp [Move.map]
  have hwalk := walk_map encode [] path
  have hwalk' := walk_map encode [] path.dropLast
  simp only [List.map_nil] at hwalk hwalk'
  rw [settled, settled]
  simp only [hup]
  split_ifs
  · rw [← List.map_dropLast, hwalk']
  · exact hwalk

theorem way_encode (names target : List Text) :
    unix.way (names.map encode) (target.map encode) = encode (way names target) := by
  have htext : ∀ x : Move Text, unix.moveText (x.map encode) = encode (moveText x) := by
    intro x
    cases x with
    | up => decide
    | down name => rfl
  rw [PathMarks.way, PathMarks.written, relative_map encode encode_injective, List.map_map, way,
    encode_intercalate, List.map_map]
  congr 1
  apply List.map_congr_left
  intro x _
  exact htext x

/-- Where all directories are text, so is the lookup. -/
theorem byName_text {q : Paths.Process} (hbase : p.base = q.base) (hcwd : p.cwd = q.cwd.names.map encode)
    (hdiff : LexicalDiff p.diffPaths) (hdiff' : Paths.LexicalDiff q.diffPaths) (t : Text) :
    p.byName t = q.byName t := by
  by_cases halways : t = ALWAYS.toList
  · rw [Process.byName, Paths.Process.byName, if_pos halways, if_pos halways]
  · have hroute : p.route t = (moves (push q.cwd.path t)).map (Move.map encode) := by
      rw [Process.route, hcwd, rooted_encode, push_encode, moves_encode]
      rfl
    rw [byName_eq hdiff halways, Paths.byName_eq hdiff' halways, hroute, keyOf, Paths.keyOf,
      settled_encode, Process.baseNames, hbase]
    simp only [List.map_eq_nil_iff]
    split_ifs
    · rfl
    · rw [rooted_encode, lossy_encode]
    · rw [way_encode, lossy_encode]

/-- The difference of two absolute paths, or of nothing. -/
def lexicalDiff (path base : OsText) : Option OsText :=
  if unix.isAbsolute path = unix.isAbsolute base then some (unix.way (unix.place base) (unix.place path))
  else if unix.isAbsolute path then some path else none

theorem lexicalDiff_spec : LexicalDiff lexicalDiff where
  between a b ha hb := by
    rw [lexicalDiff, PathMarks.isAbsolute_rooted, PathMarks.isAbsolute_rooted, if_pos rfl,
      PathMarks.place_rooted ha, PathMarks.place_rooted hb]
  from_relative a ha := by
    have hnil : unix.isAbsolute [] = false := rfl
    rw [lexicalDiff, PathMarks.isAbsolute_rooted, hnil, if_neg Bool.noConfusion, if_pos rfl]
  to_relative b hb := by
    have hnil : unix.isAbsolute [] = false := rfl
    rw [lexicalDiff, PathMarks.isAbsolute_rooted, hnil, if_neg Bool.noConfusion,
      if_neg Bool.noConfusion]
  empty := rfl

instance (name : OsText) : Decidable (unix.IsName name) :=
  decidable_of_iff (name ≠ [] ∧ unix.slash ∉ name ∧ name ≠ [unix.dot] ∧ name ≠ [unix.dot, unix.dot])
    ⟨fun h => ⟨h.1, h.2.1, h.2.2.1, h.2.2.2⟩, fun h => ⟨h.ne_nil, h.slash, h.ne_dot, h.ne_dots⟩⟩

theorem below_proper : ∀ n ∈ ["b".toList, "c".toList].map encode, unix.IsName n := by decide

/-- A process in `/b/c` with the base `/b`, and nothing else on the disk. -/
def processBelow : Process where
  tree :=
    { present := fun here => here.isPrefixOf (["b".toList, "c".toList].map encode)
      directory := fun here => here.isPrefixOf (["b".toList, "c".toList].map encode) }
  base := Paths.processBelow.base
  cwd := ["b".toList, "c".toList].map encode
  cwd_proper := below_proper
  diffPaths := lexicalDiff

theorem keyed_iff_below :
    Keyed processBelow "..//./x/../y/".toList ∧
      processBelow.byName "..//./x/../y/".toList = processBelow.byName "/b/y".toList := by
  have hspelled : Spelled processBelow "..//./x/../y/".toList := by decide +kernel
  have hspelled' : Spelled processBelow "/b/y".toList := by decide +kernel
  obtain ⟨hkeyed, hsame⟩ := @keyed_iff "..//./x/../y/".toList processBelow lexicalDiff_spec
  exact ⟨hkeyed.mpr hspelled, (hsame _ hspelled hspelled').mpr (by decide +kernel)⟩

/-- In `/b/c`, `x/..` has the row of `x`. -/
theorem not_keyed :
    ¬ ∀ (p : Process) (t : Text), LexicalDiff p.diffPaths → t ≠ ALWAYS.toList → Keyed p t := by
  intro h
  have hkeyed := h processBelow "x/..".toList lexicalDiff_spec (by decide)
  exact absurd hkeyed.name (by decide +kernel)

end Redo.Paths.Os
