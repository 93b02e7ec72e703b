import Mathlib.Data.List.Infix
import Redo.Paths.Names

/-! # The search for a `.do` file

The candidates are the `.do` file of the target, and default ones in its directory and in all
directories above it, the most special first. They are made from pieces of texts; what they mean
are places.
-/
namespace Redo.Paths
open Library Remote Cache

structure DoFile where
  dodir : Text
  dofile : Text
  basedir : Text
  basename : Text
  ext : Text
deriving DecidableEq, Repr

def defaultDoFiles (filename : Text) : List (Text × Text × Text) :=
  let parts := filename.splitOn '.'
  (List.range' 1 parts.length).map fun i =>
    let basename := ['.'].intercalate (parts.take i)
    let ext := if i < parts.length then '.' :: ['.'].intercalate (parts.drop i) else []
    ("default".toList ++ ext ++ ".do".toList, basename, ext)

def rsplitOnce (t : Text) : Option (Text × Text) :=
  let parts := t.splitOn '/'
  if 1 < parts.length then some (['/'].intercalate parts.dropLast, parts.getLastD []) else none

def normalizeJoinStep (parts : List Text) : Component → List Text
  | .rootDir => [[]]
  | .curDir => parts
  | .parentDir => if parts.length > 1 then parts.dropLast else parts
  | .normal name => parts ++ [name]

def normalizeJoin (base rel : Text) : Text :=
  match (components (join base rel)).foldl normalizeJoinStep [] with
  | [] => ['/']
  | [] :: rest => '/' :: ['/'].intercalate rest
  | parts => ['/'].intercalate parts

def renderComponents : List Component → Text
  | .rootDir :: rest => '/' :: ['/'].intercalate (rest.map Component.text)
  | cs => ['/'].intercalate (cs.map Component.text)

/-- `Path::parent`. -/
def parent (path : Text) : Option Text :=
  match (components path).getLast? with
  | none => none
  | some .rootDir => none
  | some _ => some (renderComponents (components path).dropLast)

/-- `Path::file_name`. -/
def fileName (path : Text) : Option Text :=
  match (components path).getLast? with
  | some (.normal name) => some name
  | _ => none

/-- `<dir>/<filename>.do`. -/
def ownDoFile (targetRel base : Text) : DoFile :=
  let p := (rsplitOnce targetRel).getD ([], targetRel)
  { dodir := join base p.1, dofile := p.2 ++ ".do".toList, basedir := [], basename := p.2, ext := [] }

def orRoot (basedirStr : Text) : Text := if basedirStr = [] then ['/'] else basedirStr

def baseJoin (subdir basename : Text) : Text :=
  if subdir = [] then basename else subdir ++ '/' :: basename

/-- The default candidates in the directory made of the first `i` pieces. -/
def defaultsAt (filename : Text) (dirbits : List Text) (i : ℕ) : List DoFile :=
  let basedir := orRoot (['/'].intercalate (dirbits.take i))
  let subdir := ['/'].intercalate (dirbits.drop i)
  (defaultDoFiles filename).map fun p =>
    { dodir := basedir, dofile := p.1, basedir := subdir, basename := baseJoin subdir p.2.1, ext := p.2.2 }

def possibleDoFiles (targetRel base : Text) : List DoFile :=
  let t := normalizeJoin base targetRel
  let dirname := (parent t).getD base
  let filename := (fileName t).getD targetRel
  let dirbits := dirname.splitOn '/'
  ownDoFile targetRel base ::
    (List.range' 1 dirbits.length).reverse.flatMap (defaultsAt filename dirbits)

/-- A candidate, with the place of its directory. -/
structure Candidate where
  dir : List Text
  dofile : Text
  basedir : Text
  basename : Text
  ext : Text
deriving DecidableEq, Repr

def DoFile.candidate (c : DoFile) : Candidate :=
  { dir := place c.dodir, dofile := c.dofile, basedir := c.basedir, basename := c.basename, ext := c.ext }

/-- A name before and from each of its dots, from left to right, and at last the whole name. -/
def dotSplits : Text → List (Text × Text)
  | [] => [([], [])]
  | c :: rest =>
    (if c = '.' then [([], c :: rest)] else []) ++ (dotSplits rest).map fun p => (c :: p.1, p.2)

/-- What the search is for: the candidates for the file in the directory. -/
def candidates (dir : List Text) (file : Text) : List Candidate :=
  { dir, dofile := file ++ ".do".toList, basedir := [], basename := file, ext := [] } ::
    dir.inits.reverse.flatMap fun d =>
      (dotSplits file).map fun p =>
        { dir := d, dofile := "default".toList ++ p.2 ++ ".do".toList
          basedir := ['/'].intercalate (dir.drop d.length)
          basename := ['/'].intercalate (dir.drop d.length ++ [p.1]), ext := p.2 }

/-- The part behind the last slash. -/
def filePart (t : Text) : Text := (t.splitOn '/').getLastD []

/-- The target under the base is searched for as it should be. -/
structure Enumerated (base t : Text) (dir : List Text) (file : Text) : Prop where
  target : place (join base t) = dir ++ [file]
  candidates : (possibleDoFiles t base).map DoFile.candidate = candidates dir file
  joins : ∀ c ∈ possibleDoFiles t base, place (join c.dodir (c.basename ++ c.ext)) = dir ++ [file]

variable {base t : Text} {dir names : List Text} {file : Text}

/-- The pieces of a text before its last slash, and the one behind it. -/
theorem splitOn_filePart (t : Text) : ∃ front, t.splitOn '/' = front ++ [filePart t] ∧
    rsplitOnce t = if front = [] then none else some (['/'].intercalate front, filePart t) := by
  have hne : t.splitOn '/' ≠ [] := List.splitOn_ne_nil _ _
  refine ⟨(t.splitOn '/').dropLast, ?_, ?_⟩
  · rw [filePart, List.getLastD_eq_getLast?, List.getLast?_eq_some_getLast hne, Option.getD_some,
      List.dropLast_append_getLast]
  · rw [rsplitOnce]
    by_cases hlength : 1 < (t.splitOn '/').length
    · have hfront : (t.splitOn '/').dropLast ≠ [] := by
        rw [← List.length_pos_iff, List.length_dropLast]
        omega
      rw [if_pos hlength, if_neg hfront]
      rfl
    · have hfront : (t.splitOn '/').dropLast = [] := by
        rw [← List.length_eq_zero_iff, List.length_dropLast]
        omega
      rw [if_neg hlength, if_pos hfront]

theorem intercalate_append_singleton {front : List Text} (h : front ≠ []) (a : Text) :
    ['/'].intercalate (front ++ [a]) = ['/'].intercalate front ++ '/' :: a := by
  induction front with
  | nil => exact absurd rfl h
  | cons b front ih =>
    cases front with
    | nil => simp
    | cons c front =>
      have hrest := ih (List.cons_ne_nil c front)
      rw [List.cons_append, List.cons_append, List.intercalate_cons_cons, ← List.cons_append, hrest,
        List.intercalate_cons_cons]
      simp

theorem ownDoFile_eq (t base : Text) :
    ∃ dir, ownDoFile t base = ⟨join base dir, filePart t ++ ".do".toList, [], filePart t, []⟩ ∧
      (dir = [] ∧ t = filePart t ∨ t = dir ++ '/' :: filePart t) := by
  obtain ⟨front, hparts, hsplit⟩ := splitOn_filePart t
  have ht : ['/'].intercalate (t.splitOn '/') = t := List.intercalate_splitOn '/'
  rw [hparts] at ht
  by_cases hfront : front = []
  · rw [if_pos hfront] at hsplit
    subst hfront
    rw [List.nil_append, List.intercalate_singleton] at ht
    refine ⟨[], ?_, Or.inl ⟨rfl, ht.symm⟩⟩
    rw [ownDoFile, hsplit, Option.getD_none, ht]
  · rw [if_neg hfront] at hsplit
    refine ⟨['/'].intercalate front, ?_, Or.inr ?_⟩
    · rw [ownDoFile, hsplit, Option.getD_some]
    · rw [← intercalate_append_singleton hfront, ht]

theorem isAbsolute_intercalate (h : ∀ name ∈ names, IsName name) :
    isAbsolute (['/'].intercalate names) = false := by
  cases names with
  | nil => rfl
  | cons a names =>
    have ha := h a List.mem_cons_self
    cases a with
    | nil => exact absurd rfl ha.ne_nil
    | cons c a =>
      have hc : c ≠ '/' := fun he => ha.slash (he ▸ List.mem_cons_self)
      cases names <;> simp [isAbsolute, hc]

theorem isAbsolute_of_isName (h : IsName file) : isAbsolute file = false := by
  have hnames : ∀ name ∈ [file], IsName name := fun name hname => List.mem_singleton.mp hname ▸ h
  have hrel := isAbsolute_intercalate hnames
  rwa [List.intercalate_singleton] at hrel

theorem place_join_of_isName (h : IsName file) (dir : Text) :
    place (join dir file) = place dir ++ [file] := by
  rw [place, moves_join_of_relative (isAbsolute_of_isName h), moves_of_isName h, walk_append]
  rfl

/-- The directory of the first candidate, below the root. -/
theorem place_ownDoFile (hname : IsName (filePart t)) (hroot : t ≠ '/' :: filePart t) :
    place (join base t) = place (ownDoFile t base).dodir ++ [filePart t] := by
  obtain ⟨d, hown, ht⟩ := ownDoFile_eq t base
  have hmoves : moves (join base t) = moves (join base d) ++ [.down (filePart t)] := by
    rcases ht with ⟨rfl, ht⟩ | ht
    · have hrel : isAbsolute t = false := by
        rw [ht]
        exact isAbsolute_of_isName hname
      have hmove : moves t = [.down (filePart t)] := by
        conv_lhs => rw [ht]
        exact moves_of_isName hname
      rw [moves_join_of_relative hrel, moves_join_of_relative rfl, moves_nil, List.append_nil, hmove]
    · have hsame : isAbsolute t = isAbsolute d := by
        cases d with
        | nil => exact absurd ht hroot
        | cons c l =>
          rw [ht]
          rfl
      have hsplit : moves t = moves d ++ [.down (filePart t)] := by
        conv_lhs => rw [ht]
        rw [moves_join, moves_of_isName hname]
      cases habs : isAbsolute t with
      | true =>
        rw [moves_join_of_absolute habs, moves_join_of_absolute (hsame ▸ habs), hsplit]
      | false =>
        rw [moves_join_of_relative habs, moves_join_of_relative (hsame ▸ habs), hsplit,
          List.append_assoc]
  rw [hown, place, hmoves, walk_append]
  rfl

theorem foldl_normalizeJoinStep (here : List Text) (path : List (Move Text)) :
    (path.map asComponent).foldl normalizeJoinStep ([] :: here) = [] :: walk here path := by
  induction path generalizing here with
  | nil => rfl
  | cons m path ih =>
    cases m with
    | up =>
      have hstep : normalizeJoinStep ([] :: here) .parentDir = [] :: here.dropLast := by
        cases here <;> simp [normalizeJoinStep]
      rw [List.map_cons, asComponent, List.foldl_cons, hstep]
      exact ih here.dropLast
    | down name => exact ih (here ++ [name])

theorem normalizeJoin_absolute (h : isAbsolute base = true) (t : Text) :
    normalizeJoin base t = '/' :: ['/'].intercalate (place (join base t)) := by
  rw [normalizeJoin, components_absolute (isAbsolute_join h t), List.foldl_cons]
  have hfold := foldl_normalizeJoinStep [] (moves (join base t))
  have hstart : normalizeJoinStep [] .rootDir = [[]] := rfl
  rw [hstart, hfold]
  rfl

theorem components_slash_intercalate (h : ∀ name ∈ names, IsName name) :
    components ('/' :: ['/'].intercalate names) = .rootDir :: names.map .normal := by
  rw [components_absolute rfl, moves_cons_slash, moves_intercalate h, downs, List.map_map]
  rfl

theorem renderComponents_root (names : List Text) :
    renderComponents (.rootDir :: names.map .normal) = '/' :: ['/'].intercalate names := by
  have htext : names.map (Component.text ∘ .normal) = names := List.map_id names
  rw [renderComponents, List.map_map, htext]

theorem parent_slash_intercalate (h : ∀ name ∈ dir ++ [file], IsName name) :
    parent ('/' :: ['/'].intercalate (dir ++ [file])) = some ('/' :: ['/'].intercalate dir) := by
  have hlast : (Component.rootDir :: (dir ++ [file]).map .normal).getLast? = some (.normal file) := by
    rw [List.map_append, ← List.cons_append]
    exact List.getLast?_concat
  have hrest : (Component.rootDir :: (dir ++ [file]).map .normal).dropLast =
      .rootDir :: dir.map .normal := by
    rw [List.map_append, ← List.cons_append]
    exact List.dropLast_concat
  rw [parent, components_slash_intercalate h, hlast, hrest, renderComponents_root]

theorem fileName_slash_intercalate (h : ∀ name ∈ dir ++ [file], IsName name) :
    fileName ('/' :: ['/'].intercalate (dir ++ [file])) = some file := by
  have hlast : (Component.rootDir :: (dir ++ [file]).map .normal).getLast? = some (.normal file) := by
    rw [List.map_append, ← List.cons_append]
    exact List.getLast?_concat
  rw [fileName, components_slash_intercalate h, hlast]

/-- A name up to its first dot, and what is made of the rest. -/
theorem dotSplits_append {a : Text} (h : '.' ∉ a) (l : Text) :
    dotSplits (a ++ '.' :: l) =
      (a, '.' :: l) :: (dotSplits l).map fun p => (a ++ '.' :: p.1, p.2) := by
  induction a with
  | nil => rfl
  | cons c a ih =>
    have hc : c ≠ '.' := fun he => h (he ▸ List.mem_cons_self)
    have hrest := ih fun hmem => h (List.mem_cons_of_mem c hmem)
    rw [List.cons_append, dotSplits, if_neg hc, hrest, List.nil_append, List.map_cons, List.map_map]
    rfl

theorem dotSplits_of_not_mem {a : Text} (h : '.' ∉ a) : dotSplits a = [(a, [])] := by
  induction a with
  | nil => rfl
  | cons c a ih =>
    have hc : c ≠ '.' := fun he => h (he ▸ List.mem_cons_self)
    rw [dotSplits, if_neg hc, ih fun hmem => h (List.mem_cons_of_mem c hmem)]
    rfl

theorem append_of_mem_dotSplits {f : Text} {p : Text × Text} (h : p ∈ dotSplits f) :
    p.1 ++ p.2 = f := by
  induction f generalizing p with
  | nil =>
    rw [List.mem_singleton.mp h]
    rfl
  | cons c f ih =>
    rw [dotSplits, List.mem_append] at h
    rcases h with h | h
    · by_cases hc : c = '.'
      · rw [if_pos hc] at h
        rw [List.mem_singleton.mp h]
        rfl
      · rw [if_neg hc] at h
        cases h
    · obtain ⟨q, hq, rfl⟩ := List.mem_map.mp h
      exact congrArg (c :: ·) (ih hq)

theorem dotSplits_ne_nil (f : Text) : dotSplits f ≠ [] := by
  induction f with
  | nil => exact List.cons_ne_nil _ _
  | cons c f ih =>
    rw [dotSplits]
    exact List.append_ne_nil_of_right_ne_nil _ (mt List.map_eq_nil_iff.mp ih)

/-- The cut of the pieces between dots behind the first `i`. -/
def cutAt (parts : List Text) (i : ℕ) : Text × Text :=
  (['.'].intercalate (parts.take i),
    if i < parts.length then '.' :: ['.'].intercalate (parts.drop i) else [])

theorem cutAt_all {parts : List Text} (hne : parts ≠ []) (hdot : ∀ part ∈ parts, '.' ∉ part) :
    (List.range' 1 parts.length).map (cutAt parts) = dotSplits (['.'].intercalate parts) := by
  induction parts with
  | nil => exact absurd rfl hne
  | cons a parts ih =>
    have ha : '.' ∉ a := hdot a List.mem_cons_self
    cases parts with
    | nil =>
      have hcut : cutAt [a] 1 = (a, []) := by simp [cutAt]
      rw [List.intercalate_singleton, dotSplits_of_not_mem ha]
      exact congrArg (fun c => [c]) hcut
    | cons b parts =>
      have hrest := ih (List.cons_ne_nil b parts) fun part hpart => hdot part (List.mem_cons_of_mem a hpart)
      rw [List.intercalate_cons_cons, List.append_assoc, List.singleton_append, dotSplits_append ha,
        ← hrest, List.length_cons, List.range'_succ, List.map_cons, List.map_map, List.range'_succ_left,
        List.map_map]
      refine congrArg₂ List.cons (by simp [cutAt]) (List.map_congr_left fun i hi => ?_)
      obtain ⟨k, rfl⟩ : ∃ k, i = k + 1 := Nat.exists_eq_add_of_le' (List.mem_range'_1.mp hi).1
      have hless : k + 1 + 1 < (a :: b :: parts).length ↔ k + 1 < (b :: parts).length :=
        Nat.succ_lt_succ_iff
      simp only [Function.comp, cutAt, hless, List.take_succ_cons, List.drop_succ_cons,
        List.intercalate_cons_cons, List.append_assoc, List.singleton_append]

theorem defaultDoFiles_eq (f : Text) :
    defaultDoFiles f =
      (dotSplits f).map fun p => ("default".toList ++ p.2 ++ ".do".toList, p.1, p.2) := by
  have hparts : ['.'].intercalate (f.splitOn '.') = f := List.intercalate_splitOn '.'
  have hcuts := cutAt_all (List.splitOn_ne_nil '.' f) fun part hpart => not_mem_of_mem_splitOn hpart
  rw [hparts] at hcuts
  rw [← hcuts, List.map_map]
  rfl

theorem intercalate_eq_nil (h : ∀ name ∈ names, IsName name) :
    ['/'].intercalate names = [] ↔ names = [] := by
  constructor
  · intro hnil
    have hmoves := moves_intercalate h
    rw [hnil, moves_nil] at hmoves
    exact List.map_eq_nil_iff.mp hmoves.symm
  · rintro rfl
    rfl

/-- The pieces of the directory are nothing and its names; of the root they are nothing twice. -/
theorem splitOn_slash_intercalate (h : ∀ name ∈ names, IsName name) :
    ('/' :: ['/'].intercalate names).splitOn '/' = [] :: if names = [] then [[]] else names := by
  have hsplit : ('/' :: ['/'].intercalate names).splitOn '/' =
      [] :: (['/'].intercalate names).splitOn '/' :=
    List.splitOn_append_cons_self [] _
  rw [hsplit]
  by_cases hnil : names = []
  · rw [if_pos hnil, hnil]
    rfl
  · rw [if_neg hnil, List.splitOn_intercalate _ (fun name hname => (h name hname).slash) hnil]

/-- The default candidates of the file in the directory above whose names are left out. -/
def defaultCandidates (dir : List Text) (file : Text) (d : List Text) : List Candidate :=
  (dotSplits file).map fun p =>
    { dir := d, dofile := "default".toList ++ p.2 ++ ".do".toList
      basedir := ['/'].intercalate (dir.drop d.length)
      basename := ['/'].intercalate (dir.drop d.length ++ [p.1]), ext := p.2 }

theorem moves_basedir (h : ∀ name ∈ names, IsName name) :
    moves (orRoot (['/'].intercalate ([] :: names))) = downs names := by
  cases names with
  | nil => rfl
  | cons a names =>
    rw [List.intercalate_cons_cons, orRoot, if_neg (by simp)]
    exact (moves_cons_slash _).trans (moves_intercalate h)

theorem baseJoin_intercalate (h : ∀ name ∈ names, IsName name) (a : Text) :
    baseJoin (['/'].intercalate names) a = ['/'].intercalate (names ++ [a]) := by
  rw [baseJoin]
  by_cases hnil : names = []
  · rw [if_pos ((intercalate_eq_nil h).mpr hnil), hnil, List.nil_append, List.intercalate_singleton]
  · rw [if_neg (mt (intercalate_eq_nil h).mp hnil), intercalate_append_singleton hnil]

theorem defaultsAt_candidate (h : ∀ name ∈ dir, IsName name) {k : ℕ} (hk : k ≤ dir.length) :
    (defaultsAt file ([] :: dir) (k + 1)).map DoFile.candidate =
      defaultCandidates dir file (dir.take k) := by
  have htake : ∀ name ∈ dir.take k, IsName name := fun name hname => h name (List.mem_of_mem_take hname)
  have hdrop : ∀ name ∈ dir.drop k, IsName name := fun name hname => h name (List.mem_of_mem_drop hname)
  rw [defaultsAt, defaultDoFiles_eq, defaultCandidates, List.map_map, List.map_map,
    List.length_take_of_le hk]
  refine List.map_congr_left fun p hp => ?_
  have hplace := congrArg (walk []) (moves_basedir htake)
  rw [walk_downs] at hplace
  have hbasename := baseJoin_intercalate hdrop p.1
  exact congrArg₂ (fun d b => Candidate.mk d _ _ b _) hplace hbasename

/-- Each default candidate has the file as what is to be built in its directory. -/
theorem defaultsAt_joins (h : ∀ name ∈ dir ++ [file], IsName name) {k : ℕ} {c : DoFile}
    (hc : c ∈ defaultsAt file ([] :: dir) (k + 1)) :
    place (join c.dodir (c.basename ++ c.ext)) = dir ++ [file] := by
  have htake : ∀ name ∈ dir.take k, IsName name := fun name hname =>
    h name (List.mem_append_left _ (List.mem_of_mem_take hname))
  have hdrop : ∀ name ∈ dir.drop k, IsName name := fun name hname =>
    h name (List.mem_append_left _ (List.mem_of_mem_drop hname))
  have hrest : ∀ name ∈ dir.drop k ++ [file], IsName name := by
    intro name hname
    rcases List.mem_append.mp hname with hmem | hmem
    · exact hdrop name hmem
    · exact h name (List.mem_append_right dir hmem)
  rw [defaultsAt, defaultDoFiles_eq, List.map_map] at hc
  obtain ⟨p, hp, rfl⟩ := List.mem_map.mp hc
  have htarget : baseJoin (['/'].intercalate (dir.drop k)) p.1 ++ p.2 =
      ['/'].intercalate (dir.drop k ++ [file]) := by
    rw [baseJoin]
    by_cases hnil : dir.drop k = []
    · rw [if_pos ((intercalate_eq_nil hdrop).mpr hnil), hnil, List.nil_append,
        List.intercalate_singleton, append_of_mem_dotSplits hp]
    · rw [if_neg (mt (intercalate_eq_nil hdrop).mp hnil), intercalate_append_singleton hnil,
        List.append_assoc, List.cons_append, append_of_mem_dotSplits hp]
  have hmoves := moves_basedir htake
  simp only [Function.comp, List.take_succ_cons, List.drop_succ_cons]
  rw [htarget, place, moves_join_of_relative (isAbsolute_intercalate hrest), hmoves,
    moves_intercalate hrest, walk_append, walk_downs, walk_downs, List.nil_append,
    ← List.append_assoc, List.take_append_drop]

theorem inits_eq_map_take (dir : List Text) :
    dir.inits = (List.range (dir.length + 1)).map fun k => dir.take k := by
  refine List.ext_getElem (by simp) fun k hk _ => ?_
  rw [List.getElem_inits, List.getElem_map, List.getElem_range]

theorem possibleDoFiles_eq (hbase : isAbsolute base = true)
    (hplace : place (join base t) = dir ++ [file]) :
    possibleDoFiles t base = ownDoFile t base ::
      (List.range' 1 (([] : Text) :: if dir = [] then [[]] else dir).length).reverse.flatMap
        (defaultsAt file ([] :: if dir = [] then [[]] else dir)) := by
  have hnames : ∀ name ∈ dir ++ [file], IsName name := fun name hname =>
    isName_of_mem_place (hplace.symm ▸ hname)
  have hdir : ∀ name ∈ dir, IsName name := fun name hname => hnames name (List.mem_append_left _ hname)
  rw [possibleDoFiles, normalizeJoin_absolute hbase t, hplace, parent_slash_intercalate hnames,
    fileName_slash_intercalate hnames]
  dsimp only [Option.getD_some]
  rw [splitOn_slash_intercalate hdir]

theorem length_defaultsAt (dirbits : List Text) (i : ℕ) :
    (defaultsAt file dirbits i).length = (dotSplits file).length := by
  rw [defaultsAt, defaultDoFiles_eq, List.length_map, List.length_map]

theorem filePart_of_mem (h : Enumerated base t dir file) : filePart t = file := by
  obtain ⟨d, hown, -⟩ := ownDoFile_eq t base
  have hhead := congrArg (fun l => l.head?.map Candidate.basename) h.candidates
  have hbasename : (ownDoFile t base).basename = file := Option.some.inj hhead
  rwa [hown] at hbasename

/-- In the root the pieces of the directory lead to it twice. -/
theorem not_enumerated_root (hbase : isAbsolute base = true) : ¬ Enumerated base t [] file := by
  intro h
  have hsplits : 0 < (dotSplits file).length := List.length_pos_of_ne_nil (dotSplits_ne_nil file)
  have hlength := congrArg List.length h.candidates
  rw [possibleDoFiles_eq hbase h.target, if_pos rfl] at hlength
  have hfound : ((ownDoFile t base :: (List.range' 1 ([[], []] : List Text).length).reverse.flatMap
      (defaultsAt file [[], []])).map DoFile.candidate).length =
        1 + 2 * (dotSplits file).length := by
    have htwice : (List.range' 1 ([[], []] : List Text).length).reverse = [2, 1] := rfl
    rw [htwice]
    simp only [List.length_map, List.length_cons, List.flatMap_cons, List.flatMap_nil,
      List.length_append, length_defaultsAt, List.length_nil]
    omega
  have hwanted : (candidates [] file).length = 1 + (dotSplits file).length := by
    simp [candidates, Nat.add_comm]
  rw [hfound, hwanted] at hlength
  omega

theorem enumerated (hbase : isAbsolute base = true) (hplace : place (join base t) = dir ++ [file])
    (hdir : dir ≠ []) (hfile : IsName (filePart t)) : Enumerated base t dir file := by
  have hnames : ∀ name ∈ dir ++ [file], IsName name := fun name hname =>
    isName_of_mem_place (hplace.symm ▸ hname)
  have hroot : t ≠ '/' :: filePart t := by
    intro ht
    have hmoves : moves (join base t) = [.down (filePart t)] := by
      rw [ht, moves_join_of_absolute rfl, moves_cons_slash, ← ht, moves_of_isName hfile]
    rw [place, hmoves] at hplace
    have hlength := congrArg List.length hplace
    rw [List.length_append, walk, walk] at hlength
    exact hdir (List.length_eq_zero_iff.mp (by simpa using hlength.symm))
  obtain ⟨d, hown, -⟩ := ownDoFile_eq t base
  have hparts := (place_ownDoFile hfile hroot).symm.trans hplace
  obtain ⟨hdodir, hlast⟩ := List.append_inj' hparts rfl
  have hpart : filePart t = file := List.singleton_inj.mp hlast
  have hall := possibleDoFiles_eq hbase hplace
  rw [if_neg hdir] at hall
  refine ⟨hplace, ?_, fun c hc => ?_⟩
  · have hcandidate : (ownDoFile t base).candidate = ⟨dir, file ++ ".do".toList, [], file, []⟩ := by
      rw [hown, hpart] at hdodir ⊢
      exact congrArg (fun d => Candidate.mk d _ _ _ _) hdodir
    rw [hall, List.map_cons, hcandidate, candidates, inits_eq_map_take, List.length_cons,
      List.range'_eq_map_range, ← List.map_reverse, ← List.map_reverse, List.flatMap_map,
      List.flatMap_map, List.map_flatMap]
    refine congrArg _ (List.flatMap_congr fun k hk => ?_)
    have hk' : k ≤ dir.length := Nat.lt_succ_iff.mp (List.mem_range.mp (List.mem_reverse.mp hk))
    rw [Nat.add_comm 1 k]
    exact defaultsAt_candidate (fun name hname => hnames name (List.mem_append_left _ hname)) hk'
  · rw [hall] at hc
    rcases List.mem_cons.mp hc with rfl | hc
    · rw [hown, List.append_nil, place_join_of_isName hfile]
      rw [hown] at hparts
      exact hparts
    · obtain ⟨i, hi, hc⟩ := List.mem_flatMap.mp hc
      obtain ⟨k, rfl⟩ : ∃ k, i = k + 1 :=
        Nat.exists_eq_add_of_le' (List.mem_range'_1.mp (List.mem_reverse.mp hi)).1
      exact defaultsAt_joins hnames hc

theorem enumerated_iff (hbase : isAbsolute base = true) :
    (∃ dir file, Enumerated base t dir file) ↔
      2 ≤ (place (join base t)).length ∧ IsName (filePart t) := by
  constructor
  · rintro ⟨dir, file, h⟩
    have hfile : IsName file := by
      have hmem : file ∈ place (join base t) := by
        rw [h.target]
        exact List.mem_append_right dir List.mem_cons_self
      exact isName_of_mem_place hmem
    refine ⟨?_, (filePart_of_mem h).symm ▸ hfile⟩
    have hdir : dir ≠ [] := fun hnil => not_enumerated_root hbase (hnil ▸ h)
    have hpos := List.length_pos_of_ne_nil hdir
    rw [h.target, List.length_append, List.length_singleton]
    omega
  · rintro ⟨hlength, hfile⟩
    have hne : place (join base t) ≠ [] := by
      intro hnil
      rw [hnil] at hlength
      cases hlength
    have hsplit := (List.dropLast_append_getLast hne).symm
    refine ⟨_, _, enumerated hbase hsplit ?_ hfile⟩
    intro hnil
    have hlength' := congrArg List.length hnil
    rw [List.length_dropLast, List.length_nil] at hlength'
    omega

theorem Enumerated.same {base' t' : Text} {dir' : List Text} {file' : Text}
    (h : Enumerated base t dir file) (h' : Enumerated base' t' dir' file')
    (hplace : place (join base t) = place (join base' t')) :
    (possibleDoFiles t base).map DoFile.candidate = (possibleDoFiles t' base').map DoFile.candidate := by
  rw [h.target, h'.target] at hplace
  obtain ⟨rfl, hlast⟩ := List.append_inj' hplace rfl
  rw [h.candidates, h'.candidates, List.singleton_inj.mp hlast]

/-- The search is as it should be for just the targets below a directory that is not the root, in
spellings that end with a name. All of these find the same. -/
theorem search_enumerates (hbase : isAbsolute base = true) :
    ((∃ dir file, Enumerated base t dir file) ↔
      2 ≤ (place (join base t)).length ∧ IsName (filePart t)) ∧
    ∀ base' t', isAbsolute base' = true → place (join base t) = place (join base' t') →
      2 ≤ (place (join base t)).length → IsName (filePart t) → IsName (filePart t') →
        (possibleDoFiles t base).map DoFile.candidate =
          (possibleDoFiles t' base').map DoFile.candidate := by
  refine ⟨enumerated_iff hbase, fun base' t' hbase' hplace hlength hname hname' => ?_⟩
  obtain ⟨dir, file, h⟩ := (enumerated_iff hbase).mpr ⟨hlength, hname⟩
  obtain ⟨dir', file', h'⟩ := (enumerated_iff hbase').mpr ⟨hplace ▸ hlength, hname'⟩
  exact h.same h' hplace

theorem search_enumerates_below :
    (∃ dir file, Enumerated "/b".toList "sub/a.b.c".toList dir file) ∧
      (possibleDoFiles "sub/a.b.c".toList "/b".toList).map DoFile.candidate =
        (possibleDoFiles "/b/./sub//a.b.c".toList "/b".toList).map DoFile.candidate :=
  have hsearch := @search_enumerates "/b".toList "sub/a.b.c".toList rfl
  ⟨hsearch.1.mpr (by decide +kernel),
    hsearch.2 "/b".toList "/b/./sub//a.b.c".toList rfl (by decide +kernel) (by decide +kernel)
      (by decide +kernel) (by decide +kernel)⟩

/-- The file `/x`: its default candidates in the root stand there twice. -/
theorem not_search_enumerates :
    ¬ ∀ base t : Text, isAbsolute base = true → place (join base t) ≠ [] →
      ∃ dir file, Enumerated base t dir file := by
  intro h
  obtain ⟨dir, file, hsearch⟩ := h "/b".toList "/x".toList rfl (by decide +kernel)
  have hplace : dir ++ [file] = [] ++ [['x']] := hsearch.target.symm.trans (by decide +kernel)
  obtain ⟨hdir, -⟩ := List.append_inj' hplace rfl
  rw [hdir] at hsearch
  exact not_enumerated_root rfl hsearch

example : (possibleDoFiles "__nonexist/a/x.y.z".toList "/".toList).map
      (fun c => String.ofList (render c.candidate.dir ++ '/' :: c.dofile)) =
    ["/__nonexist/a/x.y.z.do", "/__nonexist/a/default.y.z.do", "/__nonexist/a/default.z.do",
      "/__nonexist/a/default.do", "/__nonexist/default.y.z.do", "/__nonexist/default.z.do",
      "/__nonexist/default.do", "/default.y.z.do", "/default.z.do", "/default.do"] := by
  decide +kernel

end Redo.Paths
