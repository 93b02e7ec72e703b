import Redo.Logs.Recursion

/-! # Logs that mention each other

A log's mentions are named from the directory of the name under which it is read. Between two
directories these names grow, and no name is met twice.
-/
namespace Redo.Logs
open Library Remote Cache Paths

variable {o : Options} {w : Records} {t name mydir : Text} {fuel fid : ℕ} {r : Reading}

theorem isAbsolute_append {d : Text} (h : d ≠ []) (rest : Text) : isAbsolute (d ++ rest) = isAbsolute d := by
  obtain ⟨c, l, rfl⟩ := List.exists_cons_of_ne_nil h
  rfl

theorem rdropWhile_idle {name : Text} (h : IsName name) (l : List Text) :
    (l ++ [name]).rdropWhile idle = l ++ [name] := by
  refine List.rdropWhile_concat_neg _ _ _ ?_
  simp [idle, h.ne_nil, h.ne_dot]

/-- The directory of a name in a directory, as it is written. -/
theorem directory_append {d last file : Text} {parts : List Text} (hfile : IsName file)
    (hparts : d.splitOn '/' = parts ++ [last]) (hlast : IsName last) : directory (d ++ '/' :: file) = d := by
  have hne : d ≠ [] := by
    rintro rfl
    have hparts' : [] ++ [[]] = parts ++ [_] := hparts
    have hhead := (List.append_inj' hparts' rfl).2
    exact hlast.ne_nil (List.singleton_inj.mp hhead).symm
  have hall : (d ++ '/' :: file).splitOn '/' = parts ++ [last] ++ [file] := by
    rw [List.splitOn_append_cons_self, hparts, List.splitOn_eq_singleton hfile.slash]
  have hlead : ∃ front rest, parts = front ++ rest ∧
      (if isAbsolute (d ++ '/' :: file) = true ∨ (parts ++ [last] ++ [file]).head? = some ['.'] then
        (parts ++ [last] ++ [file]).take 1 else []) = front := by
    split_ifs with hfront
    · cases hp : parts with
      | cons first rest => exact ⟨[first], rest, rfl, rfl⟩
      | nil =>
        rw [hp] at hparts hfront
        rcases hfront with habs | hdot
        · rw [isAbsolute_append hne] at habs
          obtain ⟨rest, rfl⟩ := absolute_cons habs
          have hhead := congrArg List.head? hparts
          rw [show '/' :: rest = [] ++ '/' :: rest from rfl, List.splitOn_append_cons_self] at hhead
          exact absurd (Option.some.inj hhead).symm hlast.ne_nil
        · exact absurd (Option.some.inj hdot) hlast.ne_dot
    · exact ⟨[], parts, rfl, rfl⟩
  obtain ⟨front, rest, rfl, hfront⟩ := hlead
  have hdrop : (front ++ rest ++ [last] ++ [file]).drop front.length = rest ++ [last] ++ [file] := by
    simp only [List.append_assoc, List.drop_left]
  have hnil : rest ++ [last] ++ [file] ≠ [] := by simp
  have hnil' : rest ++ [last] ≠ [] := by simp
  rw [directory]
  dsimp only
  rw [hall, hfront, hdrop, rdropWhile_idle hfile, if_neg hnil, List.dropLast_concat, rdropWhile_idle hlast,
    if_neg fun h => hnil' h.2, ← List.append_assoc, ← hparts]
  exact List.intercalate_splitOn '/'

/-- The first line of the log found under `t` mentions `name`. -/
structure Leads (o : Options) (w : Records) (t name : Text) : Prop where
  found : ∃ fid content bytes rest line, w.byName t = some fid ∧ w.logs fid = some content ∧
    wholeLines content = bytes :: rest ∧ decode bytes = some line ∧
    child o (directory t) line = some name

/-- Names that lead from one to a longer one for ever are followed for ever. -/
theorem catlog_endless (hrec : o.recursive = true) {Q : Text → Prop} (size : Text → ℕ)
    (hQ : ∀ t, Q t → ∃ name, Leads o w t name ∧ Q name ∧ size t < size name) (ht : Q t)
    (hshort : ∀ name ∈ r.already, size name < size t) : catlog o w fuel t r = none := by
  induction fuel generalizing t r with
  | zero => rfl
  | succ fuel ih =>
    obtain ⟨name, ⟨fid, content, bytes, rest, line, hrow, hlog, hlines, hdecode, hchild⟩, hname, hlonger⟩ :=
      hQ t ht
    have hfresh : t ∉ r.already := fun hmem => Nat.lt_irrefl _ (hshort t hmem)
    rw [catlog, if_neg hfresh]
    dsimp only
    rw [hrow]
    dsimp only
    rw [hlog]
    dsimp only
    rw [hlines, eachLine, hdecode]
    dsimp only
    rw [hchild]
    dsimp only
    rw [if_pos hrec, ih hname]
    · rfl
    · intro n hn
      rcases List.mem_cons.mp hn with rfl | hn
      · exact hlonger
      · exact (hshort n hn).trans hlonger

/-- A spelling of the directory `name` in the current one. -/
structure Stands (p : Process) (d name : Text) : Prop where
  relative : isAbsolute d = false
  written : ∃ parts, d.splitOn '/' = parts ++ [name]
  place : place (push p.cwd.path d) = p.cwd.names ++ [name]

variable {p : Process} {d dir file dir' file' : Text}

/-- The way from one directory to another beside it. -/
def beside (dir : Text) : Text := '.' :: '.' :: '/' :: dir

theorem Stands.ne_nil (h : Stands p d dir) (hdir : IsName dir) : d ≠ [] := by
  rintro rfl
  obtain ⟨parts, hparts⟩ := h.written
  have hparts' : [] ++ [[]] = parts ++ [_] := hparts
  have hhead := (List.append_inj' hparts' rfl).2
  exact hdir.ne_nil (List.singleton_inj.mp hhead).symm

theorem Stands.single (hdir : IsName dir) : Stands p dir dir := by
  have habs := isAbsolute_of_isName hdir
  refine ⟨habs, ⟨[], List.splitOn_eq_singleton hdir.slash⟩, ?_⟩
  rw [Paths.place, moves_push p.cwd.isAbsolute_path habs, moves_of_isName hdir, p.cwd.moves_path,
    walk_append, walk_downs]
  rfl

theorem Stands.next (h : Stands p d dir) (hdir : IsName dir) (hdir' : IsName dir') :
    Stands p (d ++ '/' :: beside dir') dir' := by
  have hne := h.ne_nil hdir
  have hrel : isAbsolute (d ++ '/' :: beside dir') = false := by
    rw [isAbsolute_append hne, h.relative]
  refine ⟨hrel, ?_, ?_⟩
  · obtain ⟨parts, hparts⟩ := h.written
    refine ⟨parts ++ [dir] ++ [['.', '.']], ?_⟩
    rw [List.splitOn_append_cons_self, hparts, show beside dir' = ['.', '.'] ++ '/' :: dir' from rfl,
      List.splitOn_append_cons_self, List.splitOn_eq_singleton hdir'.slash, ← List.append_assoc]
    rfl
  · have hmoves : moves (beside dir') = [.up, .down dir'] := by
      rw [show beside dir' = ['.', '.'] ++ '/' :: dir' from rfl, moves_join, moves_of_isName hdir']
      rfl
    have hplace := h.place
    rw [Paths.place, moves_push p.cwd.isAbsolute_path h.relative] at hplace
    rw [Paths.place, moves_push p.cwd.isAbsolute_path hrel, moves_join, ← List.append_assoc, walk_append,
      hplace, hmoves]
    simp [walk]

theorem push_written {parts : List Text} {m : Text} (hparts : d.splitOn '/' = parts ++ [dir])
    (hdir : IsName dir) (hm : isAbsolute m = false) : push d m = d ++ '/' :: m := by
  have hend : ∀ front, d = front ++ ['/'] → False := by
    intro front hfront
    rw [hfront, List.splitOn_append_cons_self] at hparts
    have hlast := (List.append_inj' hparts rfl).2
    exact hdir.ne_nil (List.singleton_inj.mp hlast).symm
  have hne : d ≠ [] := by
    rintro rfl
    have hparts' : [] ++ [[]] = parts ++ [_] := hparts
    have hhead := (List.append_inj' hparts' rfl).2
    exact hdir.ne_nil (List.singleton_inj.mp hhead).symm
  rw [push, hm, if_neg Bool.noConfusion, if_neg]
  rintro (hnil | hslash)
  · exact hne hnil
  · obtain ⟨front, hfront⟩ := List.getLast?_eq_some_iff.mp hslash
    exact hend front hfront

/-- Below a directory that a process works in, `dir/file` has a row and a log, and the log begins
with a mention of `../dir'/file'`. -/
structure Refers (o : Options) (w : Records) (dir file dir' file' : Text) : Prop where
  dirName : IsName dir
  fileName : IsName file
  outside : ¬ w.process.cwd.names ++ [dir] ++ [file] <+: w.process.base.names
  log : ∃ fid content bytes rest line m,
    w.files.lookup (way w.process.base.names (w.process.cwd.names ++ [dir] ++ [file])) = some fid ∧
    w.logs fid = some content ∧ wholeLines content = bytes :: rest ∧ decode bytes = some line ∧
    parseRedoMetaLine line = some m ∧ m.mentions o = true ∧ m.msg = beside dir' ++ '/' :: file'

theorem Refers.leads (h : Refers o w dir file dir' file') (hdiff : LexicalDiff w.process.diffPaths)
    (hbase : w.process.base.names ≠ []) (hd : Stands w.process d dir) :
    Leads o w (d ++ '/' :: file) ((d ++ '/' :: beside dir') ++ '/' :: file') := by
  have hne := hd.ne_nil h.dirName
  have hrel : isAbsolute (d ++ '/' :: file) = false := by rw [isAbsolute_append hne, hd.relative]
  have hmoves : moves (push w.process.cwd.path (d ++ '/' :: file)) =
      moves (push w.process.cwd.path d) ++ [.down file] := by
    rw [moves_push w.process.cwd.isAbsolute_path hrel, moves_join,
      moves_push w.process.cwd.isAbsolute_path hd.relative, moves_of_isName h.fileName, List.append_assoc]
  have hplace : Paths.place (push w.process.cwd.path (d ++ '/' :: file)) =
      w.process.cwd.names ++ [dir] ++ [file] := by
    rw [Paths.place, hmoves, walk_append, ← Paths.place, hd.place]
    rfl
  have hspelled : Spelled w.process (d ++ '/' :: file) := by
    refine ⟨fun heq => ?_, ?_⟩
    · rw [heq] at hrel
      cases hrel
    · rw [if_neg hbase, hmoves, hplace, List.getLast?_concat]
      exact ⟨fun hup => (by cases hup), fun hpre => h.outside hpre.1⟩
  obtain ⟨fid, content, bytes, rest, line, m, hrow, hlog, hlines, hdecode, hparse, hmentions, hmsg⟩ := h.log
  obtain ⟨parts, hparts⟩ := hd.written
  refine ⟨fid, content, bytes, rest, line, ?_, hlog, hlines, hdecode, ?_⟩
  · rw [Records.byName, hspelled.byName hdiff, hplace, hrow]
  · rw [child, hparse, Option.bind_some, if_pos hmentions, directory_append h.fileName hparts h.dirName, hmsg]
    rw [push_written hparts h.dirName rfl, List.append_assoc]
    rfl

/-- Logs of different runs in two directories that mention each other first are read for ever. -/
theorem mutual_endless (hrec : o.recursive = true) (hdiff : LexicalDiff w.process.diffPaths)
    (hbase : w.process.base.names ≠ []) (h : Refers o w dir file dir' file')
    (h' : Refers o w dir' file' dir file) (fuel : ℕ) : catlog o w fuel (dir ++ '/' :: file) {} = none := by
  have hlonger : ∀ {d dir file dir' file'}, Refers o w dir file dir' file' →
      (d ++ '/' :: file).count '/' < ((d ++ '/' :: beside dir') ++ '/' :: file').count '/' := by
    intro d dir file dir' file' href
    have hnone : file.count '/' = 0 := List.count_eq_zero.mpr href.fileName.slash
    simp only [List.count_append, List.count_cons_self, hnone]
    omega
  refine catlog_endless hrec (List.count '/') (Q := fun t => (∃ d, Stands w.process d dir ∧ t = d ++ '/' :: file) ∨
    ∃ d, Stands w.process d dir' ∧ t = d ++ '/' :: file') ?_ (.inl ⟨dir, .single h.dirName, rfl⟩) ?_
  · rintro t (⟨d, hd, rfl⟩ | ⟨d, hd, rfl⟩)
    · exact ⟨_, h.leads hdiff hbase hd, .inr ⟨_, hd.next h.dirName h'.dirName, rfl⟩, hlonger h⟩
    · exact ⟨_, h'.leads hdiff hbase hd, .inl ⟨_, hd.next h'.dirName h.dirName, rfl⟩, hlonger h'⟩
  · intro name hname
    exact absurd hname List.not_mem_nil

/-- The logs of `a/x` and `b/y` below `/r`, from different runs. -/
def crossing : Records where
  process := { tree := ⟨fun _ => true, fun _ => true⟩, base := ⟨["r".toList], by decide⟩
               cwd := ⟨["r".toList], by decide⟩, diffPaths := lexicalDiff }
  files := [("a/x".toList, 0), ("b/y".toList, 1)]
  logs fid := if fid = 0 then some (encode "@@REDO:do:7:1.0@@ ../b/y\n".toList)
    else if fid = 1 then some (encode "@@REDO:do:8:2.0@@ ../a/x\n".toList) else none

/-- `redo-log -ru`. -/
def readAll : Options := { noOptions false 0 with recursive := true, unchanged := true }

theorem crossing_refers : Refers readAll crossing "a".toList "x".toList "b".toList "y".toList ∧
    Refers readAll crossing "b".toList "y".toList "a".toList "x".toList := by
  constructor
  · refine ⟨by decide, by decide, by decide, 0, _, encode "@@REDO:do:7:1.0@@ ../b/y".toList, [],
      "@@REDO:do:7:1.0@@ ../b/y".toList, ⟨DO, 7, "../b/y".toList⟩, ?_, rfl, ?_, decode_encode _, ?_⟩
    · decide +kernel
    · decide +kernel
    · decide
  · refine ⟨by decide, by decide, by decide, 1, _, encode "@@REDO:do:8:2.0@@ ../a/x".toList, [],
      "@@REDO:do:8:2.0@@ ../a/x".toList, ⟨DO, 8, "../a/x".toList⟩, ?_, rfl, ?_, decode_encode _, ?_⟩
    · decide +kernel
    · decide +kernel
    · decide

theorem not_readsOnce :
    ¬ ∀ (o : Options) (w : Records) (t : Text), o.recursive = true → ReadsOnce o w t := by
  intro h
  obtain ⟨fuel, e, r, hcatlog, _⟩ := h readAll crossing "a/x".toList rfl
  have hendless := mutual_endless rfl lexicalDiff_spec (by decide) crossing_refers.1 crossing_refers.2 fuel
  rw [show "a/x".toList = "a".toList ++ '/' :: "x".toList by decide, hendless] at hcatlog
  cases hcatlog

/-- `t` mentions `y` and then `./y`. -/
def spelledTwice : Records :=
  { crossing with
    files := [("t".toList, 0), ("y".toList, 1)]
    logs := fun fid => if fid = 0 then some (encode "@@REDO:do:7:1.0@@ y\n@@REDO:do:7:1.1@@ ./y\n".toList)
      else if fid = 1 then some (encode "made\n".toList) else none }

example : ((catlog readAll spelledTwice 3 "t".toList {}).map fun x => x.2.out.map fun y => String.ofList y.2) =
    some ["redo  y", "made", "made"] := by decide +kernel

end Redo.Logs
