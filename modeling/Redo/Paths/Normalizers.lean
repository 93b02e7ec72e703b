import Redo.Library.LossyText
import Redo.Library.PathMarks
import Redo.Logs.Lines

/-! # The lexical normal forms of a path

A path is bytes. Four functions keep the bytes of its names, the other two make text of them.
-/
namespace Redo.Paths
open Library Remote Cache

abbrev OsText := List UInt8

def SLASH : UInt8 := 47

/-- `std::path` on Unix. -/
def unix : PathMarks UInt8 := ⟨SLASH, 46, by decide⟩

def keepStep (parts : List OsText) : PathComponent UInt8 → List OsText
  | .rootDir => [[SLASH]]
  | .curDir => parts
  | .parentDir => if parts.length > 1 then parts.dropLast else parts
  | .normal s => parts ++ [s]

/-- One text stands in four files. -/
def keepNormal (p : OsText) : OsText := ((unix.components p).foldl keepStep []).foldl unix.push []

namespace Os

/-- `state::normalize_path`. -/
def normalizePath (p : OsText) : OsText := keepNormal p

/-- `builder::normalize_path_lex`. -/
def normalizePathLex (p : OsText) : OsText := keepNormal p

/-- `normalize_path` inside `find_base`. -/
def findBaseNormalizePath (p : OsText) : OsText := keepNormal p

/-- `normalize_path_lex` of `redo-trace`. -/
def traceNormalizePathLex (p : OsText) : OsText := keepNormal p

def resolvePath (cwd : OsText) (raw : Text) : OsText :=
  if unix.isAbsolute (encode raw) then traceNormalizePathLex (encode raw)
  else traceNormalizePathLex (unix.push cwd (encode raw))

def normalizeJoinStep (parts : List Text) : PathComponent UInt8 → List Text
  | .rootDir => [[]]
  | .curDir => parts
  | .parentDir => if parts.length > 1 then parts.dropLast else parts
  | .normal s => parts ++ [lossy s]

def joined : List Text → Text
  | [] => ['/']
  | [] :: rest => '/' :: ['/'].intercalate rest
  | parts => ['/'].intercalate parts

/-- `paths::normalize_join`. -/
def normalizeJoin (base : OsText) (rel : Text) : Text :=
  joined ((unix.components (unix.push base (encode rel))).foldl normalizeJoinStep [])

def normalizeStep (n : List Text × Bool) : PathComponent UInt8 → List Text × Bool
  | .curDir => n
  | .parentDir =>
    if n.1 ≠ [] ∧ n.1.getLast? ≠ some ['.', '.'] then (n.1.dropLast, n.2)
    else if n.2 then n else (n.1 ++ [['.', '.']], n.2)
  | .rootDir => ([], true)
  | .normal s => (n.1 ++ [lossy s], n.2)

/-- `normalize` of `redo-log`. -/
def normalize (p : OsText) : Text :=
  let n := (unix.components p).foldl normalizeStep ([], false)
  if n.2 then '/' :: ['/'].intercalate n.1 else ['/'].intercalate n.1

end Os

/-- What is in normal form: the root, and names. -/
def Normal (p : OsText) : Prop := ∃ names, (∀ n ∈ names, unix.IsName n) ∧ p = unix.rooted names

/-- All functions give one path for this one, and it is in normal form and stays. A path is given
to `normalize_join` and to `resolve_path` in two pieces. -/
structure NormalizersAgree (p : OsText) : Prop where
  builder : Os.normalizePathLex p = Os.normalizePath p
  findBase : Os.findBaseNormalizePath p = Os.normalizePath p
  trace : Os.traceNormalizePathLex p = Os.normalizePath p
  resolve : ∀ cwd raw, unix.push cwd (encode raw) = p → Os.resolvePath cwd raw = Os.normalizePath p
  join : ∀ base rel, unix.push base (encode rel) = p →
    encode (Os.normalizeJoin base rel) = Os.normalizePath p
  log : encode (Os.normalize p) = Os.normalizePath p
  normal : Normal (Os.normalizePath p)
  again : Os.normalizePath (Os.normalizePath p) = Os.normalizePath p
  join_again : ∀ base rel, unix.push base (encode rel) = Os.normalizePath p →
    encode (Os.normalizeJoin base rel) = Os.normalizePath p
  log_again : encode (Os.normalize (Os.normalizePath p)) = Os.normalizePath p

variable {p : OsText} {names here : List OsText}

theorem foldl_keepStep (here : List OsText) (path : List (Move OsText)) :
    (path.map PathMarks.asComponent).foldl keepStep ([SLASH] :: here) = [SLASH] :: walk here path := by
  induction path generalizing here with
  | nil => rfl
  | cons m path ih =>
    cases m with
    | up =>
      have hstep : keepStep ([SLASH] :: here) .parentDir = [SLASH] :: here.dropLast := by
        cases here <;> simp [keepStep]
      rw [List.map_cons, PathMarks.asComponent, List.foldl_cons, hstep]
      exact ih here.dropLast
    | down name => exact ih (here ++ [name])

theorem isName_of_place (p : OsText) : ∀ n ∈ unix.place p, unix.IsName n :=
  fun _ hn => PathMarks.isName_of_mem_place hn

/-- The bytes of the names are kept. -/
theorem keepNormal_absolute (h : unix.isAbsolute p = true) : keepNormal p = unix.rooted (unix.place p) := by
  rw [keepNormal, PathMarks.components_absolute h, List.foldl_cons]
  have hfold := foldl_keepStep [] (unix.moves p)
  have hpush := @PathMarks.foldl_push _ _ unix (unix.place p) [] (isName_of_place p)
  rw [List.nil_append] at hpush
  exact (congrArg (List.foldl unix.push []) hfold).trans hpush

theorem foldl_joinStep (here : List OsText) (path : List (Move OsText)) :
    (path.map PathMarks.asComponent).foldl Os.normalizeJoinStep ([] :: here.map lossy) =
      [] :: (walk here path).map lossy := by
  induction path generalizing here with
  | nil => rfl
  | cons m path ih =>
    cases m with
    | up =>
      have hstep : Os.normalizeJoinStep ([] :: here.map lossy) .parentDir =
          [] :: here.dropLast.map lossy := by
        cases here <;> simp [Os.normalizeJoinStep]
      rw [List.map_cons, PathMarks.asComponent, List.foldl_cons, hstep]
      exact ih here.dropLast
    | down name =>
      have hnext := ih (here ++ [name])
      rwa [List.map_append] at hnext

theorem normalizeJoin_push {base : OsText} {rel : Text} (hpush : unix.push base (encode rel) = p)
    (h : unix.isAbsolute p = true) :
    Os.normalizeJoin base rel = '/' :: ['/'].intercalate ((unix.place p).map lossy) := by
  rw [Os.normalizeJoin, hpush, PathMarks.components_absolute h, List.foldl_cons]
  exact congrArg Os.joined (foldl_joinStep [] (unix.moves p))

/-- What is read as two dots is two dots. -/
theorem lossy_ne_dots {n : OsText} (h : unix.IsName n) : lossy n ≠ ['.', '.'] := by
  intro heq
  have hne : REPLACEMENT ∉ lossy n := by
    rw [heq]
    decide
  have hbytes := (reads_lossy n).encode hne
  rw [heq] at hbytes
  exact h.ne_dots (hbytes.symm.trans (by decide))

theorem foldl_normalizeStep_os (here : List OsText) (path : List (Move OsText))
    (hhere : ∀ n ∈ here, unix.IsName n) (hpath : ∀ n, Move.down n ∈ path → unix.IsName n) :
    (path.map PathMarks.asComponent).foldl Os.normalizeStep (here.map lossy, true) =
      ((walk here path).map lossy, true) := by
  induction path generalizing here with
  | nil => rfl
  | cons m path ih =>
    have hrest : ∀ n, Move.down n ∈ path → unix.IsName n := fun n hn => hpath n (List.mem_cons_of_mem _ hn)
    rw [List.map_cons, List.foldl_cons]
    cases m with
    | up =>
      have hstep : Os.normalizeStep (here.map lossy, true) .parentDir = (here.dropLast.map lossy, true) := by
        rcases List.eq_nil_or_concat here with rfl | ⟨front, last, rfl⟩
        · rfl
        · have hlast : unix.IsName last := hhere last (by simp)
          simp [Os.normalizeStep, lossy_ne_dots hlast]
      rw [PathMarks.asComponent, hstep]
      exact ih here.dropLast (fun n hn => hhere n (List.dropLast_subset here hn)) hrest
    | down name =>
      have hname : unix.IsName name := hpath name List.mem_cons_self
      have hnext := ih (here ++ [name]) (fun n hn => by
        rcases List.mem_append.mp hn with hn | hn
        · exact hhere n hn
        · exact List.mem_singleton.mp hn ▸ hname) hrest
      rwa [List.map_append] at hnext

theorem normalize_absolute (h : unix.isAbsolute p = true) :
    Os.normalize p = '/' :: ['/'].intercalate ((unix.place p).map lossy) := by
  have hfold := foldl_normalizeStep_os [] (unix.moves p) (fun n hn => absurd hn List.not_mem_nil)
    (fun n hn => PathMarks.isName_of_mem_moves hn)
  have hcomponents : (unix.components p).foldl Os.normalizeStep ([], false) =
      ((unix.place p).map lossy, true) := by
    rw [PathMarks.components_absolute h, List.foldl_cons]
    exact hfold
  rw [Os.normalize, hcomponents]
  rfl

theorem encode_intercalate (names : List Text) :
    encode (['/'].intercalate names) = [SLASH].intercalate (names.map encode) := by
  induction names with
  | nil => rfl
  | cons a names ih =>
    cases names with
    | nil => simp
    | cons b names =>
      have hcut : [SLASH].intercalate ((a :: b :: names).map encode) =
          encode a ++ [SLASH] ++ [SLASH].intercalate ((b :: names).map encode) :=
        List.intercalate_cons_cons
      rw [List.intercalate_cons_cons, encode_append, encode_append, ih, hcut]
      rfl

theorem encode_rooted (names : List Text) :
    encode ('/' :: ['/'].intercalate names) = unix.rooted (names.map encode) := by
  rw [encode_cons, encode_intercalate]
  rfl

theorem lossy_part {n : OsText} (h : unix.IsName n) : encode (lossy n) ≠ [] ∧ SLASH ∉ encode (lossy n) := by
  constructor
  · intro hnil
    obtain ⟨c, t, ht⟩ := List.exists_cons_of_ne_nil ((reads_lossy n).ne_nil h.ne_nil)
    rw [ht, encode_cons] at hnil
    exact encodeChar_ne_nil c (List.append_eq_nil_iff.mp hnil).1
  · exact fun hmem => h.slash ((reads_lossy n).mem (by decide) hmem)

/-- The texts of the names stand for them just when all names are UTF-8. -/
theorem rooted_lossy_iff (h : ∀ n ∈ names, unix.IsName n) :
    unix.rooted ((names.map lossy).map encode) = unix.rooted names ↔ ∀ n ∈ names, IsUtf8 n := by
  have hmap : (names.map lossy).map encode = names.map fun n => encode (lossy n) := by
    rw [List.map_map]
    rfl
  rw [hmap]
  constructor
  · intro heq n hn
    have hnames := PathMarks.rooted_injective (fun part hpart => by
        obtain ⟨n', hn', rfl⟩ := List.mem_map.mp hpart
        exact lossy_part (h n' hn')) (fun n' hn' => ⟨(h n' hn').ne_nil, (h n' hn').slash⟩) heq
    exact List.map_inj_left.mp (hnames.trans (List.map_id names).symm) n hn
  · intro hutf
    rw [List.map_congr_left (g := id) hutf, List.map_id]

theorem normal_of_absolute (h : unix.isAbsolute p = true) : Normal (keepNormal p) :=
  ⟨unix.place p, isName_of_place p, keepNormal_absolute h⟩

theorem resolvePath_push {cwd : OsText} {raw : Text} (hpush : unix.push cwd (encode raw) = p) :
    Os.resolvePath cwd raw = Os.normalizePath p := by
  rw [Os.resolvePath, ← hpush]
  split_ifs with habs
  · rw [PathMarks.push, if_pos habs]
    rfl
  · rfl

/-- Everything agrees on just the paths whose remaining names are UTF-8. -/
theorem normalizersAgree_iff (h : unix.isAbsolute p = true) :
    NormalizersAgree p ↔ ∀ n ∈ unix.place p, IsUtf8 n := by
  have hkeep := keepNormal_absolute h
  have hiff := rooted_lossy_iff (isName_of_place p)
  have hplace : unix.place (keepNormal p) = unix.place p := by
    rw [hkeep, PathMarks.place_rooted (isName_of_place p)]
  have habs : unix.isAbsolute (keepNormal p) = true := by
    rw [hkeep]
    exact PathMarks.isAbsolute_rooted _
  constructor
  · intro hagree
    have hlog := hagree.log
    rw [normalize_absolute h, encode_rooted] at hlog
    exact hiff.mp (hlog.trans hkeep)
  · intro hutf
    have hsame := (hiff.mpr hutf).trans hkeep.symm
    exact
      { builder := rfl
        findBase := rfl
        trace := rfl
        resolve := fun cwd raw hpush => resolvePath_push hpush
        join := fun base rel hpush => by
          rw [normalizeJoin_push hpush h, encode_rooted]
          exact hsame
        log := by
          rw [normalize_absolute h, encode_rooted]
          exact hsame
        normal := normal_of_absolute h
        again := by
          show keepNormal (keepNormal p) = keepNormal p
          rw [keepNormal_absolute habs, hplace, hkeep]
        join_again := fun base rel hpush => by
          rw [normalizeJoin_push hpush habs, encode_rooted]
          exact (congrArg (fun names => unix.rooted ((names.map lossy).map encode)) hplace).trans hsame
        log_again := by
          show encode (Os.normalize (keepNormal p)) = _
          rw [normalize_absolute habs, hplace, encode_rooted]
          exact hsame }

theorem normalizersAgree_above : NormalizersAgree (encode "/a/../../b//./c/".toList) :=
  (normalizersAgree_iff (by decide)).mpr (by decide +kernel)

/-- In a directory whose name is the byte 255. -/
theorem not_normalizersAgree : ¬ ∀ p : OsText, unix.isAbsolute p = true → NormalizersAgree p := by
  intro h
  have hlog := (h [SLASH, 255] (by decide)).log
  exact absurd hlog (by decide +kernel)

/-! ## Paths that are text -/

def osComponent : Component → PathComponent UInt8
  | .rootDir => .rootDir
  | .curDir => .curDir
  | .parentDir => .parentDir
  | .normal name => .normal (encode name)

theorem encode_injective : Function.Injective encode :=
  Function.LeftInverse.injective lossy_encode

theorem encode_eq_nil {t : Text} : encode t = [] ↔ t = [] :=
  ⟨fun h => encode_injective h, fun h => h ▸ rfl⟩

theorem encode_eq_iff {t : Text} (t' : Text) : encode t = encode t' ↔ t = t' := encode_injective.eq_iff

theorem slash_of_byte {c : Char} (h : SLASH ∈ String.utf8EncodeChar c) : c = '/' :=
  Char.ext (UInt32.toNat_inj.mp (toNat_of_mem_encodeChar (by decide) h))

theorem component_encode (part : Text) : unix.component (encode part) = (component part).map osComponent := by
  have hdot : encode part = [unix.dot] ↔ part = ['.'] := encode_eq_iff ['.']
  have hdots : encode part = [unix.dot, unix.dot] ↔ part = ['.', '.'] := encode_eq_iff ['.', '.']
  unfold PathMarks.component component
  simp only [hdot, hdots, encode_eq_nil]
  split_ifs <;> rfl

theorem head?_encode (t : Text) : (encode t).head? = some SLASH ↔ t.head? = some '/' := by
  cases t with
  | nil => simp [encode]
  | cons c t =>
    rw [encode_cons, List.head?_append_of_ne_nil _ (encodeChar_ne_nil c), List.head?_cons]
    constructor
    · intro h
      rw [slash_of_byte (List.mem_of_head? h)]
    · intro h
      rw [Option.some.inj h]
      decide

theorem getLast?_encode (t : Text) : (encode t).getLast? = some SLASH ↔ t.getLast? = some '/' := by
  rcases List.eq_nil_or_concat t with rfl | ⟨front, c, rfl⟩
  · simp [encode]
  · have hone : encode [c] = String.utf8EncodeChar c := List.flatMap_singleton _ c
    rw [List.concat_eq_append, encode_append, hone,
      List.getLast?_append_of_ne_nil _ (encodeChar_ne_nil c), List.getLast?_concat]
    constructor
    · intro h
      rw [slash_of_byte (List.mem_of_getLast? h)]
    · intro h
      rw [Option.some.inj h]
      decide

theorem components_encode (t : Text) : unix.components (encode t) = (components t).map osComponent := by
  have hsplit : (encode t).splitOn SLASH = (t.splitOn '/').map encode := @splitOn_encode '/' (by decide) t
  have hfirst : ((t.splitOn '/').map encode).head? = some [46] ↔ (t.splitOn '/').head? = some ['.'] := by
    have hdot : ([46] : OsText) = encode ['.'] := by decide
    rw [List.head?_map, hdot]
    exact (Option.map_injective encode_injective).eq_iff (b := some ['.'])
  have hcomponent : unix.component ∘ encode = fun part => (component part).map osComponent :=
    funext component_encode
  unfold PathMarks.components components
  rw [show unix.slash = SLASH from rfl, show unix.dot = 46 from rfl, hsplit]
  simp only [head?_encode, hfirst, List.filterMap_map, hcomponent, List.map_append, List.map_filterMap]
  split_ifs <;> rfl

theorem isAbsolute_encode (t : Text) : unix.isAbsolute (encode t) = isAbsolute t :=
  decide_eq_decide.mpr (head?_encode t)

theorem push_encode (path t : Text) : unix.push (encode path) (encode t) = encode (push path t) := by
  have hlast : (encode path = [] ∨ (encode path).getLast? = some unix.slash) ↔
      (path = [] ∨ path.getLast? = some '/') := or_congr encode_eq_nil (getLast?_encode path)
  rw [PathMarks.push, push, isAbsolute_encode]
  simp only [hlast]
  split_ifs
  · rfl
  · rw [encode_append]
  · rw [encode_append, encode_cons]
    rfl

theorem keepStep_encode (parts : List Text) (c : Component) :
    keepStep (parts.map encode) (osComponent c) = (Cache.normalizeStep parts c).map encode := by
  cases c with
  | rootDir => rfl
  | curDir => rfl
  | parentDir =>
    rw [osComponent, keepStep, Cache.normalizeStep, List.length_map]
    split_ifs
    · rw [List.map_dropLast]
    · rfl
  | normal name => simp [osComponent, keepStep, Cache.normalizeStep]

theorem foldl_map_comm {α β γ δ : Type*} (f : α → β → α) (g : γ → δ → γ) (a : γ → α) (b : δ → β)
    (h : ∀ x y, f (a x) (b y) = a (g x y)) (x : γ) (l : List δ) :
    (l.map b).foldl f (a x) = a (l.foldl g x) := by
  rw [List.foldl_map]
  exact List.foldl_hom a fun x y => h x y

/-- The text form of the four functions that keep the bytes. -/
theorem normalizePath_encode (t : Text) : Os.normalizePath (encode t) = encode (normalizePath t) := by
  have hparts := foldl_map_comm keepStep Cache.normalizeStep (List.map encode) osComponent
    keepStep_encode [] (components t)
  have hpush := foldl_map_comm unix.push push encode encode push_encode [] (normalizePathLex t)
  show keepNormal (encode t) = _
  rw [keepNormal, components_encode]
  exact (congrArg (List.foldl unix.push []) hparts).trans hpush

theorem joinStep_encode (parts : List Text) (c : Component) :
    Os.normalizeJoinStep parts (osComponent c) = normalizeJoinStep parts c := by
  cases c with
  | normal name => rw [osComponent, Os.normalizeJoinStep, lossy_encode]; rfl
  | rootDir => rfl
  | curDir => rfl
  | parentDir => rfl

/-- Behind an absolute base one more slash makes no difference. -/
theorem normalizeJoin_encode {base : Text} (h : isAbsolute base = true) (rel : Text) :
    Os.normalizeJoin (encode base) rel = normalizeJoin base rel := by
  have hmoves : moves (push base rel) = moves (join base rel) := by
    cases hrel : isAbsolute rel with
    | true => rw [push_absolute hrel, join, if_pos hrel]
    | false => rw [moves_push h hrel, moves_join_of_relative hrel]
  have hcomponents : components (push base rel) = components (join base rel) := by
    rw [components_absolute (isAbsolute_push h rel), components_absolute (isAbsolute_join h rel), hmoves]
  have hfold := foldl_map_comm Os.normalizeJoinStep normalizeJoinStep id osComponent joinStep_encode []
    (components (join base rel))
  rw [Os.normalizeJoin, push_encode, components_encode, hcomponents]
  exact congrArg Os.joined hfold

theorem normalizeStep_encode (n : List Text × Bool) (c : Component) :
    Os.normalizeStep n (osComponent c) = Logs.normalizeComponent n c := by
  cases c with
  | normal name => rw [osComponent, Os.normalizeStep, lossy_encode]; rfl
  | rootDir => rfl
  | curDir => rfl
  | parentDir => rfl

theorem normalize_encode (t : Text) : Os.normalize (encode t) = Logs.normalize t := by
  have hfold := foldl_map_comm Os.normalizeStep Logs.normalizeComponent id osComponent
    normalizeStep_encode ([], false) (components t)
  rw [Os.normalize, components_encode]
  exact congrArg (fun n : List Text × Bool =>
    if n.2 then '/' :: ['/'].intercalate n.1 else ['/'].intercalate n.1) hfold

end Redo.Paths
