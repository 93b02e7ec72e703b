import Redo.Cache.ReadTrace
import Redo.State.Files

/-! # The dependencies that a remote recipe declares

On the server the two commands that declare dependencies write mode and name into a file,
and the completion of the build reads the file. The names are then taken from the directory
of the `.do` file, and options have been skipped.
-/
namespace Redo.Remote
open State Cache

/-- An argument of a process. -/
abbrev Arg := { t : Text // '\x00' ∉ t }

/-- What a recipe does, as far as its declarations go. -/
inductive Call where
  | cd (dir : Arg)
  | ifchange (args : List Arg)
  | ifcreate (args : List Arg)

/-- When a name is looked up: as the `i`-th of the `n`-th call, or as the `i`-th of the pairs that
the completion of the build applies. -/
inductive Moment where
  | call (n i : ℕ)
  | completion (i : ℕ)

/-- The client; its files and directories may be others at each call. -/
structure Client where
  dodir : Text
  chdir : ℕ → Text → Text → Option Text
  /-- A list of targets, read from the directory that is given, or from the input for `-`, with
  so many arguments behind it. -/
  readDepfile : ℕ → Text → ℕ → Text → Option Text
  /-- Whether the targets are brought up to date. -/
  build : ℕ → Text → List Text → Bool
  pathExists : ℕ → ℕ → Text → Text → Bool
  /-- The row of an absolute path, whose links are followed when it is looked up. -/
  row : Moment → Text → FileId
  alwaysRow : FileId
  /-- The row of the target that is being built. -/
  sf : FileId
  /-- The row that a call finds for the target. -/
  me : ℕ → FileId

/-- The work directory at a remote run. -/
structure Sandbox where
  chdir : ℕ → Text → Text → Option Text
  pathExists : ℕ → ℕ → Text → Text → Bool

def parseNewlineSeparatedTargets (content : Text) : List Text :=
  ((content.splitOn '\n').map fun line =>
    if line.getLast? = some '\r' then line.dropLast else line).filter (· ≠ [])

def parseNulSeparated (content : Text) : List Text := (content.splitOn '\x00').filter (· ≠ [])

/-- `redo-ifchange`; `read` gives the content of a list. -/
def parseTargets (read : ℕ → Text → Option Text) : List Text → Option (List Text)
  | [] => some []
  | [a] =>
    if a = "--".toList then some []
    else if a = "--from-file".toList ∨ a = "--from-file0".toList then none
    else some [a]
  | a :: b :: rest =>
    if a = "--".toList then some (b :: rest)
    else if a = "--from-file".toList then
      (read rest.length b).bind fun content =>
        (parseTargets read rest).map (parseNewlineSeparatedTargets content ++ ·)
    else if a = "--from-file0".toList then
      (read rest.length b).bind fun content => (parseTargets read rest).map (parseNulSeparated content ++ ·)
    else (parseTargets read (b :: rest)).map (a :: ·)

/-- `File::by_name`. -/
def Client.byName (c : Client) (m : Moment) (cwd name : Text) : FileId :=
  if name = "//ALWAYS".toList then c.alwaysRow else c.row m (join cwd name)

/-- `add_dep` for each of the names. -/
def Client.declared (c : Client) (target : FileId) (m : ℕ → Moment) (cwd : Text)
    (names : List (Char × Text)) : List Dep :=
  names.zipIdx.map fun p => { target, source := c.byName (m p.2) cwd p.1.2, mode := p.1.1 }

/-- Names that `redo-ifchange` takes. -/
def buildable (t : Text) : Bool := t ≠ [] && '\n' ∉ t

/-- What the calls record when the recipe runs here; `none` when one fails. -/
def localRun (c : Client) : ℕ → Text → List Call → Option (List Dep)
  | _, _, [] => some []
  | n, cwd, .cd dir :: rest => (c.chdir n cwd dir).bind fun cwd => localRun c (n + 1) cwd rest
  | n, cwd, .ifchange args :: rest =>
    if "--version".toList ∈ args.map Subtype.val then localRun c (n + 1) cwd rest
    else
      (parseTargets (c.readDepfile n cwd) (args.map Subtype.val)).bind fun targets =>
        if targets.all buildable && c.build n cwd targets then
          (localRun c (n + 1) cwd rest).map
            (c.declared (c.me n) (.call n) cwd (targets.map (('m', ·))) ++ ·)
        else none
  | n, cwd, .ifcreate args :: rest =>
    if args.zipIdx.all fun p => p.1.1 ≠ [] && !c.pathExists n p.2 cwd p.1.1 then
      (localRun c (n + 1) cwd rest).map
        (c.declared (c.me n) (.call n) cwd (args.map fun t => ('c', t.1)) ++ ·)
    else none

/-- The loop of the script that stands in for `redo-ifchange`. -/
def skipOptions : List Arg → List Arg
  | [] => []
  | t :: rest =>
    if t.1 = "--".toList then rest
    else if t.1.head? = some '-' then skipOptions rest
    else t :: rest

/-- What `printf` writes for one name. -/
def depEntry (mode : Char) (name : Text) : Text := mode :: '\x00' :: (name ++ ['\x00'])

/-- What the scripts write when the recipe runs on the server. -/
def remoteRun (s : Sandbox) : ℕ → Text → List Call → Option Text
  | _, _, [] => some []
  | n, cwd, .cd dir :: rest => (s.chdir n cwd dir).bind fun cwd => remoteRun s (n + 1) cwd rest
  | n, cwd, .ifchange args :: rest =>
    if (skipOptions args).zipIdx.all fun p => p.1.1 ≠ [] && s.pathExists n p.2 cwd p.1.1 then
      (remoteRun s (n + 1) cwd rest).map
        ((skipOptions args).flatMap (fun t => depEntry 'm' t.1) ++ ·)
    else none
  | n, cwd, .ifcreate args :: rest =>
    if args.zipIdx.all fun p => p.1.1 ≠ [] && !s.pathExists n p.2 cwd p.1.1 then
      (remoteRun s (n + 1) cwd rest).map (args.flatMap (fun t => depEntry 'c' t.1) ++ ·)
    else none

def pairUp : List Text → List (Char × Text)
  | mode :: dep :: rest =>
    let m := (trim mode).head?.getD '?'
    if m = 'm' ∨ m = 'c' then (m, dep) :: pairUp rest else pairUp rest
  | _ => []

def readDepsOut0 (content : Text) : List (Char × Text) := pairUp (parseNulSeparated content)

/-- What the completion of the build records. -/
def Client.applied (c : Client) (content : Text) : List Dep :=
  c.declared c.sf .completion c.dodir ((readDepsOut0 content).filter (·.2 ≠ []))

def record (db : Db) (deps : List Dep) : Db :=
  deps.foldl (fun db d => db.addDep d.target d.mode d.source) db

/-- The names of a call as `redo-ifchange` and `redo-ifcreate` read them. -/
def Client.namesRead (c : Client) (n : ℕ) (cwd : Text) : Call → List (Char × Text)
  | .cd _ => []
  | .ifchange args =>
    if "--version".toList ∈ args.map Subtype.val then []
    else ((parseTargets (c.readDepfile n cwd) (args.map Subtype.val)).getD []).map (('m', ·))
  | .ifcreate args => args.map fun t => ('c', t.1)

/-- The names of a call as the scripts take them. -/
def Call.namesTaken : Call → List (Char × Text)
  | .cd _ => []
  | .ifchange args => (skipOptions args).map fun t => ('m', t.1)
  | .ifcreate args => args.map fun t => ('c', t.1)

def Client.after (c : Client) (n : ℕ) (cwd : Text) : Call → Text
  | .cd dir => (c.chdir n cwd dir).getD cwd
  | .ifchange _ => cwd
  | .ifcreate _ => cwd

/-- The files that a recipe names, each name taken from where it is used, and when. -/
def Client.reads (c : Client) : ℕ → Text → List Call → List Dep
  | _, _, [] => []
  | n, cwd, call :: rest =>
    c.declared (c.me n) (.call n) cwd (c.namesRead n cwd call) ++
      c.reads (n + 1) (c.after n cwd call) rest

/-- The files that the scripts name, all taken from the directory of the `.do` file in the end. -/
def Client.takes (c : Client) (recipe : List Call) : List Dep :=
  c.declared c.sf .completion c.dodir (recipe.flatMap Call.namesTaken)

/-- The mode with which a file is named last for a target. -/
def lastMode (deps : List Dep) (target file : FileId) : Option Char :=
  (deps.reverse.find? fun d => d.target = target ∧ d.source = file).map Dep.mode

def SameDeps (db db' : Db) : Prop := ∀ d, d ∈ db.deps ↔ d ∈ db'.deps

theorem parseNulSeparated_cons {t : Text} (ht : '\x00' ∉ t) (hne : t ≠ []) (rest : Text) :
    parseNulSeparated (t ++ '\x00' :: rest) = t :: parseNulSeparated rest := by
  have hsplit : (t ++ '\x00' :: rest).splitOn '\x00' = t :: rest.splitOn '\x00' := by
    rw [List.splitOn_eq_splitOnP, List.splitOn_eq_splitOnP]
    apply List.splitOnP_append_cons_of_forall_mem
    · intro c hc
      rw [beq_eq_false_iff_ne]
      rintro rfl
      exact ht hc
    · rfl
  rw [parseNulSeparated, hsplit, List.filter_cons_of_pos (by simpa using hne)]
  rfl

/-- The file of dependencies is read back as it was written. -/
theorem readDepsOut0_flatMap {pairs : List (Char × Text)} (rest : Text)
    (hmode : ∀ p ∈ pairs, p.1 = 'm' ∨ p.1 = 'c') (hname : ∀ p ∈ pairs, '\x00' ∉ p.2 ∧ p.2 ≠ []) :
    readDepsOut0 (pairs.flatMap (fun p => depEntry p.1 p.2) ++ rest) =
      pairs ++ readDepsOut0 rest := by
  induction pairs with
  | nil => rfl
  | cons p pairs ih =>
    obtain ⟨mode, name⟩ := p
    have hm := hmode _ List.mem_cons_self
    obtain ⟨hnul, hne⟩ := hname _ List.mem_cons_self
    have hrest := ih (fun q hq => hmode q (List.mem_cons_of_mem _ hq))
      fun q hq => hname q (List.mem_cons_of_mem _ hq)
    have hentry : parseNulSeparated
        (((mode, name) :: pairs).flatMap (fun p => depEntry p.1 p.2) ++ rest) =
        [mode] :: name :: parseNulSeparated (pairs.flatMap (fun p => depEntry p.1 p.2) ++ rest) := by
      have hmodeNul : '\x00' ∉ [mode] := by
        rcases hm with rfl | rfl <;> decide
      have hlist : ((mode, name) :: pairs).flatMap (fun p => depEntry p.1 p.2) ++ rest =
          [mode] ++ '\x00' :: (name ++ '\x00' :: (pairs.flatMap (fun p => depEntry p.1 p.2) ++ rest)) := by
        simp [List.flatMap_cons, depEntry]
      rw [hlist, parseNulSeparated_cons hmodeNul (List.cons_ne_nil _ _),
        parseNulSeparated_cons hnul hne]
    rw [readDepsOut0, hentry, pairUp]
    have htrim : (trim [mode]).head?.getD '?' = mode := by
      rcases hm with rfl | rfl <;> decide
    simp only [htrim, hm, if_true]
    rw [readDepsOut0] at hrest
    rw [hrest]
    rfl

theorem lastMode_cons (d : Dep) (deps : List Dep) (target file : FileId) :
    lastMode (d :: deps) target file =
      (lastMode deps target file).or
        (if d.target = target ∧ d.source = file then some d.mode else none) := by
  rw [lastMode, lastMode, List.reverse_cons, List.find?_append]
  cases deps.reverse.find? fun d => d.target = target ∧ d.source = file with
  | none =>
    by_cases h : d.target = target ∧ d.source = file <;> simp [h]
  | some q => rfl

theorem mem_addDep {db : Db} {target file : FileId} {mode : Char} {d : Dep} :
    d ∈ (db.addDep target mode file).deps ↔
      (d ∈ db.deps ∧ ¬(d.target = target ∧ d.source = file)) ∨
        d = { target := target, source := file, mode := mode } := by
  simp only [Db.addDep, List.mem_append, List.mem_filter, List.mem_singleton, decide_eq_true_eq]

/-- A file that was named has one row, with the mode of its last name; the others keep theirs. -/
theorem mem_record {db : Db} (deps : List Dep) {d : Dep} :
    d ∈ (record db deps).deps ↔
      match lastMode deps d.target d.source with
      | some m => d = { target := d.target, source := d.source, mode := m }
      | none => d ∈ db.deps := by
  induction deps generalizing db with
  | nil => rfl
  | cons e deps ih =>
    rw [record, List.foldl_cons, ← record, ih, lastMode_cons]
    cases hlast : lastMode deps d.target d.source with
    | some m => rfl
    | none =>
      by_cases he : e.target = d.target ∧ e.source = d.source
      · simp only [Option.none_or, he.1, he.2, and_self, if_true, mem_addDep]
        simp
      · have hne : d ≠ { target := e.target, source := e.source, mode := e.mode } := by
          intro hd
          rw [hd] at he
          exact he ⟨rfl, rfl⟩
        simp only [Option.none_or, if_neg he, mem_addDep, hne, or_false]
        constructor
        · exact fun h => h.1
        · exact fun h => ⟨h, fun hs => he ⟨hs.1.symm, hs.2.symm⟩⟩

theorem mem_record_empty (deps : List Dep) (target file : FileId) (m : Char) :
    { target := target, source := file, mode := m } ∈ (record {} deps).deps ↔
      lastMode deps target file = some m := by
  rw [mem_record]
  simp only
  cases lastMode deps target file with
  | none => simp
  | some m' => simp [eq_comm]

theorem sameDeps_iff (deps deps' : List Dep) :
    (∀ db, SameDeps (record db deps) (record db deps')) ↔
      ∀ target file, lastMode deps target file = lastMode deps' target file := by
  constructor
  · intro h target file
    apply Option.ext
    intro m
    have hsame := h {} { target := target, source := file, mode := m }
    rw [mem_record_empty, mem_record_empty] at hsame
    exact hsame
  · intro h db d
    rw [mem_record, mem_record, h]

theorem localRun_reads {c : Client} {n : ℕ} {cwd : Text} {recipe : List Call} {deps : List Dep}
    (h : localRun c n cwd recipe = some deps) : deps = c.reads n cwd recipe := by
  induction recipe generalizing n cwd deps with
  | nil =>
    cases h
    rfl
  | cons call rest ih =>
    cases call with
    | cd dir =>
      rw [localRun] at h
      obtain ⟨cwd', hcwd, hrest⟩ := Option.bind_eq_some_iff.mp h
      rw [Client.reads, Client.after, hcwd, ih hrest]
      rfl
    | ifchange args =>
      rw [localRun] at h
      split at h
      · next hversion =>
        rw [Client.reads, Client.after, Client.namesRead, if_pos hversion, ih h]
        rfl
      · next hversion =>
        obtain ⟨targets, htargets, hrest⟩ := Option.bind_eq_some_iff.mp h
        split at hrest
        · obtain ⟨deps', hdeps, rfl⟩ := Option.map_eq_some_iff.mp hrest
          rw [Client.reads, Client.after, Client.namesRead, if_neg hversion, htargets, ih hdeps]
          rfl
        · cases hrest
    | ifcreate args =>
      rw [localRun] at h
      split at h
      · obtain ⟨deps', hdeps, rfl⟩ := Option.map_eq_some_iff.mp h
        rw [Client.reads, Client.after, Client.namesRead, ih hdeps]
      · cases h

theorem mem_zipIdx_of_mem {α : Type} {l : List α} {a : α} (h : a ∈ l) : ∃ i, (a, i) ∈ l.zipIdx := by
  rw [← List.zipIdx_map_fst 0 l] at h
  obtain ⟨⟨a', i⟩, hp, rfl⟩ := List.mem_map.mp h
  exact ⟨i, hp⟩

/-- The names that pass the checks of a script can be read back. -/
theorem written_names {mode : Char} (hmode : mode = 'm' ∨ mode = 'c')
    {args : List Arg} {found : Arg × ℕ → Bool}
    (h : args.zipIdx.all (fun p => p.1.1 ≠ [] && found p) = true) :
    ∀ p ∈ args.map (fun t => (mode, t.1)), (p.1 = 'm' ∨ p.1 = 'c') ∧ '\x00' ∉ p.2 ∧ p.2 ≠ [] := by
  intro p hp
  obtain ⟨t, ht, rfl⟩ := List.mem_map.mp hp
  obtain ⟨i, hi⟩ := mem_zipIdx_of_mem ht
  have hok := List.all_eq_true.mp h _ hi
  simp only [Bool.and_eq_true, decide_eq_true_eq] at hok
  exact ⟨hmode, t.2, hok.1⟩

/-- What the completion reads back are the names that the scripts took. -/
theorem remoteRun_names {s : Sandbox} {n : ℕ} {cwd : Text} {recipe : List Call} {content : Text}
    (h : remoteRun s n cwd recipe = some content) :
    readDepsOut0 content = recipe.flatMap Call.namesTaken ∧
      ∀ p ∈ recipe.flatMap Call.namesTaken, p.2 ≠ [] := by
  induction recipe generalizing n cwd content with
  | nil =>
    cases h
    exact ⟨rfl, fun p hp => by cases hp⟩
  | cons call rest ih =>
    rw [List.flatMap_cons]
    -- every call but `cd` writes its names in front of what follows
    have hwrites : ∀ {content' : Text}, remoteRun s (n + 1) cwd rest = some content' →
        (∀ p ∈ call.namesTaken, (p.1 = 'm' ∨ p.1 = 'c') ∧ '\x00' ∉ p.2 ∧ p.2 ≠ []) →
        content = call.namesTaken.flatMap (fun p => depEntry p.1 p.2) ++ content' →
        readDepsOut0 content = call.namesTaken ++ rest.flatMap Call.namesTaken ∧
          ∀ p ∈ call.namesTaken ++ rest.flatMap Call.namesTaken, p.2 ≠ [] := by
      intro content' hrest hnames hcontent
      obtain ⟨hread, hne⟩ := ih hrest
      constructor
      · rw [hcontent, readDepsOut0_flatMap content' (fun p hp => (hnames p hp).1)
          fun p hp => (hnames p hp).2, hread]
      · intro p hp
        rcases List.mem_append.mp hp with hp | hp
        · exact (hnames p hp).2.2
        · exact hne p hp
    cases call with
    | cd dir =>
      rw [remoteRun] at h
      obtain ⟨cwd', -, hrest⟩ := Option.bind_eq_some_iff.mp h
      exact ih hrest
    | ifchange args =>
      rw [remoteRun] at h
      split at h
      · next hall =>
        obtain ⟨content', hrest, rfl⟩ := Option.map_eq_some_iff.mp h
        exact hwrites hrest (written_names (.inl rfl) hall) (by rw [Call.namesTaken, List.flatMap_map])
      · cases h
    | ifcreate args =>
      rw [remoteRun] at h
      split at h
      · next hall =>
        obtain ⟨content', hrest, rfl⟩ := Option.map_eq_some_iff.mp h
        exact hwrites hrest (written_names (.inr rfl) hall) (by rw [Call.namesTaken, List.flatMap_map])
      · cases h

theorem applied_takes {c : Client} {s : Sandbox} {n : ℕ} {cwd : Text} {recipe : List Call}
    {content : Text} (h : remoteRun s n cwd recipe = some content) :
    c.applied content = c.takes recipe := by
  obtain ⟨hread, hne⟩ := remoteRun_names h
  rw [Client.applied, hread, List.filter_eq_self.mpr, Client.takes]
  intro p hp
  simpa using hne p hp

/-- A recipe beside `/p/x`, on a file system where every file is there and nothing changes. -/
def beside : Client where
  dodir := "/p".toList
  chdir _ cwd dir := some (join cwd dir)
  readDepfile _ _ _ _ := none
  build _ _ _ := true
  pathExists _ _ _ _ := true
  row _ path := if path = "/p/x".toList then 1 else if path = "/p/sub/x".toList then 2 else 3
  alwaysRow := 0
  sf := 4
  me _ := 4

def sandbox : Sandbox where
  chdir _ cwd dir := some (join cwd dir)
  pathExists _ _ _ _ := true

theorem nul_notMem_x : '\x00' ∉ "x".toList := by decide

theorem nul_notMem_sub : '\x00' ∉ "sub".toList := by decide

theorem nul_notMem_path : '\x00' ∉ "/p/x".toList := by decide

/-- `redo-ifchange x` and, in `sub`, `redo-ifchange /p/x`. -/
def atHome : List Call :=
  [.ifchange [⟨_, nul_notMem_x⟩], .cd ⟨_, nul_notMem_sub⟩, .ifchange [⟨_, nul_notMem_path⟩]]

/-- `redo-ifchange x` in `sub`. -/
def inSub : List Call := [.cd ⟨_, nul_notMem_sub⟩, .ifchange [⟨_, nul_notMem_x⟩]]

/-- What the names of the recipe stand for is the same at each call and in the end. -/
structure Client.Steady (c : Client) : Prop where
  rows : ∀ m m' path, c.row m path = c.row m' path
  me : ∀ n, c.me n = c.sf

theorem Client.Steady.byName {c : Client} (h : c.Steady) (m m' : Moment) (cwd name : Text) :
    c.byName m cwd name = c.byName m' cwd name := by
  rw [Client.byName, Client.byName, h.rows m m']

/-- A call whose names are read and taken alike, and stand for the same files in its
directory and in that of the `.do` file. -/
structure Call.Plain (c : Client) (n : ℕ) (cwd : Text) (call : Call) : Prop where
  names : c.namesRead n cwd call = call.namesTaken
  files : ∀ m, ∀ p ∈ call.namesTaken, c.byName m cwd p.2 = c.byName m c.dodir p.2

def Client.AllPlain (c : Client) : ℕ → Text → List Call → Prop
  | _, _, [] => True
  | n, cwd, call :: rest => call.Plain c n cwd ∧ c.AllPlain (n + 1) (c.after n cwd call) rest

theorem skipOptions_of_no_dash {args : List Arg} (h : ∀ t ∈ args, t.1.head? ≠ some '-') :
    skipOptions args = args := by
  cases args with
  | nil => rfl
  | cons t rest =>
    have ht := h t List.mem_cons_self
    rw [skipOptions, if_neg, if_neg ht]
    intro he
    rw [he] at ht
    exact ht rfl

/-- Names without a dash in front are no options. -/
theorem namesRead_of_no_dash {args : List Arg} (h : ∀ t ∈ args, t.1.head? ≠ some '-') (c : Client)
    (n : ℕ) (cwd : Text) :
    c.namesRead n cwd (.ifchange args) = (Call.ifchange args).namesTaken := by
  have hversion : "--version".toList ∉ args.map Subtype.val := by
    intro hmem
    obtain ⟨t, ht, he⟩ := List.mem_map.mp hmem
    exact h t ht (by rw [he]; rfl)
  have hparse : ∀ l : List Text, (∀ t ∈ l, t.head? ≠ some '-') →
      parseTargets (c.readDepfile n cwd) l = some l := by
    intro l hl
    have hoption : ∀ t ∈ l, ∀ option : String, option.toList.head? = some '-' →
        t ≠ option.toList := by
      rintro t ht option ho rfl
      exact hl _ ht ho
    induction l with
    | nil => rfl
    | cons a rest ih =>
      have ha := hoption a List.mem_cons_self
      cases rest with
      | nil =>
        rw [parseTargets, if_neg (ha _ rfl), if_neg (not_or.mpr ⟨ha _ rfl, ha _ rfl⟩)]
      | cons b rest =>
        have hrest := ih (fun t ht => hl t (List.mem_cons_of_mem _ ht))
          fun t ht => hoption t (List.mem_cons_of_mem _ ht)
        rw [parseTargets, if_neg (ha _ rfl), if_neg (ha _ rfl), if_neg (ha _ rfl), hrest]
        rfl
  have hargs : ∀ t ∈ args.map Subtype.val, t.head? ≠ some '-' := by
    intro t ht
    obtain ⟨x, hx, rfl⟩ := List.mem_map.mp ht
    exact h x hx
  rw [Client.namesRead, if_neg hversion, hparse _ hargs, Call.namesTaken, skipOptions_of_no_dash h]
  simp

theorem declared_of_steady {c : Client} (h : c.Steady) (target : FileId) (m : ℕ → Moment)
    (cwd : Text) (names : List (Char × Text)) :
    c.declared target m cwd names = names.map fun p =>
      { target, source := c.byName (.completion 0) cwd p.2, mode := p.1 } := by
  nth_rewrite 2 [← List.zipIdx_map_fst 0 names]
  rw [List.map_map, Client.declared]
  apply List.map_congr_left
  intro p _
  rw [Function.comp_apply, h.byName (m p.2) (.completion 0)]

/-- Recipes of plain calls record the same remotely, as long as nothing moves. -/
theorem reads_of_plain {c : Client} (hsteady : c.Steady) {n : ℕ} {cwd : Text} {recipe : List Call}
    (h : c.AllPlain n cwd recipe) : c.reads n cwd recipe = c.takes recipe := by
  induction recipe generalizing n cwd with
  | nil => rfl
  | cons call rest ih =>
    obtain ⟨hplain, hrest⟩ := h
    have htakes := ih hrest
    rw [Client.takes, declared_of_steady hsteady] at htakes
    rw [Client.reads, hplain.names, htakes, Client.takes, declared_of_steady hsteady,
      declared_of_steady hsteady, List.flatMap_cons, List.map_append, hsteady.me]
    congr 1
    apply List.map_congr_left
    intro p hp
    rw [hplain.files _ p hp]

theorem plain_rows_same {c : Client} {s : Sandbox} {start : Text} {recipe : List Call}
    {deps : List Dep} {content : Text} (here : localRun c 0 c.dodir recipe = some deps)
    (there : remoteRun s 0 start recipe = some content) (hsteady : c.Steady)
    (h : c.AllPlain 0 c.dodir recipe) (db : Db) :
    SameDeps (record db deps) (record db (c.applied content)) := by
  rw [localRun_reads here, applied_takes there, reads_of_plain hsteady h]
  intro d
  rfl

theorem plain_of_dodir {c : Client} {n : ℕ} {args : List Arg}
    (h : ∀ t ∈ args, t.1.head? ≠ some '-') : (Call.ifchange args).Plain c n c.dodir where
  names := namesRead_of_no_dash h c n c.dodir
  files _ _ _ := rfl

/-- Absolute names may be used anywhere. -/
theorem plain_of_absolute {c : Client} {n : ℕ} {cwd : Text} {args : List Arg}
    (h : ∀ t ∈ args, isAbsolute t.1) : (Call.ifchange args).Plain c n cwd := by
  have hdash : ∀ t ∈ args, t.1.head? ≠ some '-' := by
    intro t ht he
    have := h t ht
    rw [isAbsolute, he] at this
    cases this
  constructor
  · exact namesRead_of_no_dash hdash c n cwd
  · intro m p hp
    rw [Call.namesTaken, skipOptions_of_no_dash hdash] at hp
    obtain ⟨t, ht, rfl⟩ := List.mem_map.mp hp
    rw [Client.byName, Client.byName, join, join, if_pos (h t ht), if_pos (h t ht)]

end Redo.Remote
