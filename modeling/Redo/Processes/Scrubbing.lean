import Redo.Cache.Metadata
import Redo.Processes.Nesting
import Redo.Remote.Downloads

/-! # Recipes under `redo-trace`

In strict mode a recipe is started by way of `redo-trace`, with only some of the variables. Its
command line is the same, and the commands that it calls find the same settings.
-/
namespace Redo.Processes
open State Remote Logs Paths Cache

section CommandLine

/-- The flags of the shell. -/
def shflag (verbose xtrace : ℤ) : Text :=
  "-e".toList ++ (if 0 < verbose then ['v'] else []) ++ (if 0 < xtrace then ['x'] else [])

/-- The words of an interpreter line. -/
def interpreter (content : Option Text) : List Text :=
  match content.bind fun c => (lines c).head? with
  | some line => if "#!".toList.isPrefixOf line then Downloads.splitWhitespace (trim (line.drop 2)) else []
  | none => []

/-- The `.do` file by its name and by what can be read of it, and the three arguments. -/
structure Script where
  dofile : Text
  content : Option Text
  arg1 : Text
  arg2 : Text
  arg3 : Text

/-- The command line that `exec_dofile_in_child` makes up itself. -/
def Script.argv (s : Script) (verbose xtrace : ℤ) : List Text :=
  let argv := ["/bin/sh".toList, shflag verbose xtrace, s.dofile, s.arg1, s.arg2, s.arg3]
  match interpreter s.content with
  | [] => argv
  | program :: options => program :: options ++ argv.drop 2

/-- The command line under `redo-trace`. -/
def wrapped (traceOut0 : Text) (argv : List Text) : List Text :=
  ["redo-trace".toList, "--trace-out0".toList, traceOut0, "--mode".toList, "read".toList, "--".toList] ++ argv

/-- What `redo-trace` takes from its arguments. -/
structure TraceArgs where
  traceOut0 : Option Text := none
  mode : Text := "read".toList
  argv : List Text := []
deriving DecidableEq

/-- Nothing for `--help`. -/
def TraceArgs.parse : TraceArgs → List Text → Option TraceArgs
  | t, [] => some t
  | t, a :: rest =>
    if a = "--trace-out0".toList then
      match rest with
      | [] => some { t with traceOut0 := some [] }
      | p :: rest => TraceArgs.parse { t with traceOut0 := some p } rest
    else if a = "--mode".toList then
      match rest with
      | [] => some { t with mode := "read".toList }
      | mode :: rest => TraceArgs.parse { t with mode } rest
    else if a = "--".toList then some { t with argv := t.argv ++ rest }
    else if a = "--help".toList ∨ a = "-h".toList then none
    else TraceArgs.parse t rest

/-- What `redo-trace` runs, and the file for what it finds. -/
def traced (args : List Text) : Option (Text × List Text) :=
  (TraceArgs.parse {} args).bind fun t =>
    t.traceOut0.bind fun p => if t.argv = [] ∨ t.mode ≠ "read".toList then none else some (p, t.argv)

end CommandLine

section Variables

def KEPT : List String :=
  ["REDO", "MAKEFLAGS", "REDO_CHEATFDS", "PATH", "TMPDIR", "TMP", "TEMP", "LANG", "LC_ALL", "TERM"]

/-- `env_keep_list`, with what the user allows. -/
def envKeepList (vars : Vars) : List String :=
  KEPT ++ match vars "REDO_STRICT_ENV_ALLOW" with
    | some v => (((v.splitOn ',').map trim).filter (· ≠ [])).map String.ofList
    | none => []

def isKept (vars : Vars) (name : String) : Bool :=
  "REDO_".toList.isPrefixOf name.toList || decide (name ∈ envKeepList vars)

/-- An empty directory of this process. -/
def strictHome (pid : ℕ) (vars : Vars) : Text :=
  let top := (vars "REDO_BASE").getD ((vars "TMPDIR").getD "/tmp".toList)
  push (push (push top ".redo".toList) "strict-home".toList) (Nat.toDigits 10 pid)

def keptVars (vars : Vars) : Vars := fun name => if isKept vars name then vars name else none

def buildScrubbedEnv (pid : ℕ) (vars : Vars) : Vars :=
  if (keptVars vars "HOME").isNone then (keptVars vars).set "HOME" (strictHome pid vars)
  else keptVars vars

end Variables

/-- The variables that commands of redo look at. -/
def Heard (name : String) : Prop :=
  "REDO_".toList.isPrefixOf name.toList = true ∨ name ∈ ["REDO", "MAKEFLAGS", "PATH"]

instance (name : String) : Decidable (Heard name) := inferInstanceAs (Decidable (_ ∨ _))

def Alike (vars vars' : Vars) : Prop := ∀ name, Heard name → vars' name = vars name

variable {vars vars' : Vars} {name : String} {m m' : Memory} {o : Outside} {pid : ℕ}

/-- What is heard gets through. -/
theorem alike_buildScrubbedEnv (pid : ℕ) (vars : Vars) : Alike vars (buildScrubbedEnv pid vars) := by
  intro name hname
  have hkept : isKept vars name = true := by
    rw [isKept, Bool.or_eq_true, decide_eq_true_eq, envKeepList, List.mem_append]
    rcases hname with hstart | hmem
    · exact .inl hstart
    · refine .inr (.inl ?_)
      revert name
      decide
  have hhome : name ≠ "HOME" := by
    rintro rfl
    exact absurd hname (by decide)
  have hvalue : keptVars vars name = vars name := if_pos hkept
  unfold buildScrubbedEnv
  split
  · rw [Vars.set_of_ne hhome, hvalue]
  · exact hvalue

namespace Alike

theorem get (h : Alike vars vars') (hname : Heard name) : vars'.get name = vars.get name :=
  Vars.get_congr (h name hname)

theorem set (h : Alike vars vars') (name : String) (value : Text) :
    Alike (vars.set name value) (vars'.set name value) := by
  intro other hother
  by_cases hne : other = name
  · rw [hne, Vars.set_self, Vars.set_self]
  · rw [Vars.set_of_ne hne, Vars.set_of_ne hne, h other hother]

theorem fromEnv (h : Alike vars vars') : Env.fromEnv vars' = Env.fromEnv vars := by
  have hget : ∀ name, Heard name → vars'.get name = vars.get name := fun name => h.get
  have hsame : ∀ name, Heard name → vars' name = vars name := h
  simp (disch := decide) only [Env.fromEnv, Vars.getBool, hget, hsame]

theorem prependPath (h : Alike vars vars') (o : Launch) : Alike (o.prependPath vars) (o.prependPath vars') := by
  have hno : vars'.get "REDO_NO_PATH_PREPEND" = vars.get "REDO_NO_PATH_PREPEND" := h.get (by decide)
  have hpath : vars'.get "PATH" = vars.get "PATH" := h.get (by decide)
  unfold Launch.prependPath
  rw [hno, hpath]
  by_cases hprepend : vars.get "REDO_NO_PATH_PREPEND" = [] ∧ o.tryNames.eraseDups ≠ []
  · rw [if_pos hprepend, if_pos hprepend]
    exact h.set _ _
  · rw [if_neg hprepend, if_neg hprepend]
    exact h

theorem setup (h : Alike vars vars') (d : Descriptors) (maxjobs : ℤ) :
    Option.Rel (fun x y => x.1 = y.1 ∧ Alike x.2 y.2) (d.setup maxjobs vars) (d.setup maxjobs vars') := by
  have hflags : parseMakeflags vars' = parseMakeflags vars := by
    rw [parseMakeflags, parseMakeflags, h.get (by decide)]
  have hcheat : d.cheatfds maxjobs vars' = d.cheatfds maxjobs vars := by
    rw [Descriptors.cheatfds, Descriptors.cheatfds, h "REDO_CHEATFDS" (by decide)]
  unfold Descriptors.setup
  simp only [hflags, hcheat]
  split
  · exact .none
  · generalize (if maxjobs = 0 then parseMakeflags vars else none) = tokenfds
    cases d.cheatfds maxjobs vars with
    | some fds =>
      cases tokenfds with
      | some _ => exact .some ⟨rfl, h⟩
      | none => exact .some ⟨rfl, h.set _ _⟩
    | none =>
      cases tokenfds with
      | some _ => exact .some ⟨rfl, h.set _ _⟩
      | none => exact .some ⟨rfl, (h.set _ _).set _ _⟩

end Alike

/-- Two processes that differ in variables nobody hears of. -/
structure SameMemory (m m' : Memory) : Prop where
  vars : Alike m.vars m'.vars
  unlocked : m'.unlockedLatch = m.unlockedLatch
  noOob : m'.noOobLatch = m.noOobLatch
  toplevel : m'.isToplevel = m.isToplevel

namespace SameMemory

theorem v (h : SameMemory m m') : m'.v = m.v := by
  rw [Memory.v, Memory.v, h.vars.fromEnv, h.unlocked, h.noOob]

theorem set (h : SameMemory m m') (name : String) (value : Text) :
    SameMemory { m with vars := m.vars.set name value } { m' with vars := m'.vars.set name value } :=
  { h with vars := h.vars.set name value }

theorem inherit (h : SameMemory m m') : Option.Rel SameMemory m.inherit m'.inherit := by
  rw [Memory.inherit, Memory.inherit, h.vars "REDO" (by decide)]
  split_ifs
  · exact .none
  · rw [h.vars.fromEnv, h.unlocked, h.noOob]
    exact .some { h with vars := (h.vars.set _ _).set _ _, unlocked := rfl, noOob := rfl }

theorem first (h : SameMemory m m') (o : Launch) : SameMemory (m.first o) (m'.first o) := by
  rw [Memory.first, Memory.first, h.vars "REDO" (by decide)]
  split_ifs
  · exact { h with vars := (h.vars.prependPath o).set _ _, toplevel := rfl }
  · exact h

theorem based (h : SameMemory m m') (o : Launch) (ts : List Text) :
    SameMemory (m.based o ts) (m'.based o ts) := by
  rw [Memory.based, Memory.based, h.vars "REDO_BASE" (by decide)]
  split_ifs
  · exact { h with vars := (h.vars.set _ _).set _ _ }
  · exact h

theorem checkLocks (h : SameMemory m m') (broken : Bool) :
    Option.Rel SameMemory (m.checkLocks broken) (m'.checkLocks broken) := by
  rw [Memory.checkLocks, Memory.checkLocks, h.toplevel]
  split_ifs
  · exact ((h.set _ _).set _ _).inherit
  · exact .some h

theorem ensureRunid (h : SameMemory m m') (id : ℕ) :
    Option.Rel SameMemory (m.ensureRunid id) (m'.ensureRunid id) := by
  rw [Memory.ensureRunid, Memory.ensureRunid, h.v]
  split_ifs
  · exact .some h
  · exact (h.set _ _).inherit

end SameMemory

theorem rel_bind {α β γ δ : Type} {R : α → β → Prop} {S : γ → δ → Prop} {x : Option α} {y : Option β}
    {f : α → Option γ} {g : β → Option δ} (h : Option.Rel R x y)
    (hfg : ∀ a b, R a b → Option.Rel S (f a) (g b)) : Option.Rel S (x.bind f) (y.bind g) := by
  cases h with
  | some hab => exact hfg _ _ hab
  | none => exact .none

theorem SameMemory.stateInit (h : SameMemory m m') (o : Launch) (ts : List Text) (b : Bool × Bool)
    (id : ℕ) : Option.Rel SameMemory (m.stateInit o ts b id) (m'.stateInit o ts b id) :=
  rel_bind ((h.first o).based o ts).inherit fun _ _ h =>
    rel_bind (h.checkLocks b.1) fun _ _ h =>
      rel_bind (h.ensureRunid id) fun _ _ h => h.checkLocks b.2

/-- What the commands below are told of a process, when it starts. -/
def SameStart (x y : Memory × Jobserver) : Prop := SameMemory x.1 y.1 ∧ x.2 = y.2

theorem SameStart.of_setup (hm : SameMemory m m') (d : Descriptors) (maxjobs : ℤ) :
    Option.Rel SameStart
      ((d.setup maxjobs m.vars).bind fun x => some ({ m with vars := x.2 }, x.1))
      ((d.setup maxjobs m'.vars).bind fun x => some ({ m' with vars := x.2 }, x.1)) :=
  rel_bind (hm.vars.setup d maxjobs) fun _ _ h => .some ⟨{ hm with vars := h.2 }, h.1⟩

theorem Alike.startIfchange (h : Alike vars vars') (o : Outside) (ts : List Text) :
    Option.Rel SameStart (o.startIfchange ts vars) (o.startIfchange ts vars') := by
  have hfresh : SameMemory { vars } { vars := vars' } := ⟨h, rfl, rfl, rfl⟩
  exact rel_bind (hfresh.stateInit o.toLaunch ts o.lockBroken o.newRunid) fun _ _ hm =>
    SameStart.of_setup hm o.toDescriptors 0

/-- Options do not depend on variables. -/
structure SameArgs (r r' : RedoArgs) : Prop where
  vars : Alike r.vars r'.vars
  rest : r' = { r with vars := r'.vars }

theorem SameArgs.take {r r' : RedoArgs} (h : SameArgs r r') (a : Text) : SameArgs (r.take a) (r'.take a) := by
  obtain ⟨hvars, hrest⟩ := h
  rw [hrest]
  unfold RedoArgs.take
  cases redoFlag a with
  | some p => exact ⟨hvars.set _ _, rfl⟩
  | none =>
    simp only
    split_ifs <;> exact ⟨hvars, rfl⟩

theorem SameArgs.parse {r r' : RedoArgs} (h : SameArgs r r') (args : List Text) :
    SameArgs (r.parse args) (r'.parse args) := by
  fun_induction RedoArgs.parse r args generalizing r' with
  | case1 => exact h
  | case2 r a hj =>
    have hlast (r : RedoArgs) : r.parse [a] = { r with jobs := 0 } := by
      rw [RedoArgs.parse.eq_def]
      exact if_pos hj
    rw [hlast]
    exact ⟨h.vars, by rw [h.rest]⟩
  | case3 r a hj n rest ih =>
    rw [RedoArgs.parse, if_pos hj]
    exact ih ⟨h.vars, by rw [h.rest]⟩
  | case4 r a rest hj ih =>
    have hcons (r : RedoArgs) : r.parse (a :: rest) = (r.take a).parse rest := by
      rw [RedoArgs.parse.eq_def]
      exact if_neg hj
    rw [hcons]
    exact ih (h.take a)

theorem Alike.setDefint (h : Alike vars vars') (hname : Heard name) (value : ℤ) :
    Alike (vars.setDefint name value) (vars'.setDefint name value) := by
  rw [Vars.setDefint, Vars.setDefint, h name hname]
  split
  · exact h.set _ _
  · exact h

theorem SameArgs.defaults {r r' : RedoArgs} (h : SameArgs r r') : Alike r.defaults r'.defaults := by
  obtain ⟨hvars, hrest⟩ := h
  unfold RedoArgs.defaults
  rw [hvars "REDO_LOG" (by decide)]
  have hpretty : r'.pretty = r.pretty := by rw [hrest]
  have hcolor : r'.color = r.color := by rw [hrest]
  rw [hpretty, hcolor]
  exact ((hvars.setDefint (by decide) _).setDefint (by decide) _).setDefint (by decide) _

theorem Alike.startRedo (h : Alike vars vars') (o : Outside) (args : List Text) :
    Option.Rel SameStart (o.startRedo args vars) (o.startRedo args vars') := by
  have hargs : SameArgs (RedoArgs.parse { vars } args) (RedoArgs.parse { vars := vars' } args) :=
    SameArgs.parse ⟨h, rfl⟩ args
  have htargets := congrArg RedoArgs.targets hargs.rest
  have hjobs := congrArg RedoArgs.jobs hargs.rest
  have hfresh : SameMemory { vars := (RedoArgs.parse { vars } args).defaults }
      { vars := (RedoArgs.parse { vars := vars' } args).defaults } := ⟨hargs.defaults, rfl, rfl, rfl⟩
  simp only at htargets hjobs
  unfold Outside.startRedo
  simp only [htargets, hjobs]
  refine rel_bind (hfresh.stateInit o.toLaunch _ o.lockBroken o.newRunid) fun m m' hm => ?_
  have hlog : (m'.isToplevel && decide (m.v.log ≠ 0)) = (m.isToplevel && decide (m.v.log ≠ 0)) := by
    rw [hm.toplevel]
  have htop (b : Bool) : (m'.isToplevel || b) = (m.isToplevel || b) := by rw [hm.toplevel]
  simp only [hm.v, hlog, htop]
  by_cases hset : (m.isToplevel && decide (m.v.log ≠ 0)) = true
  · simp only [hset, if_true]
    exact SameStart.of_setup (hm.set _ _) o.toDescriptors _
  · simp only [hset]
    exact SameStart.of_setup hm o.toDescriptors _

theorem kept_congr (hsame : ∀ name, isKept vars name = true → vars' name = vars name) :
    isKept vars' = isKept vars := by
  funext name
  have hallow : vars' "REDO_STRICT_ENV_ALLOW" = vars "REDO_STRICT_ENV_ALLOW" :=
    hsame _ (by rw [isKept, Bool.or_eq_true]; exact .inl (by decide))
  rw [isKept, isKept, envKeepList, envKeepList, hallow]

/-- What a scrubbed process is given depends on nothing else. -/
theorem scrubbed_congr (hsame : ∀ name, isKept vars name = true → vars' name = vars name) :
    buildScrubbedEnv pid vars' = buildScrubbedEnv pid vars := by
  have hkept : keptVars vars' = keptVars vars := by
    funext name
    rw [keptVars, keptVars, kept_congr hsame]
    split
    · rename_i hname
      exact hsame name hname
    · rfl
  have hbase : vars' "REDO_BASE" = vars "REDO_BASE" :=
    hsame _ (by rw [isKept, Bool.or_eq_true]; exact .inl (by decide))
  have htmp : vars' "TMPDIR" = vars "TMPDIR" := by
    refine hsame _ ?_
    rw [isKept, Bool.or_eq_true, decide_eq_true_eq, envKeepList, List.mem_append]
    exact .inr (.inl (by decide))
  have hhome : strictHome pid vars' = strictHome pid vars := by rw [strictHome, strictHome, hbase, htmp]
  rw [buildScrubbedEnv, buildScrubbedEnv, hkept, hhome]

theorem traced_wrapped {p : Text} {argv : List Text} (h : argv ≠ []) :
    traced (wrapped p argv).tail = some (p, argv) := by
  have hparse : TraceArgs.parse {} (wrapped p argv).tail = some { traceOut0 := some p, argv } := by
    have hend (t : TraceArgs) : t.parse ("--".toList :: argv) = some { t with argv := t.argv ++ argv } := by
      rw [TraceArgs.parse.eq_def]
      simp
    change TraceArgs.parse {} ("--trace-out0".toList :: p :: "--mode".toList :: "read".toList ::
      "--".toList :: argv) = _
    rw [TraceArgs.parse, if_pos rfl, TraceArgs.parse, if_neg (by decide), if_pos rfl, hend]
    rfl
  rw [traced, hparse]
  simp [h]

/-- Whatever the interpreter, the file and its arguments come last. -/
theorem argv_last (s : Script) (verbose xtrace : ℤ) :
    ∃ command, command ≠ [] ∧ s.argv verbose xtrace = command ++ [s.dofile, s.arg1, s.arg2, s.arg3] := by
  unfold Script.argv
  cases interpreter s.content with
  | nil => exact ⟨["/bin/sh".toList, shflag verbose xtrace], List.cons_ne_nil _ _, rfl⟩
  | cons program options => exact ⟨program :: options, List.cons_ne_nil _ _, rfl⟩

/-- Strict mode is not noticed by the commands that a recipe calls: `redo-trace` runs the command line
that there is without it, a command of redo works out the same settings and the same jobserver from
what is left of the variables, and what is left depends on what is allowed and on nothing else. -/
theorem strict_transparent (pid : ℕ) (vars : Vars) (s : Script) (verbose xtrace : ℤ) (traceOut0 : Text) :
    traced (wrapped traceOut0 (s.argv verbose xtrace)).tail = some (traceOut0, s.argv verbose xtrace) ∧
      (∀ (o : Outside) (ts : List Text),
        Option.Rel SameStart (o.startIfchange ts vars) (o.startIfchange ts (buildScrubbedEnv pid vars))) ∧
      (∀ (o : Outside) (args : List Text),
        Option.Rel SameStart (o.startRedo args vars) (o.startRedo args (buildScrubbedEnv pid vars))) ∧
      ∀ vars', (∀ name, isKept vars name = true → vars' name = vars name) →
        buildScrubbedEnv pid vars' = buildScrubbedEnv pid vars := by
  obtain ⟨command, hcommand, hargv⟩ := argv_last s verbose xtrace
  have hne : s.argv verbose xtrace ≠ [] := hargv ▸ List.append_ne_nil_of_left_ne_nil hcommand _
  have halike := alike_buildScrubbedEnv pid vars
  exact ⟨traced_wrapped hne, halike.startIfchange, halike.startRedo, fun _ => scrubbed_congr⟩

end Redo.Processes
