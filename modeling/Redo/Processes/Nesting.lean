import Redo.Processes.Environment

/-! # Commands below commands

A command starts recipes and other commands, and a recipe commands again. The modes of
`redo-unlocked` reach the commands that they are meant for and no others, and all commands belong to
one run.
-/
namespace Redo.Processes
open State Remote Logs Paths

/-- A process of the tree with its variables. A builder is `redo` or `redo-ifchange` at its targets;
a recipe goes with all that it calls, but for commands of redo. -/
inductive Vertex
  | builder (m : Memory) (j : Jobserver)
  | unlocked (m : Memory)
  | script (vars : Vars)

def Vertex.vars : Vertex → Vars
  | builder m _ | unlocked m => m.vars
  | script vars => vars

inductive Link
  | recipe
  /-- `redo-unlocked`. -/
  | unlocked
  /-- `redo`, for one target of several. -/
  | child (t : Text)
  /-- `redo-ifchange`, by `redo-unlocked`: first for what the target depends on. -/
  | deps
  | target
  /-- By a recipe. -/
  | ifchange
  | redo (args : List Text)
deriving DecidableEq

/-- What `redo` is called with, where it is called. -/
def Link.args : Link → Option (List Text)
  | child t => some [t]
  | redo args => some args
  | _ => none

/-- Recipes leave the variables of redo alone. -/
def KeepsRedo (vars vars' : Vars) : Prop :=
  ∀ name, "REDO".toList.isPrefixOf name.toList ∨ name = "MAKEFLAGS" → vars' name = vars name

/-- Two more blanks in front of what the process says. -/
def deeper (vars : Vars) : Vars := vars.set "REDO_DEPTH" ((Env.fromEnv vars).depth ++ [' ', ' '])

/-- The variables with which a process starts another. -/
inductive Given : Vertex → Link → Vars → Prop
  | recipe {m : Memory} {j : Jobserver} {r : Recipe}
      (cycles : AddsCycle r.lockFid (m.vars.get "REDO_CYCLES") r.cycles) :
      Given (.builder m j) .recipe (r.execVars m)
  | unlocked {m : Memory} {j : Jobserver} : Given (.builder m j) .unlocked (deeper m.vars)
  | child {m : Memory} {j : Jobserver} {t : Text}
      (target : (RedoArgs.parse { vars := m.vars } [t]).targets = [t]) :
      Given (.builder m j) (.child t) (deeper m.vars)
  | deps {m : Memory} : Given (.unlocked m) .deps (m.vars.set "REDO_NO_OOB" ['1'])
  | target {m : Memory} :
      Given (.unlocked m) .target ((m.vars.set "REDO_NO_OOB" ['1']).set "REDO_UNLOCKED" ['1'])
  | ifchange {vars vars' : Vars} (kept : KeepsRedo vars vars') :
      Given (.script vars) .ifchange vars'
  | redo {vars vars' : Vars} {args : List Text} (kept : KeepsRedo vars vars') :
      Given (.script vars) (.redo args) vars'

def Jobserver.fds (j : Jobserver) : List ℤ :=
  [j.tokenfds.1, j.tokenfds.2, j.cheatfds.1, j.cheatfds.2]

/-- How a process starts. The descriptors `opened` are there. -/
inductive Starts (opened : List ℤ) : Link → Vars → Vertex → Prop
  | recipe {vars : Vars} : Starts opened .recipe vars (.script vars)
  | unlocked {vars : Vars} {m : Memory} (inherits : Memory.inherit { vars } = some m) :
      Starts opened .unlocked vars (.unlocked m)
  | ifchange {link : Link} {vars : Vars} {m : Memory} {j : Jobserver} {o : Outside}
      {ts : List Text} (called : link = .deps ∨ link = .target ∨ link = .ifchange)
      (there : ∀ fd ∈ opened, o.fdExists fd = true)
      (starts : o.startIfchange ts vars = some (m, j)) : Starts opened link vars (.builder m j)
  | redo {link : Link} {vars : Vars} {m : Memory} {j : Jobserver} {o : Outside}
      {args : List Text} (called : link.args = some args)
      (there : ∀ fd ∈ opened, o.fdExists fd = true)
      (starts : o.startRedo args vars = some (m, j)) : Starts opened link vars (.builder m j)

/-- The processes below `t`, with the links that lead there, the last one first. -/
inductive Descends (opened : List ℤ) (t : Vertex) : List Link → Vertex → Prop
  | start : Descends opened t [] t
  | step {links : List Link} {link : Link} {n n' : Vertex} (above : Descends opened t links n)
      {given : Vars} (gives : Given n link given) (starts : Starts opened link given n') :
      Descends opened t (link :: links) n'

/-- A command outside of all `.do` scripts. -/
def Toplevel (m : Memory) (j : Jobserver) : Prop :=
  ∃ (o : Outside) (vars : Vars), vars "REDO" = none ∧
    ((∃ ts, o.startIfchange ts vars = some (m, j)) ∨ ∃ args, o.startRedo args vars = some (m, j))

/-- What every process of redo finds. -/
structure Present (vars : Vars) : Prop where
  redo : (vars "REDO").isSome = true
  base : (vars "REDO_BASE").isSome = true
  runid : ((vars "REDO_RUNID").bind parseI64).isSome = true

def Vars.clear (vars : Vars) : Vars := (vars.set "REDO_UNLOCKED" []).set "REDO_NO_OOB" []

variable {vars vars' : Vars} {name other : String} {value : Text} {m m' : Memory} {j : Jobserver}

namespace Vars

@[simp] theorem set_self : vars.set name value name = some value := Function.update_self _ _ _

theorem set_of_ne (h : other ≠ name) : vars.set name value other = vars other :=
  Function.update_of_ne h _ _

theorem get_congr (h : vars name = vars' name) : vars.get name = vars'.get name := by
  rw [get, get, h]

theorem getBool_congr (h : vars name = vars' name) : vars.getBool name = vars'.getBool name := by
  simp [getBool, get_congr h]

theorem remove_of_ne (h : other ≠ name) : vars.remove name other = vars other :=
  Function.update_of_ne h _ _

end Vars

/-- A process that is not the first only takes the two modes out of its variables. -/
theorem stateInit_child {o : Launch} {ts : List Text} {b : Bool × Bool} {id : ℕ}
    (h : Present vars) : Memory.stateInit o ts b id { vars } = some
      { vars := vars.clear
        unlockedLatch := vars.getBool "REDO_UNLOCKED"
        noOobLatch := vars.getBool "REDO_NO_OOB" } := by
  have hredo : (vars "REDO").isNone = false := by simpa using h.redo
  have hbase : (vars "REDO_BASE").isNone = false := by simpa using h.base
  have hrunid : (vars.clear "REDO_RUNID").bind parseI64 = (vars "REDO_RUNID").bind parseI64 := by
    rw [Vars.clear, Vars.set_of_ne (by decide), Vars.set_of_ne (by decide)]
  have hinit : Memory.init o ts { vars } = some
      { vars := vars.clear
        unlockedLatch := vars.getBool "REDO_UNLOCKED"
        noOobLatch := vars.getBool "REDO_NO_OOB" } := by
    simp [Memory.init, Memory.first, Memory.based, Memory.inherit, hredo, hbase, Vars.clear,
      Env.fromEnv]
  rw [Memory.stateInit, hinit]
  have hsome : (Env.fromEnv vars.clear).runid.isSome = true := by
    rw [Env.fromEnv, hrunid]
    exact h.runid
  simp [Memory.checkLocks, Memory.ensureRunid, Memory.v, hsome]

section Starts
variable {o : Outside} {d : Descriptors} {ts args : List Text} {maxjobs : ℤ} {r : RedoArgs}

theorem clear_of_ne (h : name ≠ "REDO_UNLOCKED") (h' : name ≠ "REDO_NO_OOB") :
    vars.clear name = vars name := by
  rw [Vars.clear, Vars.set_of_ne h', Vars.set_of_ne h]

/-- `setup` writes two variables. -/
theorem setup_vars (h : d.setup maxjobs vars = some (j, vars')) (hcheat : name ≠ "REDO_CHEATFDS")
    (hflags : name ≠ "MAKEFLAGS") : vars' name = vars name := by
  unfold Descriptors.setup at h
  simp only at h
  split at h
  · cases h
  · cases hc : d.cheatfds maxjobs vars with
    | some fds =>
      simp only [hc] at h
      split at h <;> cases h
      · rfl
      · exact Vars.set_of_ne hflags
    | none =>
      simp only [hc] at h
      split at h <;> cases h
      · exact Vars.set_of_ne hcheat
      · rw [Vars.set_of_ne hflags, Vars.set_of_ne hcheat]

/-- The variables that options are about. -/
theorem redoFlag_name {a : Text} {p : String × Text} (h : redoFlag a = some p) :
    p.1 ∈ ["REDO_DEBUG", "REDO_VERBOSE", "REDO_XTRACE", "REDO_KEEP_GOING", "REDO_SHUFFLE",
      "REDO_DEBUG_LOCKS", "REDO_DEBUG_PIDS", "REDO_LOG"] := by
  unfold redoFlag at h
  split_ifs at h <;> cases h <;> simp

theorem take_vars {a : Text} (h : ∀ p, redoFlag a = some p → p.1 ≠ name) :
    (r.take a).vars name = r.vars name := by
  unfold RedoArgs.take
  split
  · rename_i flag value hflag
    exact Vars.set_of_ne (h _ hflag).symm
  · split_ifs <;> rfl

theorem parse_vars (h : ∀ a ∈ args, ∀ p, redoFlag a = some p → p.1 ≠ name) :
    (RedoArgs.parse r args).vars name = r.vars name := by
  fun_induction RedoArgs.parse r args with
  | case1 => rfl
  | case2 => rfl
  | case3 r a hj n rest ih =>
    exact ih fun b hb => h b (List.mem_cons_of_mem _ (List.mem_cons_of_mem _ hb))
  | case4 r a rest hj ih =>
    rw [ih fun b hb => h b (List.mem_cons_of_mem _ hb)]
    exact take_vars (h a List.mem_cons_self)

theorem defaults_vars (hlog : name ≠ "REDO_LOG") (hpretty : name ≠ "REDO_PRETTY")
    (hcolor : name ≠ "REDO_COLOR") : r.defaults name = r.vars name := by
  have hdefint : ∀ {vars : Vars} {other : String} {n : ℤ}, name ≠ other →
      vars.setDefint other n name = vars name := by
    intro vars other n hne
    unfold Vars.setDefint
    split
    · exact Vars.set_of_ne hne
    · rfl
  rw [RedoArgs.defaults, hdefint hcolor, hdefint hpretty, hdefint hlog]

/-- A variable that neither an option nor a default of `redo` is about. -/
def Unoptioned (name : String) : Prop :=
  name ∉ ["REDO_DEBUG", "REDO_VERBOSE", "REDO_XTRACE", "REDO_KEEP_GOING", "REDO_SHUFFLE",
    "REDO_DEBUG_LOCKS", "REDO_DEBUG_PIDS", "REDO_LOG", "REDO_PRETTY", "REDO_COLOR"]

instance (name : String) : Decidable (Unoptioned name) := inferInstanceAs (Decidable (_ ∉ _))

theorem Unoptioned.defaults_parse (h : Unoptioned name) :
    (RedoArgs.parse { vars } args).defaults name = vars name := by
  simp only [Unoptioned, List.mem_cons, List.not_mem_nil, or_false, not_or] at h
  have hname : (RedoArgs.parse { vars } args).vars name = vars name := by
    refine parse_vars fun a _ p hp heq => ?_
    have hmem := redoFlag_name hp
    rw [heq] at hmem
    simp [h] at hmem
  rw [defaults_vars (by simp [h]) (by simp [h]) (by simp [h]), hname]

theorem startIfchange_child (h : Present vars) (hstarts : o.startIfchange ts vars = some (m, j)) :
    m.unlockedLatch = vars.getBool "REDO_UNLOCKED" ∧ m.noOobLatch = vars.getBool "REDO_NO_OOB" ∧
      o.setup 0 vars.clear = some (j, m.vars) := by
  rw [Outside.startIfchange, stateInit_child h] at hstarts
  simp only [Option.bind_eq_bind, Option.bind_some, Option.bind_eq_some_iff] at hstarts
  obtain ⟨⟨j', vars'⟩, hsetup, hpure⟩ := hstarts
  cases hpure
  exact ⟨rfl, rfl, hsetup⟩

theorem startRedo_child (h : Present vars) (hstarts : o.startRedo args vars = some (m, j)) :
    m.unlockedLatch = vars.getBool "REDO_UNLOCKED" ∧ m.noOobLatch = vars.getBool "REDO_NO_OOB" ∧
      ∃ jobs, ((RedoArgs.parse { vars } args).jobs = 0 → jobs = 0) ∧
        o.setup jobs (RedoArgs.parse { vars } args).defaults.clear = some (j, m.vars) := by
  have hsame : ∀ {name}, Unoptioned name →
      (RedoArgs.parse { vars } args).defaults name = vars name := fun h => h.defaults_parse
  have hpresent : Present (RedoArgs.parse { vars } args).defaults := by
    constructor
    · rw [hsame (by decide)]
      exact h.redo
    · rw [hsame (by decide)]
      exact h.base
    · rw [hsame (by decide)]
      exact h.runid
  rw [Outside.startRedo] at hstarts
  simp only [stateInit_child hpresent, Option.bind_eq_bind, Option.bind_some, Bool.false_and,
    Bool.false_or, Bool.false_eq_true, if_false, Option.bind_eq_some_iff] at hstarts
  have hmode : ∀ {name}, Unoptioned name →
      (RedoArgs.parse { vars } args).defaults.getBool name = vars.getBool name := by
    intro name hname
    exact Vars.getBool_congr (hsame hname)
  obtain ⟨⟨j', vars'⟩, hsetup, hpure⟩ := hstarts
  cases hpure
  exact ⟨hmode (by decide), hmode (by decide), _, fun hjobs => by simp [hjobs], hsetup⟩

end Starts

section Recipes
variable {r : Recipe} {level : ℤ}

theorem naming_of_not_mem
    (h : name ∉ ["CDPATH", "REDO_PWD", "REDO_TARGET", "REDO_DEPTH", "REDO_CYCLES"]) :
    r.naming vars name = vars name := by
  simp only [List.mem_cons, List.not_mem_nil, or_false, not_or] at h
  obtain ⟨hcd, hpwd, htarget, hdepth, hcycles⟩ := h
  rw [Recipe.naming, Vars.set_of_ne hcycles, Vars.set_of_ne hdepth, Vars.set_of_ne htarget,
    Vars.set_of_ne hpwd, Vars.remove_of_ne hcd]

theorem clamp_of_ne (h : name ≠ other) : vars.clamp other level name = vars name := by
  unfold Vars.clamp
  split
  · exact Vars.set_of_ne h
  · rfl

theorem logging_of_ne (hlog : name ≠ "REDO_LOG") (hinode : name ≠ "REDO_LOG_INODE") :
    r.logging vars name = vars name := by
  unfold Recipe.logging
  split
  · split
    · cases r.newInode with
      | some inode => exact (Vars.set_of_ne hinode).trans (Vars.set_of_ne hlog)
      | none => rfl
    · rfl
  · rw [Vars.set_of_ne hlog, Vars.remove_of_ne hinode]

theorem execVars_of_not_mem (h : name ∉ ["CDPATH", "REDO_PWD", "REDO_TARGET", "REDO_DEPTH",
    "REDO_CYCLES", "REDO_XTRACE", "REDO_VERBOSE", "REDO_LOG", "REDO_LOG_INODE"]) :
    r.execVars m name = m.vars name := by
  have hnaming : r.naming m.vars name = m.vars name := by
    refine naming_of_not_mem fun hmem => h ?_
    simp only [List.mem_cons, List.not_mem_nil, or_false] at hmem ⊢
    tauto
  simp only [List.mem_cons, List.not_mem_nil, or_false, not_or] at h
  obtain ⟨-, -, -, -, -, hxtrace, hverbose, hlog, hinode⟩ := h
  rw [Recipe.execVars, logging_of_ne hlog hinode, clamp_of_ne hverbose, clamp_of_ne hxtrace, hnaming]

theorem execVars_depth : r.execVars m "REDO_DEPTH" = some (m.v.depth ++ [' ', ' ']) := by
  rw [Recipe.execVars, logging_of_ne (by decide) (by decide), clamp_of_ne (by decide),
    clamp_of_ne (by decide), Recipe.naming, Vars.set_of_ne (by decide), Vars.set_self]
  simp only [Env.fromEnv, Vars.get, Memory.v]
  rw [Vars.set_of_ne (by decide), Vars.set_of_ne (by decide), Vars.remove_of_ne (by decide)]

theorem execVars_xtrace : r.execVars m "REDO_XTRACE" =
    if m.v.xtrace = 1 then some ['0'] else m.vars "REDO_XTRACE" := by
  rw [Recipe.execVars, logging_of_ne (by decide) (by decide), clamp_of_ne (by decide), Vars.clamp]
  split
  · exact Vars.set_self
  · exact naming_of_not_mem (by decide)

theorem execVars_verbose : r.execVars m "REDO_VERBOSE" =
    if m.v.verbose = 1 then some ['0'] else m.vars "REDO_VERBOSE" := by
  rw [Recipe.execVars, logging_of_ne (by decide) (by decide), Vars.clamp]
  split
  · exact Vars.set_self
  · rw [clamp_of_ne (by decide)]
    exact naming_of_not_mem (by decide)

end Recipes

section Descent
variable {opened : List ℤ} {t n n' : Vertex} {link : Link} {links : List Link} {given : Vars}

/-- A variable of redo that is the same in all processes of a tree: it is not about the modes, about
what a recipe is for, about descriptors or about options of `redo`. -/
def Passed (name : String) : Prop :=
  "REDO".toList.isPrefixOf name.toList = true ∧
    name ∉ ["REDO_UNLOCKED", "REDO_NO_OOB", "REDO_PWD", "REDO_TARGET", "REDO_DEPTH", "REDO_CYCLES",
      "REDO_LOG", "REDO_LOG_INODE", "REDO_CHEATFDS", "REDO_DEBUG", "REDO_VERBOSE", "REDO_XTRACE",
      "REDO_KEEP_GOING", "REDO_SHUFFLE", "REDO_DEBUG_LOCKS", "REDO_DEBUG_PIDS", "REDO_PRETTY",
      "REDO_COLOR"]

instance (name : String) : Decidable (Passed name) := inferInstanceAs (Decidable (_ ∧ _))

theorem Passed.ne (h : Passed name) (hother : ¬Passed other) : name ≠ other := by
  rintro rfl
  exact hother h

theorem Passed.not_mem (h : Passed name) {l : List String} (hl : ∀ other ∈ l, ¬Passed other) :
    name ∉ l :=
  fun hmem => hl name hmem h

theorem Passed.unoptioned (h : Passed name) : Unoptioned name := h.not_mem (by decide)

theorem Passed.clear (h : Passed name) : vars.clear name = vars name :=
  clear_of_ne (h.ne (by decide)) (h.ne (by decide))

theorem Present.congr (h : Present vars) (hsame : ∀ name, Passed name → vars' name = vars name) :
    Present vars' where
  redo := by
    rw [hsame "REDO" (by decide)]
    exact h.redo
  base := by
    rw [hsame "REDO_BASE" (by decide)]
    exact h.base
  runid := by
    rw [hsame "REDO_RUNID" (by decide)]
    exact h.runid

theorem KeepsRedo.present (h : KeepsRedo vars vars') (hvars : Present vars) : Present vars' :=
  hvars.congr fun name hname => h name (.inl hname.1)

theorem Passed.execVars {r : Recipe} (h : Passed name) : r.execVars m name = m.vars name :=
  execVars_of_not_mem (h.not_mem (by decide))

theorem Given.passed (h : Given n link given) (hname : Passed name) : given name = n.vars name := by
  cases h with
  | recipe => exact hname.execVars
  | unlocked | child | deps => exact Vars.set_of_ne (hname.ne (by decide))
  | target =>
    exact (Vars.set_of_ne (hname.ne (by decide))).trans (Vars.set_of_ne (hname.ne (by decide)))
  | ifchange kept | redo kept => exact kept name (.inl hname.1)

/-- `redo-unlocked`. -/
theorem inherit_fresh (h : Memory.inherit { vars } = some m) : m.vars = vars.clear := by
  unfold Memory.inherit at h
  split at h
  · cases h
  · cases h
    rfl

/-- What the start leaves of a variable. -/
theorem Starts.kept (h : Starts opened link given n) (hgiven : Present given)
    (hmode : name ≠ "REDO_UNLOCKED" ∧ name ≠ "REDO_NO_OOB")
    (hfds : name ≠ "REDO_CHEATFDS" ∧ name ≠ "MAKEFLAGS")
    (hredo : ∀ args, link.args = some args → (RedoArgs.parse { vars := given } args).defaults name = given name) :
    n.vars name = given name := by
  cases h with
  | recipe => rfl
  | unlocked inherits =>
    rw [Vertex.vars, inherit_fresh inherits, clear_of_ne hmode.1 hmode.2]
  | ifchange called there starts =>
    obtain ⟨-, -, hsetup⟩ := startIfchange_child hgiven starts
    rw [Vertex.vars, setup_vars hsetup hfds.1 hfds.2, clear_of_ne hmode.1 hmode.2]
  | redo called there starts =>
    obtain ⟨-, -, jobs, -, hsetup⟩ := startRedo_child hgiven starts
    rw [Vertex.vars, setup_vars hsetup hfds.1 hfds.2, clear_of_ne hmode.1 hmode.2, hredo _ called]

theorem Starts.passed (h : Starts opened link given n) (hgiven : Present given)
    (hname : Passed name) : n.vars name = given name :=
  h.kept hgiven ⟨hname.ne (by decide), hname.ne (by decide)⟩
    ⟨hname.ne (by decide), hname.ne (by decide)⟩ fun _ _ => hname.unoptioned.defaults_parse

/-- The modes are no longer in the variables when a process starts others. -/
structure Empty (vars : Vars) : Prop where
  unlocked : vars "REDO_UNLOCKED" = some []
  noOob : vars "REDO_NO_OOB" = some []

theorem empty_clear (vars : Vars) : Empty vars.clear where
  unlocked := (Vars.set_of_ne (by decide)).trans Vars.set_self
  noOob := Vars.set_self

theorem Empty.congr (h : Empty vars) (hsame : ∀ name, name ∈ ["REDO_UNLOCKED", "REDO_NO_OOB"] →
    vars' name = vars name) : Empty vars' where
  unlocked := (hsame _ (by simp)).trans h.unlocked
  noOob := (hsame _ (by simp)).trans h.noOob

theorem Starts.empty (h : Starts opened link given n) (hgiven : Present given)
    (hrecipe : link = .recipe → Empty given) : Empty n.vars := by
  have hsetup : ∀ {d : Descriptors} {jobs : ℤ} {vars : Vars} {m : Memory} {j : Jobserver},
      d.setup jobs vars.clear = some (j, m.vars) → Empty m.vars := by
    intro d jobs vars m j hsetup
    refine (empty_clear vars).congr fun name hname => setup_vars hsetup ?_ ?_
    · rintro rfl
      simp at hname
    · rintro rfl
      simp at hname
  cases h with
  | recipe => exact hrecipe rfl
  | unlocked inherits =>
    rw [Vertex.vars, inherit_fresh inherits]
    exact empty_clear given
  | ifchange called there starts => exact hsetup (startIfchange_child hgiven starts).2.2
  | redo called there starts =>
    obtain ⟨-, -, jobs, -, hs⟩ := startRedo_child hgiven starts
    exact hsetup hs

end Descent

section First
variable {o : Launch} {ts : List Text} {b : Bool × Bool} {id : ℕ}

/-- After `env::init`. -/
structure Inside (vars : Vars) : Prop extends Empty vars where
  redo : (vars "REDO").isSome = true
  base : (vars "REDO_BASE").isSome = true

theorem Empty.clear_eq (h : Empty vars) : vars.clear = vars := by
  funext name
  by_cases hoob : name = "REDO_NO_OOB"
  · subst hoob
    exact Vars.set_self.trans h.noOob.symm
  by_cases hunlocked : name = "REDO_UNLOCKED"
  · subst hunlocked
    exact ((Vars.set_of_ne hoob).trans Vars.set_self).trans h.unlocked.symm
  · exact clear_of_ne hunlocked hoob

theorem Inside.set (h : Inside vars)
    (hname : name ∉ ["REDO", "REDO_BASE", "REDO_UNLOCKED", "REDO_NO_OOB"]) :
    Inside (vars.set name value) := by
  simp only [List.mem_cons, List.not_mem_nil, or_false, not_or] at hname
  obtain ⟨hredo, hbase, hunlocked, hoob⟩ := hname
  refine ⟨⟨?_, ?_⟩, ?_, ?_⟩
  · exact (Vars.set_of_ne (Ne.symm hunlocked)).trans h.unlocked
  · exact (Vars.set_of_ne (Ne.symm hoob)).trans h.noOob
  · rw [Vars.set_of_ne (Ne.symm hredo)]
    exact h.redo
  · rw [Vars.set_of_ne (Ne.symm hbase)]
    exact h.base

theorem inherit_vars (h : m.inherit = some m') :
    (m.vars "REDO").isSome = true ∧ m'.vars = m.vars.clear := by
  unfold Memory.inherit at h
  split at h
  · cases h
  · rename_i hredo
    cases h
    exact ⟨by simpa [Option.isSome_iff_ne_none] using hredo, rfl⟩

theorem Inside.inherit (h : Inside m.vars) (hm : m.inherit = some m') : m'.vars = m.vars := by
  rw [(inherit_vars hm).2, h.toEmpty.clear_eq]

theorem based_base : ((m.based o ts).vars "REDO_BASE").isSome = true := by
  unfold Memory.based
  split
  · simp only [Vars.set_of_ne (show "REDO_BASE" ≠ "REDO_STARTDIR" by decide), Vars.set_self,
      Option.isSome_some]
  · rename_i hbase
    simpa [Option.isSome_iff_ne_none] using hbase

theorem init_inside (h : Memory.init o ts m = some m') : Inside m'.vars := by
  obtain ⟨hredo, hvars⟩ := inherit_vars h
  refine ⟨hvars ▸ empty_clear _, ?_, ?_⟩
  · rw [hvars, clear_of_ne (by decide) (by decide)]
    exact hredo
  · rw [hvars, clear_of_ne (by decide) (by decide)]
    exact based_base

theorem checkLocks_vars {broken : Bool} (h : Inside m.vars) (hm : m.checkLocks broken = some m') :
    Inside m'.vars ∧ m'.vars "REDO_RUNID" = m.vars "REDO_RUNID" := by
  unfold Memory.checkLocks at hm
  split at hm
  · have hinside : Inside ((m.vars.set "REDO_LOCKS_BROKEN" "1".toList).set "REDO_LOG" "0".toList) :=
      (h.set (by decide)).set (by decide)
    have hvars : m'.vars = (m.vars.set "REDO_LOCKS_BROKEN" "1".toList).set "REDO_LOG" "0".toList :=
      Inside.inherit (by exact hinside) hm
    rw [hvars]
    refine ⟨hinside, ?_⟩
    rw [Vars.set_of_ne (by decide), Vars.set_of_ne (by decide)]
  · cases hm
    exact ⟨h, rfl⟩

theorem parseI64_toDigits (h : id < 9223372036854775808) :
    parseI64 (Nat.toDigits 10 id) = some (id : ℤ) := by
  have hhead : (Nat.toDigits 10 id).head? ≠ some '-' := by
    intro hminus
    exact not_mem_toDigits (by decide) _ (List.mem_of_head? hminus)
  rw [parseI64, if_neg hhead, parseUnsigned_toDigits h]
  rfl

theorem ensureRunid_vars (h : Inside m.vars) (hid : id < 9223372036854775808)
    (hm : m.ensureRunid id = some m') :
    Inside m'.vars ∧ ((m'.vars "REDO_RUNID").bind parseI64).isSome = true := by
  unfold Memory.ensureRunid at hm
  split at hm
  · rename_i hsome
    cases hm
    exact ⟨h, hsome⟩
  · have hinside : Inside (m.vars.set "REDO_RUNID" (Nat.toDigits 10 id)) := h.set (by decide)
    rw [Inside.inherit (by exact hinside) hm]
    refine ⟨hinside, ?_⟩
    simp only [Vars.set_self, Option.bind_some, parseI64_toDigits hid, Option.isSome_some]

theorem stateInit_first (hid : id < 9223372036854775808)
    (h : Memory.stateInit o ts b id m = some m') : Present m'.vars ∧ Empty m'.vars := by
  simp only [Memory.stateInit, Option.bind_eq_bind, Option.bind_eq_some_iff] at h
  obtain ⟨m₁, hinit, m₂, hlocks, m₃, hrunid, hend⟩ := h
  obtain ⟨hinside₂, -⟩ := checkLocks_vars (init_inside hinit) hlocks
  obtain ⟨hinside₃, hsome⟩ := ensureRunid_vars hinside₂ hid hrunid
  obtain ⟨hinside, hsame⟩ := checkLocks_vars hinside₃ hend
  exact ⟨⟨hinside.redo, hinside.base, by rwa [hsame]⟩, hinside.toEmpty⟩

/-- A toplevel command hands on what every process of redo needs, and no modes. -/
theorem Toplevel.first (h : Toplevel m j) : Present m.vars ∧ Empty m.vars := by
  have hkept : ∀ {vars vars' : Vars}, Present vars ∧ Empty vars →
      (∀ name, name ∉ ["REDO_CHEATFDS", "MAKEFLAGS", "REDO_LOG_TOP_TARGETS"] →
        vars' name = vars name) → Present vars' ∧ Empty vars' := by
    rintro vars vars' ⟨⟨hredo, hbase, hrunid⟩, hempty⟩ hsame
    refine ⟨⟨?_, ?_, ?_⟩, hempty.congr fun name hname => hsame name ?_⟩
    · rwa [hsame "REDO" (by decide)]
    · rwa [hsame "REDO_BASE" (by decide)]
    · rwa [hsame "REDO_RUNID" (by decide)]
    · simp only [List.mem_cons, List.not_mem_nil, or_false] at hname
      rcases hname with rfl | rfl <;> decide
  obtain ⟨o, vars, -, ⟨ts, hstarts⟩ | ⟨args, hstarts⟩⟩ := h
  · simp only [Outside.startIfchange, Option.bind_eq_bind, Option.bind_eq_some_iff] at hstarts
    obtain ⟨m₁, hinit, ⟨j', vars'⟩, hsetup, hpure⟩ := hstarts
    cases hpure
    refine hkept (stateInit_first o.newRunid_lt hinit) fun name hname => ?_
    simp only [List.mem_cons, List.not_mem_nil, or_false, not_or] at hname
    exact setup_vars hsetup hname.1 hname.2.1
  · simp only [Outside.startRedo, Option.bind_eq_bind, Option.bind_eq_some_iff] at hstarts
    obtain ⟨m₁, hinit, ⟨j', vars'⟩, hsetup, hpure⟩ := hstarts
    have hvars : m.vars = vars' := by
      cases hpure
      rfl
    refine hkept (stateInit_first o.newRunid_lt hinit) fun name hname => ?_
    simp only [List.mem_cons, List.not_mem_nil, or_false, not_or] at hname
    rw [hvars, setup_vars hsetup hname.1 hname.2.1]
    split
    · exact Vars.set_of_ne hname.2.2
    · rfl

end First

section Descends
variable {opened : List ℤ} {n : Vertex} {link : Link} {links : List Link} {given : Vars}
  {j' : Jobserver}

/-- What every process of the tree has in its variables. -/
theorem Descends.told (h : Descends opened (.builder m j) links n) (htop : Toplevel m j) :
    Present n.vars ∧ Empty n.vars ∧ ∀ name, Passed name → n.vars name = m.vars name := by
  induction h with
  | start => exact ⟨htop.first.1, htop.first.2, fun _ _ => rfl⟩
  | @step links link n n' _ given gives starts ih =>
    obtain ⟨hpresent, hempty, hsame⟩ := ih
    have hgiven : Present given := hpresent.congr fun name hname => gives.passed hname
    refine ⟨hgiven.congr fun name hname => starts.passed hgiven hname, starts.empty hgiven ?_,
      fun name hname => ?_⟩
    · rintro rfl
      cases gives with
      | recipe cycles =>
        refine hempty.congr fun name hname => execVars_of_not_mem ?_
        simp only [List.mem_cons, List.not_mem_nil, or_false] at hname
        rcases hname with rfl | rfl <;> decide
    · rw [starts.passed hgiven hname, gives.passed hname, hsame name hname]

/-- The modes of a process are those with which it was started. -/
theorem Starts.modes {opened : List ℤ} (h : Starts opened link given (.builder m j)) (hgiven : Present given) :
    m.v.unlocked = given.getBool "REDO_UNLOCKED" ∧ m.v.noOob = given.getBool "REDO_NO_OOB" := by
  have hlatched : m.unlockedLatch = given.getBool "REDO_UNLOCKED" ∧
      m.noOobLatch = given.getBool "REDO_NO_OOB" := by
    cases h with
    | ifchange called there starts =>
      exact ⟨(startIfchange_child hgiven starts).1, (startIfchange_child hgiven starts).2.1⟩
    | redo called there starts =>
      exact ⟨(startRedo_child hgiven starts).1, (startRedo_child hgiven starts).2.1⟩
  have hempty : Empty m.vars := h.empty hgiven (by rintro rfl; cases h with
    | ifchange called => simp at called
    | redo called => simp [Link.args] at called)
  simp [Memory.v, Env.fromEnv, Vars.getBool, Vars.get, hempty.unlocked, hempty.noOob, hlatched]

theorem Empty.getBool (h : Empty vars) (hname : name = "REDO_UNLOCKED" ∨ name = "REDO_NO_OOB") :
    vars.getBool name = false := by
  rcases hname with rfl | rfl
  · simp [Vars.getBool, Vars.get, h.unlocked]
  · simp [Vars.getBool, Vars.get, h.noOob]

/-- Only `redo-unlocked` asks for a mode. -/
theorem Given.modes (h : Given n link given) (hn : Empty n.vars) :
    (given.getBool "REDO_UNLOCKED" = true ↔ link = .target) ∧
      (given.getBool "REDO_NO_OOB" = true ↔ link = .deps ∨ link = .target) := by
  have hsame : given "REDO_UNLOCKED" = n.vars "REDO_UNLOCKED" →
      given "REDO_NO_OOB" = n.vars "REDO_NO_OOB" →
        given.getBool "REDO_UNLOCKED" = false ∧ given.getBool "REDO_NO_OOB" = false := by
    intro hunlocked hoob
    exact ⟨(Vars.getBool_congr hunlocked).trans (hn.getBool (.inl rfl)),
      (Vars.getBool_congr hoob).trans (hn.getBool (.inr rfl))⟩
  cases h with
  | recipe =>
    obtain ⟨hunlocked, hoob⟩ :=
      hsame (execVars_of_not_mem (by decide)) (execVars_of_not_mem (by decide))
    simp [hunlocked, hoob]
  | unlocked | child =>
    obtain ⟨hunlocked, hoob⟩ := hsame (Vars.set_of_ne (by decide)) (Vars.set_of_ne (by decide))
    simp [hunlocked, hoob]
  | @deps m =>
    have hunlocked : (m.vars.set "REDO_NO_OOB" ['1']).getBool "REDO_UNLOCKED" = false :=
      (Vars.getBool_congr (Vars.set_of_ne (by decide))).trans (hn.getBool (.inl rfl))
    refine ⟨by simp [hunlocked], ?_⟩
    simp [Vars.getBool, Vars.get]
  | @target m =>
    have hoob : ((m.vars.set "REDO_NO_OOB" ['1']).set "REDO_UNLOCKED" ['1']) "REDO_NO_OOB" =
        some ['1'] := (Vars.set_of_ne (by decide)).trans Vars.set_self
    simp [hoob, Vars.getBool, Vars.get]
  | ifchange kept | redo kept =>
    obtain ⟨hunlocked, hoob⟩ := hsame (kept _ (by decide)) (kept _ (by decide))
    simp [hunlocked, hoob]

/-- A process is in a mode if and only if `redo-unlocked` has started it for that, wherever in the
tree. All other variables that belong to the run reach it unchanged. -/
theorem modes_not_inherited (htop : Toplevel m j)
    (h : Descends opened (.builder m j) (link :: links) (.builder m' j')) :
    (m'.v.unlocked = true ↔ link = .target) ∧
      (m'.v.noOob = true ↔ link = .deps ∨ link = .target) ∧
        ∀ name, Passed name → m'.vars name = m.vars name := by
  have htold := h.told htop
  refine and_assoc.mp ⟨?_, htold.2.2⟩
  cases h with
  | @step _ _ n _ above given gives starts =>
    obtain ⟨hpresent, hempty, -⟩ := above.told htop
    obtain ⟨hunlocked, hoob⟩ := starts.modes (hpresent.congr fun name hname => gives.passed hname)
    rw [hunlocked, hoob]
    exact gives.modes hempty

/-- Calls for which the new process has more blanks in front of what it says. -/
def Link.deepens : Link → Bool
  | recipe | unlocked | child _ => true
  | _ => false

theorem Given.depth (h : Given n link given) : given.get "REDO_DEPTH" =
    n.vars.get "REDO_DEPTH" ++ List.replicate (if link.deepens then 2 else 0) ' ' := by
  cases h with
  | recipe =>
    rw [Vars.get, execVars_depth]
    rfl
  | unlocked | child =>
    rw [Vars.get, deeper, Vars.set_self]
    rfl
  | deps =>
    rw [Vars.get, Vars.set_of_ne (by decide)]
    simp [Link.deepens, Vars.get, Vertex.vars]
  | target =>
    rw [Vars.get, Vars.set_of_ne (by decide), Vars.set_of_ne (by decide)]
    simp [Link.deepens, Vars.get, Vertex.vars]
  | ifchange kept | redo kept =>
    rw [Vars.get, kept _ (by decide)]
    simp [Link.deepens, Vars.get, Vertex.vars]

/-- The levels of `-x` and `-v`. -/
def Level (name : String) : Prop := name = "REDO_XTRACE" ∨ name = "REDO_VERBOSE"

theorem Given.level (h : Given n link given) (hname : Level name) : atoi (given.get name) =
    if atoi (n.vars.get name) = 1 ∧ link = .recipe then 0 else atoi (n.vars.get name) := by
  have hsame : link ≠ .recipe → given name = n.vars name → atoi (given.get name) =
      if atoi (n.vars.get name) = 1 ∧ link = .recipe then 0 else atoi (n.vars.get name) := by
    intro hlink hgiven
    rw [if_neg fun hand => hlink hand.2, Vars.get_congr hgiven]
  cases h with
  | @recipe m _ r =>
    have hclamp : r.execVars m name = if atoi (m.vars.get name) = 1 then some ['0'] else m.vars name := by
      rcases hname with rfl | rfl
      · exact execVars_xtrace
      · exact execVars_verbose
    by_cases hone : atoi (m.vars.get name) = 1
    · rw [if_pos hone] at hclamp
      rw [Vertex.vars, if_pos ⟨hone, rfl⟩, Vars.get, hclamp]
      decide
    · rw [if_neg hone] at hclamp
      rw [Vertex.vars, if_neg fun hand => hone hand.1, Vars.get_congr hclamp]
  | unlocked | child | deps =>
    refine hsame (by simp) (Vars.set_of_ne ?_)
    rcases hname with rfl | rfl <;> decide
  | target =>
    refine hsame (by simp) ((Vars.set_of_ne ?_).trans (Vars.set_of_ne ?_))
    · rcases hname with rfl | rfl <;> decide
    · rcases hname with rfl | rfl <;> decide
  | ifchange kept | redo kept =>
    refine hsame (by simp) (kept name ?_)
    rcases hname with rfl | rfl <;> decide

/-- A target is no option. -/
theorem redoFlag_target {vars : Vars} {t : Text} (h : (RedoArgs.parse { vars } [t]).targets = [t]) :
    redoFlag t = none := by
  by_contra hflag
  obtain ⟨p, hp⟩ := Option.ne_none_iff_exists'.mp hflag
  simp only [RedoArgs.parse] at h
  split at h
  · cases h
  · simp [RedoArgs.take, hp] at h

/-- What a process says of itself below others: each of those that it is below of counts for two
blanks, but for the two steps of `redo-unlocked`, and the levels 1 of `-x` and `-v` end at the first
recipe. -/
theorem nesting_told (htop : Toplevel m j) (h : Descends opened (.builder m j) links n) :
    n.vars.get "REDO_DEPTH" =
        m.vars.get "REDO_DEPTH" ++ List.replicate (2 * links.countP Link.deepens) ' ' ∧
      ∀ name, Level name → (∀ args, Link.redo args ∈ links → ∀ a ∈ args, ∀ p,
        redoFlag a = some p → p.1 ≠ name) → atoi (n.vars.get name) =
          if atoi (m.vars.get name) = 1 ∧ .recipe ∈ links then 0 else atoi (m.vars.get name) := by
  induction h with
  | start => simp [Vertex.vars]
  | @step links link n n' above given gives starts ih =>
    obtain ⟨hdepth, hlevel⟩ := ih
    obtain ⟨hpresent, -, -⟩ := above.told htop
    have hgiven : Present given := hpresent.congr fun name hname => gives.passed hname
    constructor
    · have hkept : n'.vars "REDO_DEPTH" = given "REDO_DEPTH" :=
        starts.kept hgiven (by decide) (by decide) fun args _ =>
          Unoptioned.defaults_parse (by decide)
      rw [Vars.get_congr hkept, gives.depth, hdepth, List.append_assoc, List.replicate_append_replicate,
        List.countP_cons]
      split <;> simp [Nat.mul_add]
    · intro name hname hargs
      have hkept : n'.vars name = given name := by
        refine starts.kept hgiven ?_ ?_ fun args hlink => ?_
        · rcases hname with rfl | rfl <;> decide
        · rcases hname with rfl | rfl <;> decide
        · rw [defaults_vars, parse_vars]
          · intro a ha p hp
            cases gives with
            | child target =>
              cases hlink
              rw [List.mem_singleton.mp ha, redoFlag_target target] at hp
              cases hp
            | redo =>
              cases hlink
              exact hargs _ List.mem_cons_self a ha p hp
            | _ => cases hlink
          · rcases hname with rfl | rfl <;> decide
          · rcases hname with rfl | rfl <;> decide
          · rcases hname with rfl | rfl <;> decide
      rw [Vars.get_congr hkept, gives.level hname,
        hlevel name hname fun args hmem => hargs args (List.mem_cons_of_mem _ hmem)]
      have hmem : Link.recipe ∈ link :: links ↔ link = .recipe ∨ .recipe ∈ links := by
        rw [List.mem_cons, eq_comm]
      grind

end Descends

section Tree
/-! `redo-ifchange` calls `redo-unlocked`, that calls `redo-ifchange` for the target, and its recipe
calls `redo-ifchange` once more. -/

def host : Outside where
  exe := "/usr/bin/redo-ifchange".toList
  realExe := "/usr/bin/redo-ifchange".toList
  cwd := "/p".toList
  findBase := fun _ => "/p".toList
  fdExists := fun fd => decide (100 ≤ fd)
  tokenPipe := ⟨(100, 101), by decide, by decide⟩
  cheatPipe := ⟨(102, 103), by decide, by decide⟩
  lockBroken := (false, false)
  newRunid := 1000000001
  newRunid_lt := by decide

def shellVars : Vars := fun name => if name = "REDO_XTRACE" then some ['1'] else none

/-- `redo-ifchange t` in a shell. -/
def shell : Memory × Jobserver :=
  (host.startIfchange ["t".toList] shellVars).get (by decide +kernel)

theorem eq_some_get {x : Option (Memory × Jobserver)} (h : x.isSome = true) :
    x = some ((x.get h).1, (x.get h).2) := (Option.some_get h).symm

theorem shell_toplevel : Toplevel shell.1 shell.2 :=
  ⟨host, shellVars, by decide, .inl ⟨["t".toList], eq_some_get _⟩⟩

def unlocking : Memory := (Memory.inherit { vars := deeper shell.1.vars }).get (by decide +kernel)

def locked : Vars := (unlocking.vars.set "REDO_NO_OOB" ['1']).set "REDO_UNLOCKED" ['1']

def targeting : Memory × Jobserver :=
  (host.startIfchange ["t".toList] locked).get (by decide +kernel)

def recipe : Recipe where
  pwdRel := []
  arg1 := "t".toList
  lockFid := 2
  cycles := digits 2
  curInode := 5
  newInode := some 6

def calling : Memory × Jobserver :=
  (host.startIfchange ["s".toList] (recipe.execVars targeting.1)).get (by decide +kernel)

theorem recipe_cycles : AddsCycle recipe.lockFid (targeting.1.vars.get "REDO_CYCLES") recipe.cycles := by
  have hempty : targeting.1.vars.get "REDO_CYCLES" = [] := by decide +kernel
  rw [hempty]
  exact ⟨[digits 2], List.nodup_singleton _, by simp [getCycles, recipe], by simp [recipe]⟩

theorem targeting_descends : Descends shell.2.fds (.builder shell.1 shell.2) [.target, .unlocked]
    (.builder targeting.1 targeting.2) :=
  .step (.step .start .unlocked (.unlocked (Option.some_get _).symm)) .target
    (.ifchange (o := host) (.inr (.inl rfl)) (by decide +kernel) (eq_some_get _))

theorem calling_descends : Descends shell.2.fds (.builder shell.1 shell.2)
    [.ifchange, .recipe, .target, .unlocked] (.builder calling.1 calling.2) :=
  .step (.step targeting_descends (.recipe recipe_cycles) .recipe) (.ifchange fun _ _ => rfl)
    (.ifchange (o := host) (.inr (.inr rfl)) (by decide +kernel) (eq_some_get _))

/-- The mode ends at the recipe. -/
theorem modes_not_inherited_recipe : calling.1.v.unlocked = false ∧ calling.1.v.noOob = false := by
  obtain ⟨hunlocked, hoob, -⟩ := modes_not_inherited shell_toplevel calling_descends
  simp at hunlocked hoob
  exact ⟨hunlocked, hoob⟩

theorem nesting_told_recipe : calling.1.vars.get "REDO_DEPTH" = List.replicate 4 ' ' ∧
    calling.1.v.xtrace = 0 := by
  obtain ⟨hdepth, hlevel⟩ := nesting_told shell_toplevel calling_descends
  refine ⟨hdepth.trans (by decide +kernel), (hlevel _ (.inl rfl) fun args hargs => ?_).trans
    (by decide +kernel)⟩
  simp at hargs

end Tree
end Redo.Processes
