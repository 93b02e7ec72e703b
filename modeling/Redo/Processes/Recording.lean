import Redo.Paths.Recipes
import Redo.Processes.Nesting

/-! # For which target a command records

The commands that a recipe calls record dependencies for the target of the recipe, in whatever
directory, and so do the commands that these call, until the next recipe.
-/
namespace Redo.Processes
open State Remote Logs Paths

/-- `me` in `run_ifchange`, and `current_target_abs`. -/
def Env.currentTarget (e : Env) : Text := currentTargetAbs e.startdir e.pwd e.target

/-- The processes below a recipe that are not below another one. -/
inductive Within (opened : List ℤ) (r : Recipe) (m : Memory) : Vertex → Prop
  | script : Within opened r m (.script (r.execVars m))
  | step {n n' : Vertex} {link : Link} {given : Vars} (above : Within opened r m n)
      (gives : Given n link given) (other : link ≠ .recipe) (starts : Starts opened link given n') :
      Within opened r m n'

/-- The recipe that stands in the candidate, as the builder starts it. -/
structure Recipe.Runs (r : Recipe) (m : Memory) (p : Process) (c : DoFile) : Prop where
  base : p.envBase = m.v.base
  pwd : r.pwdRel = p.pwdRel m.v.startdir c.dodir
  target : r.arg1 = c.arg1

/-- A variable that only a recipe changes. -/
def Kept (name : String) : Prop :=
  "REDO".toList.isPrefixOf name.toList = true ∧ Unoptioned name ∧
    name ∉ ["REDO_UNLOCKED", "REDO_NO_OOB", "REDO_DEPTH", "REDO_CHEATFDS", "MAKEFLAGS"]

instance (name : String) : Decidable (Kept name) := inferInstanceAs (Decidable (_ ∧ _))

variable {opened : List ℤ} {m m₀ : Memory} {j j₀ : Jobserver} {n n' : Vertex} {link : Link}
  {links : List Link} {given vars vars' : Vars} {name : String} {r : Recipe} {p p' : Process}
  {c : DoFile} {s : Text} {start : Directory}

theorem Passed.kept (h : Passed name) : Kept name :=
  ⟨h.1, h.unoptioned, h.not_mem (by decide)⟩

theorem Given.kept (h : Given n link given) (hname : Kept name) (hother : link ≠ .recipe) :
    given name = n.vars name := by
  obtain ⟨hredo, -, hnot⟩ := hname
  simp only [List.mem_cons, List.not_mem_nil, or_false, not_or] at hnot
  obtain ⟨hunlocked, hoob, hdepth, -⟩ := hnot
  cases h with
  | recipe => exact absurd rfl hother
  | unlocked | child => exact Vars.set_of_ne hdepth
  | deps => exact Vars.set_of_ne hoob
  | target => exact (Vars.set_of_ne hunlocked).trans (Vars.set_of_ne hoob)
  | ifchange kept | redo kept => exact kept name (.inl hredo)

theorem Starts.keeps (h : Starts opened link given n) (hgiven : Present given) (hname : Kept name) :
    n.vars name = given name := by
  obtain ⟨-, hoption, hnot⟩ := hname
  simp only [List.mem_cons, List.not_mem_nil, or_false, not_or] at hnot
  obtain ⟨hunlocked, hoob, -, hcheat, hflags⟩ := hnot
  exact h.kept hgiven ⟨hunlocked, hoob⟩ ⟨hcheat, hflags⟩ fun _ _ => hoption.defaults_parse

/-- What the recipe has been told reaches all processes below it. -/
theorem Within.keeps (h : Within opened r m n) (hm : Present m.vars) :
    Present n.vars ∧ ∀ name, Kept name → n.vars name = r.execVars m name := by
  induction h with
  | script => exact ⟨hm.congr fun name hname => hname.execVars, fun _ _ => rfl⟩
  | step _ gives other starts ih =>
    obtain ⟨hpresent, hsame⟩ := ih
    have hgiven : Present _ := hpresent.congr fun name hname => gives.passed hname
    refine ⟨hgiven.congr fun name hname => starts.passed hgiven hname, fun name hname => ?_⟩
    rw [starts.keeps hgiven hname, gives.kept hname other, hsame name hname]

theorem execVars_pwd : r.execVars m "REDO_PWD" = some r.pwdRel := by
  rw [Recipe.execVars, logging_of_ne (by decide) (by decide), clamp_of_ne (by decide),
    clamp_of_ne (by decide), Recipe.naming, Vars.set_of_ne (by decide), Vars.set_of_ne (by decide),
    Vars.set_of_ne (by decide), Vars.set_self]

theorem execVars_target : r.execVars m "REDO_TARGET" = some r.arg1 := by
  rw [Recipe.execVars, logging_of_ne (by decide) (by decide), clamp_of_ne (by decide),
    clamp_of_ne (by decide), Recipe.naming, Vars.set_of_ne (by decide), Vars.set_of_ne (by decide),
    Vars.set_self]

/-- Everything below a recipe has its target for the current one. -/
theorem Within.currentTarget (h : Within opened r m n) (hm : Present m.vars) :
    (Env.fromEnv n.vars).currentTarget = currentTargetAbs m.v.startdir r.pwdRel r.arg1 ∧
      (Env.fromEnv n.vars).base = m.v.base := by
  obtain ⟨-, hsame⟩ := h.keeps hm
  have hbase : n.vars "REDO_BASE" = m.vars "REDO_BASE" :=
    (hsame _ (by decide)).trans (execVars_of_not_mem (by decide))
  have hstart : n.vars.get "REDO_STARTDIR" = m.vars.get "REDO_STARTDIR" :=
    Vars.get_congr ((hsame _ (by decide)).trans (execVars_of_not_mem (by decide)))
  have hpwd : n.vars.get "REDO_PWD" = r.pwdRel := by
    rw [Vars.get, hsame _ (by decide), execVars_pwd, Option.getD_some]
  have htarget : n.vars.get "REDO_TARGET" = r.arg1 := by
    rw [Vars.get, hsame _ (by decide), execVars_target, Option.getD_some]
  simp only [Env.currentTarget, Env.fromEnv, Memory.v, hbase, hstart, hpwd, htarget, and_self]

theorem render_injective {names names' : List Text} (h : ∀ n ∈ names, IsName n)
    (h' : ∀ n ∈ names', IsName n) (heq : render names = render names') : names = names' := by
  have hmoves := congrArg moves heq
  rw [moves_render h, moves_render h'] at hmoves
  exact List.map_injective_iff.mpr (fun _ _ => Library.Move.down.inj) hmoves

/-- `/p/t.do` for `t`. -/
def project : Process where
  tree := { present := fun here => here.isPrefixOf ["p".toList, "t.do".toList]
            directory := fun here => here.isPrefixOf ["p".toList] }
  base := ⟨["p".toList], by decide⟩
  cwd := ⟨["p".toList], by decide⟩
  diffPaths := lexicalDiff

/-- A directory that the recipe has changed to. -/
def elsewhere : Process := { project with cwd := ⟨["q".toList], by decide⟩ }

def ownRule : DoFile := (project.findDoForTarget "t".toList).get (by decide +kernel)

theorem recipe_runs : recipe.Runs targeting.1 project ownRule where
  base := by decide +kernel
  pwd := by decide +kernel
  target := by decide +kernel

theorem calling_within : Within shell.2.fds recipe targeting.1 (.builder calling.1 calling.2) :=
  .step .script (.ifchange fun _ _ => rfl) (by decide)
    (.ifchange (o := host) (.inr (.inr rfl)) (by decide +kernel) (eq_some_get _))

end Redo.Processes
