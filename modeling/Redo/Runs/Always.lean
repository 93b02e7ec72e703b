import Redo.Dirtiness.Fresh
import Redo.Runs.Invariant

/-! # `redo-always` means once in every run

Until a target that has called `redo-always` is built again, no walk of a later run finds it clean,
nor what waits for it; after the build every walk does.
-/
namespace Redo.Runs
open State Dirtiness Override Completion

/-- Apart from the dependency on `//ALWAYS` everything that `f` depends on is as it should be. -/
def OthersUpToDate (s : Project) (f : File) : Prop :=
  ∀ p ∈ s.db.depsOf s.R f, ¬(p.1 = 'm' ∧ p.2.name = ALWAYS) →
    (p.1 = 'c' → s.disk.pathExists p.2.name = false) ∧
      (p.1 = 'm' → Fresh s.disk s.R s.db f.lastSeen p.2)

/-- What holds of a project at any time. -/
structure AlwaysOnce (s : Project) : Prop where
  /-- A target whose last build called `redo-always` and was recorded in an earlier run. -/
  before : ∀ f mx, s.db.byId s.R f.id = some f → f.isGenerated = true → f.isOverride = false →
    s.calledAlways f.id = true → s.recorded f.id < s.R →
      (isdirtyDefault [] s.disk s.R s.db f mx).result ≠ .ok .clean
  /-- A target without a checksum that depends on a waiting one and is looked at for the first
  time in the run. -/
  dependents : ∀ g mx, s.db.byId s.R g.id = some g → g.isGenerated = true →
    g.isOverride = false → g.csum = none → s.foundClean g.id = false →
      (∃ d ∈ s.db.deps, d.target = g.id ∧ d.mode = 'm' ∧ Waits s.toContext s.db d.source) →
        (isdirtyDefault [] s.disk s.R s.db g mx).result ≠ .ok .clean
  after : ∀ f, s.db.byId s.R f.id = some f → s.rebuilt f.id = true → OthersUpToDate s f →
    (isdirtyDefault [] s.disk s.R s.db f s.R).result = .ok .clean

variable {c : Context} {db : Db} {f : File} {s₀ s : Project}

theorem lookup_of_byId {R : RunId} {x : FileId} (hf : db.byId R x = some f) :
    ∃ r, db.lookup x = some r ∧ r.fromRow R = f :=
  Option.map_eq_some_iff.mp hf

namespace Inv

theorem waits_pending (hf : db.byId c.R f.id = some f) (hgen : f.isGenerated = true)
    (hov : f.isOverride = false) (hc : c.calledAlways f.id = true)
    (hlt : c.recorded f.id < c.R) : Waits c db f.id := by
  obtain ⟨r, hr, hsnap⟩ := lookup_of_byId hf
  rw [← hsnap, File.fromRow_isGenerated] at hgen
  rw [← hsnap, File.fromRow_isOverride] at hov
  exact .pending hr hgen hov hc hlt

/-- A target without a checksum bears no mark before a walk has found it clean. -/
theorem waits_dependent (h : Inv c db) {g : File} (hg : db.byId c.R g.id = some g)
    (hgen : g.isGenerated = true) (hov : g.isOverride = false) (hcsum : g.csum = none)
    (hfirst : c.foundClean g.id = false) {d : Dep} (hd : d ∈ db.deps) (ht : d.target = g.id)
    (hm : d.mode = 'm') (hw : Waits c db d.source) : Waits c db g.id := by
  have hopen : g.isChecked c.R = false := by
    cases hchecked : g.isChecked c.R with
    | false => rfl
    | true =>
      rw [(h.byId hg).first hcsum hchecked] at hfirst
      cases hfirst
  obtain ⟨r, hr, hsnap⟩ := lookup_of_byId hg
  rw [← hsnap, File.fromRow_isGenerated] at hgen
  rw [← hsnap, File.fromRow_isOverride] at hov
  rw [← hsnap, File.isChecked, File.fromRow_checkedRunid] at hopen
  exact .dependent hr hgen hov hopen hd ht hm hw

/-- Once `redo-always` has been called, `//ALWAYS` is up to date for what is as new as the run. -/
theorem always_fresh (h : Inv c db) {g : File} {mx : RunId} (hmx : c.R ≤ mx)
    (hg : db.byId c.R g.id = some g) (hname : g.name = ALWAYS)
    (hdep : ∃ d ∈ db.deps, d.source = ALWAYS_ID) : Fresh c.disk c.R db mx g := by
  have hrow := h.byId hg
  have hid : g.id = ALWAYS_ID := hrow.name.mp hname
  obtain ⟨hfailed, hgen⟩ := hrow.always hid
  obtain ⟨r, hr, hsnap⟩ := lookup_of_byId hg
  have hnodeps : ∀ m g', (m, g') ∉ db.depsOf c.R g := by
    intro m g' hmem
    rw [(Db.mem_depsOf.mp hmem).2.1] at hgen
    cases hgen
  have hchanged : g.changedRunid.isSome = true := by
    rw [← hsnap, File.fromRow]
    split
    · rfl
    · rename_i hnot
      have hrname : r.name = ALWAYS := by rw [← hname, ← hsnap, File.fromRow_name]
      cases hk : r.changedRunid with
      | none =>
        rw [hk] at hnot
        exact absurd ⟨hrname, rfl⟩ hnot
      | some k => rfl
  refine .walked hfailed hchanged (le_trans hrow.changed hmx) ?_ (fun g' hmem => ?_) fun g' hmem => ?_
  · rw [hname, h.absent, ← hsnap, File.fromRow_stamp]
    rw [hid] at hr
    exact h.stamped hdep r hr
  · exact absurd hmem (hnodeps 'c' g')
  · exact absurd hmem (hnodeps 'm' g')

/-- A target just built is up to date if its other dependencies are. -/
theorem rebuilt_fresh (h : Inv s.toContext s.db) (hf : s.db.byId s.R f.id = some f)
    (hb : s.rebuilt f.id = true) (hothers : OthersUpToDate s f) :
    Fresh s.disk s.R s.db s.R f := by
  have hrow := h.byId hf
  have hbuilt := hrow.rebuilt hb
  rcases hbuilt.mark with hchecked | hchanged
  · exact .checked hbuilt.notFailed hbuilt.changed hrow.changed hchecked
  have hR : s.R ≤ f.lastSeen := by
    obtain ⟨k, hk⟩ := Option.isSome_iff_exists.mp hbuilt.changed
    rw [File.isChanged, hk] at hchanged
    refine le_trans ?_ (le_max_left _ _)
    simpa [hk] using hchanged
  refine .walked hbuilt.notFailed hbuilt.changed hrow.changed hbuilt.stamp (fun g hg => ?_)
    fun g hg => ?_
  · exact (hothers _ hg (by simp)).1 rfl
  · by_cases hname : g.name = ALWAYS
    · have hgrow := Db.byId_of_mem_depsOf hg
      obtain ⟨-, -, d, hd, -, -, hs⟩ := Db.mem_depsOf.mp hg
      have hsource : d.source = ALWAYS_ID :=
        (Db.byId_id hs).symm.trans ((h.byId hgrow).name.mp hname)
      exact h.always_fresh hR hgrow hname ⟨d, hd, hsource⟩
    · exact (hothers _ hg (by simp [hname])).2 rfl

end Inv

/-- In every run whose events are plain. -/
theorem always_once (h₀ : Started s₀) (habsent : s₀.disk.readStamp ALWAYS = STAMP_MISSING)
    (hrun : Relation.ReflTransGen RunStep s₀ s) : AlwaysOnce s := by
  have h := h₀.run_inv habsent hrun
  constructor
  · intro f mx hf hgen hov hc hlt
    exact h.not_clean hf (Inv.waits_pending hf hgen hov hc hlt) mx
  · rintro g mx hg hgen hov hcsum hfirst ⟨d, hd, ht, hm, hw⟩
    exact h.not_clean hg (h.waits_dependent hg hgen hov hcsum hfirst hd ht hm hw) mx
  · intro f hf hb hothers
    exact (h.rebuilt_fresh hf hb hothers).clean hf

/-- No edit and no completion modifies what has been rebuilt in the run. -/
def Event.LeavesRebuilt (s : Project) : Event → Prop
  | .edit disk => KeepsRebuilt s (fun _ => False) disk
  | .finish i _ disk => KeepsRebuilt s (· = i.sf.id) disk
  | _ => True

/-- A step in which only what is to be rebuilt is modified. -/
def LeavingStep (s s' : Project) : Prop := ∃ e : Event, e.Fits s ∧ e.LeavesRebuilt s ∧ s' = e.apply s

theorem RunStep.leaving {s s' : Project} (h : RunStep s s') : LeavingStep s s' := by
  obtain ⟨e, hfits, hplain, happly⟩ := h
  refine ⟨e, hfits, ?_, happly⟩
  cases e with
  | edit disk => exact hplain.2
  | finish i scheduled disk => exact hplain.2.1
  | _ => trivial

section Retry
/-! A target `f` with its rule `f.do`. -/

/-- Only `f.do` and, with a stamp, `f` are there. -/
def diskWith (stamp : Stamp) : Disk where
  readStamp name := if name = "f" then stamp else if name = "f.do" then "5.0-1" else STAMP_MISSING
  pathExists name := if name = "f" then stamp ≠ STAMP_MISSING else name = "f.do"

def emptyProject : Project :=
  { R := 1, db := { files := [{ id := ALWAYS_ID, name := ALWAYS }] }, disk := diskWith STAMP_MISSING }

def rowOf (s : Project) (id : FileId) (name : String) : File :=
  (s.db.byId s.R id).getD { id, name }

def builderRow (s : Project) : File := (s.building 3).getD { id := 3, name := "f" }

def attemptF (s : Project) : Event :=
  .attempt { R := s.R, sf := rowOf s 3 "f", candidates := [rowOf s 2 "f.do"], poolFree := true }

/-- The recipe ends with `rv` and has written `tmp`. -/
def endOfF (s : Project) (rv : ℤ) (tmp : Option Node)
    (hrow : (s.db.lookup (builderRow s).id).isSome) : Input where
  R := s.R
  rv
  before := none
  target := none
  tmp
  stdout := []
  offset := 0
  sf := builderRow s
  db := s.db
  calls :=
    { created := { mtime := 9 }
      readStamp := fun n => if n.isSome then "9.0-1" else STAMP_MISSING }
  row := hrow

def named : Project := (Event.insert 3 "f").apply ((Event.insert 2 "f.do").apply emptyProject)

def attempted : Project := (attemptF named).apply named

theorem emptyProject_started : Started emptyProject := ⟨rfl, by decide, rfl, rfl, rfl, rfl, rfl⟩

theorem named_run : Relation.ReflTransGen RunStep emptyProject named := by
  have hrule : (Event.insert 2 "f.do").Fits emptyProject := by
    rw [Event.Fits]
    decide
  have hf : (Event.insert 3 "f").Fits ((Event.insert 2 "f.do").apply emptyProject) := by
    rw [Event.Fits]
    decide
  exact (Relation.ReflTransGen.single ⟨_, hrule, trivial, rfl⟩).tail ⟨_, hf, trivial, rfl⟩

theorem attempt_fits : (attemptF named).Fits named := by
  rw [attemptF, Event.Fits]
  decide

theorem attempted_run : Relation.ReflTransGen RunStep emptyProject attempted :=
  named_run.tail ⟨attemptF named, attempt_fits, by rw [attemptF, Event.Plain]; decide, rfl⟩

theorem attempted_rebuilt {x : FileId} (hx : x ≠ 3) : attempted.rebuilt x = false :=
  (Function.update_of_ne hx _ _).trans rfl

def called : Project := (Event.always 3).apply attempted

theorem called_rebuilt {x : FileId} (hx : x ≠ 3) : called.rebuilt x = false := attempted_rebuilt hx

def built : Project :=
  (Event.finish (endOfF called 0 (some { mtime := 9 }) (by decide)) true
    (diskWith "9.0-1")).apply called

theorem called_run : Relation.ReflTransGen RunStep emptyProject called := by
  have hfits : (Event.always 3).Fits attempted := by
    rw [Event.Fits]
    decide
  exact attempted_run.tail ⟨_, hfits, trivial, rfl⟩

theorem built_run : Relation.ReflTransGen RunStep emptyProject built := by
  refine called_run.tail ⟨_, ?_, ?_, rfl⟩
  · rw [Event.Fits]
    decide
  · have hclean : (called.db.lookup 3).all (·.failedRunid = none) = true := by decide
    refine ⟨rfl, keepsRebuilt_of_none (fun x hx => called_rebuilt hx) _, trivial, fun _ r hr => ?_⟩
    rw [show called.db.lookup 3 = some r from hr] at hclean
    exact Or.inl (by simpa using hclean)

/-- A recipe calls `redo-always`, and the next run begins. -/
theorem always_once_next_run : AlwaysOnce ((Event.newRun 2).apply built) := by
  have hfits : (Event.newRun 2).Fits built := by
    refine ⟨fun x => ?_, by decide⟩
    by_cases hx : x = 3
    · subst hx
      rfl
    · exact (Function.update_of_ne hx _ _).trans (Function.update_of_ne hx _ _)
  exact always_once emptyProject_started rfl (built_run.tail ⟨_, hfits, trivial, rfl⟩)

/-- The recipe fails and leaves no `f`. -/
def failed : Project :=
  (Event.finish (endOfF attempted 1 none (by decide)) true (diskWith STAMP_MISSING)).apply attempted

/-- The second attempt of the same run gets through. -/
def retried : Project := (Event.always 3).apply ((attemptF failed).apply failed)

def rebuiltAfterFailure : Project :=
  (Event.finish (endOfF retried 0 (some { mtime := 9 }) (by decide)) true
    (diskWith "9.0-1")).apply retried

theorem rebuiltAfterFailure_run :
    Relation.ReflTransGen LeavingStep emptyProject rebuiltAfterFailure := by
  have hfailed : LeavingStep attempted failed := by
    refine ⟨_, ?_, ?_, rfl⟩
    · rw [Event.Fits]
      decide
    · exact keepsRebuilt_of_none (fun x hx => attempted_rebuilt hx) _
  have hattempt : LeavingStep failed ((attemptF failed).apply failed) := by
    refine ⟨attemptF failed, ?_, trivial, rfl⟩
    rw [attemptF, Event.Fits]
    decide
  have halways : LeavingStep ((attemptF failed).apply failed) retried := by
    refine ⟨.always 3, ?_, trivial, rfl⟩
    rw [Event.Fits]
    decide
  have hbuilt : LeavingStep retried rebuiltAfterFailure := by
    refine ⟨_, ?_, ?_, rfl⟩
    · rw [Event.Fits]
      decide
    · refine keepsRebuilt_of_none (fun x hx => ?_) _
      have hfailed : failed.rebuilt x = false :=
        (Function.update_of_ne hx _ _).trans (attempted_rebuilt hx)
      exact (Function.update_of_ne hx _ _).trans hfailed
  have hstart : Relation.ReflTransGen LeavingStep emptyProject attempted :=
    Relation.ReflTransGen.mono (fun _ _ h => h.leaving) _ _ attempted_run
  exact (((hstart.tail hfailed).tail hattempt).tail halways).tail hbuilt

/-- The failed mark outlives the build that has got through. -/
theorem not_always_once :
    ¬∀ s₀ s, Started s₀ → Relation.ReflTransGen LeavingStep s₀ s → AlwaysOnce s := by
  intro h
  have honce := h _ _ emptyProject_started rebuiltAfterFailure_run
  let f := rowOf rebuiltAfterFailure 3 "f"
  have hothers : OthersUpToDate rebuiltAfterFailure f := by
    have hdeps : rebuiltAfterFailure.db.depsOf rebuiltAfterFailure.R f =
        [('m', rowOf rebuiltAfterFailure 2 "f.do"),
          ('m', rowOf rebuiltAfterFailure ALWAYS_ID ALWAYS)] := by
      decide
    intro p hp hnot
    rw [hdeps] at hp
    rcases List.mem_cons.mp hp with rfl | hp
    · refine ⟨fun hm => absurd hm (by decide), fun _ => ?_⟩
      have hnone : rebuiltAfterFailure.db.depsOf rebuiltAfterFailure.R
          (rowOf rebuiltAfterFailure 2 "f.do") = [] := by decide
      exact .walked (by decide) (by decide) (by decide) (by decide)
        (by simp [hnone]) (by simp [hnone])
    · obtain rfl := List.mem_singleton.mp hp
      exact absurd (by decide) hnot
  have hclean := honce.after f (by decide) (by decide) hothers
  have hdirty : (isdirtyDefault [] rebuiltAfterFailure.disk rebuiltAfterFailure.R
    rebuiltAfterFailure.db f rebuiltAfterFailure.R).result = .ok .dirty := by decide
  rw [hdirty] at hclean
  cases hclean

end Retry

end Redo.Runs
