import Redo.Runs.Reachable

/-! # `.do` files that are targets themselves

Whatever `find_do_for_target` chooses is made a source. A `.do` file that redo has built is a
source from its first use on, and what it was built from is not looked at again.
-/
namespace Redo.Cache.Request
open State

/-- The `.do` file that the search comes to. -/
def chosen (q : Request) (w : World) : Option File :=
  q.candidates.find? fun cand => w.disk.pathExists cand.name

end Redo.Cache.Request

namespace Redo.Runs
open State Dirtiness Override Completion

/-- A project, and what has become of its `.do` files. -/
structure History extends Project where
  /-- Has redo built the file? -/
  built : FileId → Bool := fun _ => false
  /-- Has the file been the `.do` of a target since redo last set about building it? -/
  used : FileId → Bool := fun _ => false

/-- A recipe starts with its `.do` file; a builder at work on a file begins its history anew. -/
def Event.using (s : Project) (used : FileId → Bool) : Event → FileId → Bool
  | .attempt q => fun x =>
    match q.scheduleBuildOne false noCalls s.world with
    | none => used x
    | some (.accepted, _) => used x
    | some (.recipe, _) => (q.chosen s.world).any (·.id = x) || (x ≠ q.sf.id && used x)
    | some _ => x ≠ q.sf.id && used x
  | .cacheHit id => Function.update used id false
  | .giveUp id => Function.update used id false
  | .stamp id _ => Function.update used id false
  | .finish i _ _ => Function.update used i.sf.id false
  | _ => used

def Event.building (built : FileId → Bool) : Event → FileId → Bool
  | .finish i scheduled _ => Function.update built i.sf.id
      (built i.sf.id || (outcome i scheduled).ended = .code 0)
  | _ => built

def Event.record (h : History) (e : Event) : History where
  toProject := e.apply h.toProject
  built := e.building h.built
  used := e.using h.toProject h.used

def HistoryStep (h h' : History) : Prop := ∃ e : Event, e.Fits h.toProject ∧ h' = e.record h

/-- A row of the tables that is not a target's. -/
def Sourced (db : Db) (x : FileId) : Prop := ∃ r, db.lookup x = some r ∧ r.isGenerated = false

variable {db : Db} {x : FileId} {f : File}

namespace Sourced

theorem save (h : Sourced db x) (hf : x = f.id → f.isGenerated = false) :
    Sourced (db.save f) x := by
  obtain ⟨r, hr, hgen⟩ := h
  by_cases hx : x = f.id
  · exact ⟨_, Db.lookup_save_self hx.symm hr, hf hx⟩
  · refine ⟨r, ?_, hgen⟩
    rw [Db.lookup_save_of_ne hx]
    exact hr

theorem byId (h : Sourced db x) {R : RunId} (hf : db.byId R x = some f) :
    f.isGenerated = false := by
  obtain ⟨r, hr, hgen⟩ := h
  rw [Db.byId, hr] at hf
  rw [← Option.some.inj hf, File.fromRow_isGenerated]
  exact hgen

theorem of_byId {R : RunId} (hf : db.byId R x = some f) (hgen : f.isGenerated = false) :
    Sourced db x := by
  obtain ⟨r, hr, rfl⟩ := Option.map_eq_some_iff.mp hf
  rw [File.fromRow_isGenerated] at hgen
  exact ⟨r, hr, hgen⟩

/-- The search for a `.do` file makes sources and no targets. -/
theorem findDo (h : Sourced db x) (disk : Disk) (R : RunId) (sf : File) (candidates : List File) :
    Sourced (Cache.findDo disk R sf candidates db).2 x := by
  obtain ⟨r, hr, hgen⟩ := h
  have hsome : ((Cache.findDo disk R sf candidates db).2.lookup x).isSome = true := by
    rw [isSome_findDo, hr]
    rfl
  obtain ⟨r', hr'⟩ := Option.isSome_iff_exists.mp hsome
  refine ⟨r', hr', ?_⟩
  rcases lookup_findDo hr' with hold | hnew
  · rw [hr] at hold
    rwa [← Option.some.inj hold]
  · exact hnew

end Sourced

theorem findDo_sourced {disk : Disk} {R R' : RunId} {sf cand : File} {candidates : List File}
    (hrows : ∀ c ∈ candidates, (db.byId R' c.id).isSome = true)
    (hc : candidates.find? (fun c => disk.pathExists c.name) = some cand) :
    Sourced (Cache.findDo disk R sf candidates db).2 cand.id := by
  induction candidates generalizing db with
  | nil => cases hc
  | cons c rest ih =>
    rw [Cache.findDo]
    by_cases hexists : disk.pathExists c.name = true
    · simp only [List.find?_cons, hexists, Option.some.injEq] at hc
      subst hc
      rw [if_pos hexists]
      obtain ⟨f, hf⟩ := Option.isSome_iff_exists.mp (hrows c List.mem_cons_self)
      obtain ⟨r, hr, -⟩ := Option.map_eq_some_iff.mp hf
      refine ⟨_, Db.lookup_save_self (setStatic_id _ _ _) hr, rfl⟩
    · simp only [List.find?_cons, hexists] at hc
      rw [if_neg hexists]
      exact ih (fun c' hmem => hrows c' (List.mem_cons_of_mem c hmem)) hc

namespace Sourced
variable {q : Cache.Request} {w : Cache.World}

theorem prepare (h : Sourced w.db x) (hx : x ≠ q.sf.id) : Sourced (q.prepare w).2.db x := by
  have hsaved : Sourced (if w.disk.pathExists q.sf.name || q.sf.isGenerated then w.db
      else w.db.save (q.target w)) x := by
    split
    · exact h
    · refine h.save fun heq => ?_
      rw [Cache.Request.target_id] at heq
      exact absurd heq hx
  have hzapped : Sourced (Db.zapDeps1 _ q.sf.id) x := hsaved
  exact hzapped.findDo w.disk q.R (q.target w) q.candidates

/-- What an attempt has chosen as the `.do` file is a source. -/
theorem chosen {R : RunId} {cand : File}
    (hrows : ∀ c ∈ q.candidates, w.db.byId R c.id = some c)
    (hc : q.chosen w = some cand) : Sourced (q.prepare w).2.db cand.id := by
  have hknown : ∀ c ∈ q.candidates, ((Db.zapDeps1
      (if w.disk.pathExists q.sf.name || q.sf.isGenerated then w.db
        else w.db.save (q.target w)) q.sf.id).byId R c.id).isSome = true := by
    intro c hmem
    change ((if _ then w.db else w.db.save (q.target w)).byId R c.id).isSome = true
    rw [Db.byId, Option.isSome_map]
    obtain ⟨r, hr, -⟩ := Option.map_eq_some_iff.mp (hrows c hmem)
    split
    · rw [hr]
      rfl
    · rw [isSome_save, hr]
      rfl
  exact findDo_sourced hknown hc

/-- An attempt that ends without a recipe or a failure makes no target of a source. -/
theorem accepted (hq : Sourced w.db q.sf.id) (hsf : q.sf.isGenerated = false)
    {calls : Cache.Calls} {w' : Cache.World}
    (h : q.scheduleBuildOne false calls w = some (.accepted, w')) : Sourced w'.db q.sf.id := by
  unfold Cache.Request.scheduleBuildOne at h
  have hover : ¬overridden (w.disk.readStamp q.sf.name) q.sf = true := by
    simp [overridden, hsf]
  simp only [hover, if_false, Bool.false_eq_true] at h
  by_cases hpresent : w.disk.pathExists q.sf.name = true
  · simp only [hpresent, hsf, Bool.not_false, Bool.and_true, if_true, Option.some.injEq,
      Prod.mk.injEq, true_and] at h
    subst h
    exact hq.save fun _ => rfl
  · simp only [hpresent, Bool.false_and, Bool.false_eq_true, if_false] at h
    split at h
    · cases h
    · split at h <;> cases h

end Sourced

variable {h h' : History}

/-- An attempt on another file. -/
theorem Sourced.attempt {s : Project} {q : Cache.Request} {o : Cache.Outcome} {db : Db}
    (h : Sourced s.db x) (hx : x ≠ q.sf.id) (hends : q.Ends s.world o db) : Sourced db x := by
  cases hends with
  | skipped => exact h
  | kept hf =>
    refine h.save fun heq => absurd heq ?_
    rcases hf with rfl | rfl
    · exact fun heq => hx (heq.trans (q.sf.updateStamp_id _ _))
    · exact fun heq => hx (heq.trans (setStatic_id _ _ _))
  | unruled _ hf =>
    refine (Sourced.prepare h hx).save fun heq => absurd heq ?_
    rcases hf with rfl | rfl
    · exact fun heq => hx (heq.trans ((setStatic_id _ _ _).trans Cache.Request.target_id))
    · exact fun heq => hx (heq.trans ((File.setFailed_id _ _ _).trans Cache.Request.target_id))
  | recipe => exact Sourced.prepare h hx

theorem Event.Fits.sourced_attempt {s : Project} {q : Cache.Request} {used : FileId → Bool}
    (hfits : (Event.attempt q).Fits s) (hold : ∀ x, used x = true → Sourced s.db x)
    (hx : (Event.attempt q).using s used x = true) :
    Sourced ((Event.attempt q).apply s).db x := by
  obtain ⟨-, hsf, -, hpool, hcand⟩ := hfits
  rw [Event.using] at hx
  rw [Event.apply]
  cases hout : q.scheduleBuildOne false noCalls s.world with
  | none =>
    simp only [hout] at hx
    exact hold x hx
  | some out =>
    obtain ⟨o, db, disk⟩ := out
    have hends : q.Ends s.world o db := Cache.Request.scheduleBuildOne_ends hpool hout
    have hother : used x = true → x ≠ q.sf.id → Sourced db x :=
      fun hu hne => (hold x hu).attempt hne hends
    cases o with
    | accepted =>
      simp only [hout] at hx
      by_cases hself : x = q.sf.id
      · subst hself
        exact Sourced.accepted (w := s.world) (hold _ hx) ((hold _ hx).byId hsf) hout
      · exact hother hx hself
    | recipe =>
      simp only [hout, Bool.or_eq_true, Bool.and_eq_true, decide_eq_true_eq] at hx
      rcases hx with hchosen | ⟨hne, hu⟩
      · cases hends with
        | unruled ho => exact absurd rfl ho
        | recipe =>
          obtain ⟨cand, hc, hid⟩ := (Option.any_eq_true _ _).mp hchosen
          rw [← of_decide_eq_true hid]
          exact Sourced.chosen (w := s.world) (fun c hmem => (hcand c hmem).1) hc
      · exact hother hu hne
    | deferredPool | noRule | cacheHit | missingDependency | dependencyFailed =>
      simp only [hout, Bool.and_eq_true, decide_eq_true_eq] at hx
      exact hother hx.2 hx.1

/-- Builders hold rows of what they build. -/
def HoldsOwn (s : Project) : Prop := ∀ x sf, s.building x = some sf → sf.id = x

theorem HoldsOwn.release {building : FileId → Option File} (h : ∀ x sf, building x = some sf → sf.id = x)
    (y : FileId) : ∀ x sf, Function.update building y none x = some sf → sf.id = x := by
  intro x sf hsf
  by_cases hx : x = y
  · subst hx
    simp at hsf
  · rw [Function.update_of_ne hx] at hsf
    exact h x sf hsf

theorem HoldsOwn.apply {s : Project} (h : HoldsOwn s) (e : Event) : HoldsOwn (e.apply s) := by
  cases e with
  | newRun | edit | insert | isdirty | ifcreate => exact h
  | attempt q =>
    rw [Event.apply]
    cases hout : q.scheduleBuildOne false noCalls s.world with
    | none => exact h
    | some out =>
      obtain ⟨o, w⟩ := out
      cases o with
      | recipe =>
        intro x sf hsf
        by_cases hx : x = q.sf.id
        · subst hx
          simp only [Project.attemptedBy, Function.update_self, Option.some.injEq] at hsf
          rw [← hsf]
          exact Cache.Request.target_id
        · simp only [Project.attemptedBy, Function.update_of_ne hx] at hsf
          exact h x sf hsf
      | _ => exact h
  | cacheHit id =>
    rw [Event.apply]
    split
    · exact h
    · exact HoldsOwn.release h id
  | giveUp id =>
    rw [Event.apply]
    split
    · exact h
    · exact HoldsOwn.release h id
  | ifchange id source =>
    rw [Event.apply]
    split <;> exact h
  | always id =>
    rw [Event.apply]
    split <;> exact h
  | stamp id csum =>
    rw [Event.apply]
    split <;> exact h
  | finish i scheduled disk => exact HoldsOwn.release h i.sf.id
  | die id => exact HoldsOwn.release h id

/-- Whatever the walk writes, it makes no target. -/
theorem Sourced.isdirty {R : RunId} {disk : Disk} (h : Sourced db x)
    (hf : db.byId R f.id = some f) (mx : RunId) :
    Sourced (isdirtyDefault [] disk R db f mx).state.db x := by
  have hnone : Unsettled disk R db fun _ => False := fun _ _ hN => hN.elim
  have hholds : RuleHolds db _ _ [] f mx (isdirtyDefault [] disk R db f mx) :=
    hnone.walk (by simp) hf mx
  have halong := hholds.along
  obtain ⟨r₀, hr₀, hgen⟩ := h
  have hsome := halong.known x
  rw [hr₀] at hsome
  obtain ⟨r, hr⟩ := Option.isSome_iff_exists.mp hsome
  obtain ⟨r₁, hr₁, ht⟩ := halong.rows _ _ hr
  rw [hr₀] at hr₁
  cases hr₁
  refine ⟨r, hr, ?_⟩
  rcases ht.generated with heq | ⟨heq, -⟩
  · rw [heq, hgen]
  · exact heq

theorem Event.Fits.sourced {s : Project} {e : Event} {used : FileId → Bool} (hfits : e.Fits s)
    (howns : HoldsOwn s) (hold : ∀ x, used x = true → Sourced s.db x)
    (hx : e.using s used x = true) : Sourced (e.apply s).db x := by
  cases e with
  | newRun | edit | ifcreate | die => exact hold x hx
  | insert id name =>
    obtain ⟨r, hr, hgen⟩ := hold x hx
    refine ⟨r, ?_, hgen⟩
    rw [Event.apply, Inv.lookup_insert name (fun r hr => (hfits r hr).1), if_neg]
    · exact hr
    · rintro rfl
      exact (hfits r (List.mem_of_find?_eq_some hr)).1 (Db.lookup_id hr)
  | isdirty f mx => exact (hold x hx).isdirty hfits mx
  | attempt q => exact hfits.sourced_attempt hold hx
  | cacheHit id =>
    obtain ⟨hne, hu⟩ := of_update_false hx
    obtain ⟨sf, hb, -⟩ := hfits
    rw [Event.apply, hb]
    have hzapped : Sourced (((s.db.depsOf s.R sf).foldl
        (fun db p => db.addDep sf.id p.1 p.2.id) s.db).zapDeps2 sf.id) x := by
      obtain ⟨r, hr, hgen⟩ := hold x hu
      exact ⟨r, (Inv.foldl_lookup sf.id x _ s.db).trans hr, hgen⟩
    refine hzapped.save fun heq => absurd heq ?_
    rw [cacheHitRow, File.updateStamp_id, refresh_id, howns id sf hb]
    exact hne
  | giveUp id =>
    obtain ⟨hne, hu⟩ := of_update_false hx
    obtain ⟨sf, hb⟩ := Option.isSome_iff_exists.mp hfits
    rw [Event.apply, hb]
    refine (hold x hu).save fun heq => absurd heq ?_
    rw [File.setFailed_id, howns id sf hb]
    exact hne
  | ifchange id source =>
    rw [Event.apply]
    cases hf : s.db.byId s.R id with
    | none => exact hold x hx
    | some f =>
      have hadd : Sourced (s.db.addDep id 'm' source) x := hold x hx
      refine hadd.save fun heq => ?_
      rw [Db.byId_id hf] at heq
      exact (heq ▸ hold x hx).byId hf
  | always id =>
    rw [Event.apply]
    cases hf : s.db.byId s.R id with
    | none => exact hold x hx
    | some f =>
      cases hr : s.db.byId s.R ALWAYS_ID with
      | none => exact hold x hx
      | some r =>
        have hadd : Sourced (s.db.addDep id 'm' ALWAYS_ID) x := hold x hx
        refine (hadd.save fun heq => ?_).save fun _ => rfl
        rw [Db.byId_id hf] at heq
        exact (heq ▸ hold x hx).byId hf
  | stamp id csum =>
    obtain ⟨hne, hu⟩ := of_update_false hx
    rw [Event.apply]
    cases hf : s.db.byId s.R id with
    | none => exact hold x hu
    | some f =>
      refine (hold x hu).save fun heq => absurd heq ?_
      rw [redoStamp_id, Db.byId_id hf]
      exact hne
  | finish i scheduled disk =>
    obtain ⟨hne, hu⟩ := of_update_false hx
    obtain ⟨-, -, hdb, hend, -⟩ := hfits
    obtain ⟨db, r, hbase, hw, hsaved⟩ := outcome_commits hend
    have hzapped : Sourced (db.zapDeps2 i.sf.id) x := by
      obtain ⟨r₀, hr₀, hgen⟩ := hold x hu
      exact ⟨r₀, (hbase.lookup x).trans (hdb ▸ hr₀), hgen⟩
    rw [Event.apply, hsaved]
    refine hzapped.save fun heq => absurd heq ?_
    rw [hw.id_eq]
    exact hne

theorem HistoryStep.inv (hstep : HistoryStep h h') (howns : HoldsOwn h.toProject)
    (hold : ∀ x, h.used x = true → Sourced h.db x) :
    HoldsOwn h'.toProject ∧ ∀ x, h'.used x = true → Sourced h'.db x := by
  obtain ⟨e, hfits, rfl⟩ := hstep
  exact ⟨howns.apply e, fun x hx => hfits.sourced howns hold hx⟩

/-- A project without a past. -/
structure Begun (h : History) : Prop extends Started h.toProject where
  unused : h.used = fun _ => false

theorem Begun.run_sourced {h₀ : History} (hstart : Begun h₀)
    (hrun : Relation.ReflTransGen HistoryStep h₀ h) :
    HoldsOwn h.toProject ∧ ∀ x, h.used x = true → Sourced h.db x := by
  induction hrun with
  | refl =>
    constructor
    · intro x sf hsf
      rw [hstart.building] at hsf
      cases hsf
    · intro x hx
      rw [hstart.unused] at hx
      cases hx
  | tail _ hstep ih => exact hstep.inv ih.1 ih.2

/-- `redo-ifchange`, with the files as in `disk`: the walk does not find the target clean, and
then its recipe starts. -/
def IfchangeBuilds (s : Project) (disk : Disk) (q : Cache.Request) : Prop :=
  (isdirtyDefault [] disk s.R s.db q.sf s.R).result ≠ .ok .clean ∧
    ∃ w, q.scheduleBuildOne false noCalls ⟨s.db, disk⟩ = some (.recipe, w)

/-- What was recorded for the build of `g` is still there and is still looked at. -/
structure StaysTarget (s : Project) (g : FileId) : Prop where
  generated : ∀ f, s.db.byId s.R g = some f → f.isGenerated = true
  deps : ∀ f, s.db.byId s.R g = some f → ∀ d ∈ s.db.deps, d.target = g →
    (s.db.lookup d.source).isSome = true → ∃ p ∈ s.db.depsOf s.R f, p.2.id = d.source
  /-- `g` is as redo has left it, and something it was built from has changed. -/
  rebuilds : ∀ disk q, s.db.byId s.R g = some q.sf → disk.pathExists q.sf.name = true →
    q.sf.stamp = some (disk.readStamp q.sf.name) → q.hasRule ⟨s.db, disk⟩ = true →
    (∃ d ∈ s.db.deps, d.target = g ∧ d.mode = 'm' ∧ ∃ r, s.db.lookup d.source = some r ∧
      r.stamp ≠ some (disk.readStamp r.name)) → IfchangeBuilds s disk q

theorem not_ifchangeBuilds {s : Project} {disk : Disk} {q : Cache.Request}
    (hgen : q.sf.isGenerated = false) (hpresent : disk.pathExists q.sf.name = true) :
    ¬IfchangeBuilds s disk q := by
  rintro ⟨-, w, hw⟩
  have hover : ¬overridden (disk.readStamp q.sf.name) q.sf = true := by
    simp [overridden, hgen]
  unfold Cache.Request.scheduleBuildOne at hw
  simp only [hover, hpresent, hgen, Bool.not_false, Bool.and_true, if_true, if_false,
    Bool.false_eq_true, Option.some.injEq, Prod.mk.injEq, reduceCtorEq, false_and] at hw

/-- In no history does a `.do` file that has been used since it was built stay a target: it has
no dependencies, and while it is there `redo-ifchange` does not build it. -/
theorem used_rule_lost {h₀ : History} {g : FileId} (hstart : Begun h₀)
    (hrun : Relation.ReflTransGen HistoryStep h₀ h) (hused : h.used g = true) :
    ¬StaysTarget h.toProject g ∧ ∃ f, h.db.byId h.R g = some f ∧ f.isGenerated = false ∧
      h.db.depsOf h.R f = [] ∧ ∀ disk q, q.sf = f → disk.pathExists f.name = true →
        ¬IfchangeBuilds h.toProject disk q := by
  obtain ⟨r, hr, hgen⟩ := (hstart.run_sourced hrun).2 g hused
  have hf : h.db.byId h.R g = some (r.fromRow h.R) := by
    rw [Db.byId, hr]
    rfl
  have hsource : (r.fromRow h.R).isGenerated = false := by
    rw [File.fromRow_isGenerated]
    exact hgen
  refine ⟨fun hstays => ?_, _, hf, hsource, ?_, ?_⟩
  · rw [hstays.generated _ hf] at hsource
    cases hsource
  · rw [Db.depsOf, if_pos (Or.inr (by simp [hgen]))]
  · intro disk q hq hpresent
    rw [← hq] at hsource hpresent
    exact not_ifchangeBuilds hsource hpresent

section Generated
/-! `t.do` is built by `t.do.do`, and then `t` by `t.do`. -/

def ruleDisk (built : Bool) : Disk where
  readStamp name :=
    if name = "t.do.do" then "5.0-1" else if name = "t.do" && built then "9.0-1" else STAMP_MISSING
  pathExists name := name = "t.do.do" || name = "t.do" && built

def History.row (h : History) (id : FileId) : File := (h.db.byId h.R id).getD { id, name := "" }

def History.begun : History where
  R := 1
  db := { files := [{ id := ALWAYS_ID, name := ALWAYS }] }
  disk := ruleDisk false

def History.attempt (h : History) (id rule : FileId) : Event :=
  .attempt { R := h.R, sf := h.row id, candidates := [h.row rule], poolFree := true }

/-- The three files have been heard of. -/
def History.heard : History :=
  (Event.insert 4 "t").record ((Event.insert 3 "t.do").record
    ((Event.insert 2 "t.do.do").record History.begun))

def History.started : History := (History.heard.attempt 3 2).record History.heard

/-- The recipe in `t.do.do` ends with code 0. -/
def ruleBuilt : Input where
  R := 1
  rv := 0
  before := none
  target := none
  tmp := some { mtime := 9 }
  stdout := []
  offset := 0
  sf := (History.started.building 3).getD { id := 3, name := "t.do" }
  db := History.started.db
  calls :=
    { created := { mtime := 9 }
      readStamp := fun n => if n.isSome then "9.0-1" else STAMP_MISSING }
  row := by decide

def History.ruled : History := (Event.finish ruleBuilt true (ruleDisk true)).record History.started

def History.ruleUsed : History := (History.ruled.attempt 4 3).record History.ruled

theorem History.begun_begun : Begun History.begun where
  db := rfl
  positive := by decide
  building := rfl
  callsAlways := rfl
  calledAlways := rfl
  rebuilt := rfl
  foundClean := rfl
  unused := rfl

theorem History.ruleUsed_run : Relation.ReflTransGen HistoryStep History.begun History.ruleUsed := by
  have hrule : (Event.insert 2 "t.do.do").Fits History.begun.toProject := by
    rw [Event.Fits]
    decide
  have hdo : (Event.insert 3 "t.do").Fits
      ((Event.insert 2 "t.do.do").record History.begun).toProject := by
    rw [Event.Fits]
    decide
  have ht : (Event.insert 4 "t").Fits ((Event.insert 3 "t.do").record
      ((Event.insert 2 "t.do.do").record History.begun)).toProject := by
    rw [Event.Fits]
    decide
  have hattempt : (History.heard.attempt 3 2).Fits History.heard.toProject := by
    rw [History.attempt, Event.Fits]
    decide
  have hfinish : (Event.finish ruleBuilt true (ruleDisk true)).Fits History.started.toProject := by
    rw [Event.Fits]
    decide
  have huse : (History.ruled.attempt 4 3).Fits History.ruled.toProject := by
    rw [History.attempt, Event.Fits]
    decide
  exact .tail (.tail (.tail (.tail (.tail (.single ⟨_, hrule, rfl⟩) ⟨_, hdo, rfl⟩) ⟨_, ht, rfl⟩)
    ⟨_, hattempt, rfl⟩) ⟨_, hfinish, rfl⟩) ⟨_, huse, rfl⟩

theorem used_rule_lost_of_t :
    History.ruleUsed.built 3 = true ∧ ¬StaysTarget History.ruleUsed.toProject 3 :=
  ⟨by decide, (used_rule_lost History.begun_begun History.ruleUsed_run (by decide)).1⟩

theorem not_staysTarget : ¬∀ h₀ h g, Begun h₀ → Relation.ReflTransGen HistoryStep h₀ h →
    h.built g = true → h.used g = true → StaysTarget h.toProject g := by
  intro hstays
  have hgen := (hstays _ _ 3 History.begun_begun History.ruleUsed_run (by decide)
    (by decide)).generated (History.ruleUsed.row 3) (by decide)
  exact absurd hgen (by decide)

end Generated

end Redo.Runs
