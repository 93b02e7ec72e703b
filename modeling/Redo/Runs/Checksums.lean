import Redo.Dirtiness.Steady
import Redo.Runs.Growing
import Redo.Runs.Once

/-! # Checksums stop rebuilds

Where only checksums keep a walk from finding a target clean, `redo-unlocked` has the files behind
them built first and looks once more. It does not do so twice.
-/
namespace Redo.Runs
open State Dirtiness Override Completion

/-- The target has been built, and the build has not failed. -/
structure BuiltBefore (p : Work) (g : FileId) (r : File) : Prop where
  row : p.db.lookup g = some r
  notFailed : r.failedRunid = none
  changed : r.changedRunid.isSome = true

/-- Nothing has happened to the files that the target has been built from, as far as they are not
generated themselves, nor to its own. -/
structure Untouched (p : Work) (f : File) : Prop where
  stamp : f.stamp = some (p.disk.readStamp f.name)
  absent : ∀ d, ('c', d) ∈ p.db.depsOf p.R f → p.disk.pathExists d.name = false
  sources : ∀ d, ('m', d) ∈ p.db.depsOf p.R f → d.isGenerated = false →
    d.stamp = some (p.disk.readStamp d.name)

/-- Every process that comes to the target may call `redo-unlocked` and finds it untouched, and none
comes because the file is missing. The run goes on. -/
def Act.LeavesAlone (g : FileId) (p : Work) : Act → Prop
  | enter entry oob f =>
    f.id = g → Untouched p f ∧ (entry ≠ .unlocked → oob = true) ∧ entry ≠ .missing
  | newRun _ => False
  | _ => True

/-- No recorded dependency of the target has changed since. -/
def NothingNewer (db : Db) (p : Work) (g : FileId) (r : File) : Prop :=
  ∀ d ∈ db.deps, d.target = g → d.mode = 'm' → ∀ f, p.db.byId p.R d.source = some f →
    f.changedRunid.getD 0 ≤ r.lastSeen

/-- The first look leaves it to checksums, and when `redo-unlocked` has had the files behind them
built the second look finds all dependencies up to date. None of them fails; `db` are the tables at
the start of the run. -/
def Act.Uncertain (g : FileId) (db : Db) (p : Work) : Act → Prop
  | enter entry _ f => f.id = g → ∀ d, ('m', d) ∈ p.db.depsOf p.R f →
      if entry = .unlocked then Fresh p.disk p.R p.db p.R d else Steady p.disk p.R p.db p.R d
  | other e => ∀ d ∈ db.deps, d.target = g → d.mode = 'm' → e.fails ≠ some d.source
  | _ => True

def UncertainStep (g : FileId) (db : Db) (p p' : Work) : Prop :=
  ∃ a : Act, a.Fits p ∧ a.LeavesAlone g p ∧ a.Uncertain g db p ∧ p' = a.apply p

/-- A look at the target that finds its own file and the files recorded as absent unchanged, and, as
long as no recorded dependency has changed, its dependencies as `Act.Uncertain` says. -/
structure QuietLook (g : FileId) (db : Db) (r : File) (p : Work) (entry : Entry) (oob : Bool)
    (f : File) : Prop where
  stamp : f.stamp = some (p.disk.readStamp f.name)
  absent : ∀ d, ('c', d) ∈ p.db.depsOf p.R f → p.disk.pathExists d.name = false
  outOfBand : entry ≠ .unlocked → oob = true
  there : entry ≠ .missing
  deps : NothingNewer db p g r → ∀ d, ('m', d) ∈ p.db.depsOf p.R f →
    if entry = .unlocked then Fresh p.disk p.R p.db p.R d else Steady p.disk p.R p.db p.R d

def Act.Quiet (g : FileId) (db : Db) (r : File) (p : Work) : Act → Prop
  | enter entry oob f => f.id = g → QuietLook g db r p entry oob f
  | other e => ∀ d ∈ db.deps, d.target = g → d.mode = 'm' → e.fails ≠ some d.source
  | newRun _ => False
  | _ => True

/-- All files that the target has been built from are as they were. -/
def AloneStep (g : FileId) (p p' : Work) : Prop :=
  ∃ a : Act, a.Fits p ∧ a.LeavesAlone g p ∧ p' = a.apply p

def QuietStep (g : FileId) (db : Db) (r : File) (p p' : Work) : Prop :=
  ∃ a : Act, a.Fits p ∧ a.Quiet g db r p ∧ p' = a.apply p

/-- The row of a target that is not built in this run. -/
structure Standing (R B : RunId) (r : File) : Prop where
  notFailed : r.failedRunid = none
  changed : r.changedRunid.isSome = true
  notAfter : r.changedRunid.getD 0 ≤ R
  seen : B ≤ r.lastSeen

/-- Nobody has begun to build `g` since `q`. -/
structure Unbuilt (q : Work) (g : FileId) (B : RunId) (p : Work) : Prop where
  run : p.R = q.R
  tidy : Tidy p.toProject
  executions : p.executions g = 0
  idle : p.building g = none
  unclaimed : p.claimed g ≠ some .build
  row : ∃ r, p.db.lookup g = some r ∧ Standing p.R B r
  deps : ∀ d, d.target = g → (d ∈ p.db.deps ↔ d ∈ q.db.deps)

/-- One of the dependencies recorded in `q` has changed. -/
structure Overtaken (q : Work) (g : FileId) (B : RunId) (p : Work) : Prop where
  run : p.R = q.R
  tidy : Tidy p.toProject
  dep : ∃ d ∈ q.db.deps, d.target = g ∧ d.mode = 'm' ∧ ∃ r, p.db.lookup d.source = some r ∧
    (r.name = ALWAYS ∨ B < r.changedRunid.getD 0)

variable {p p' q : Work} {g x : FileId} {B : RunId} {r f : File} {a : Act} {s : Project}

namespace Standing

theorem of_checked {R : RunId} {r' : File} (h : Standing R B r) (hfailed : r'.failedRunid = none)
    (hchanged : r'.changedRunid = r.changedRunid ∨ r'.changedRunid = some R) (hB : B ≤ R)
    (hchecked : r'.checkedRunid = r.checkedRunid ∨ r'.checkedRunid = some R) :
    Standing R B r' where
  notFailed := hfailed
  changed := by
    rcases hchanged with hc | hc
    · rw [hc]
      exact h.changed
    · rw [hc]
      rfl
  notAfter := by
    rcases hchanged with hc | hc
    · rw [hc]
      exact h.notAfter
    · rw [hc]
      exact le_refl R
  seen := by
    rcases hchanged with hc | hc
    · rcases hchecked with hk | hk
      · rw [File.lastSeen, hc, hk]
        exact h.seen
      · rw [File.lastSeen, hk]
        exact hB.trans (le_max_right _ _)
    · rw [File.lastSeen, hc]
      exact hB.trans (le_max_left _ _)

theorem fromRow {R : RunId} (h : Standing R B r) (hB : B ≤ R) : Standing R B (r.fromRow R) :=
  h.of_checked ((fromRow_failedRunid R r).trans h.notFailed) (fromRow_changed R r) hB
    (.inl (File.fromRow_checkedRunid R r))

theorem beside {r' : File} (h : Standing s.R B r) (hB : B ≤ s.R) (hbeside : Beside s x r r') :
    Standing s.R B r' := by
  have hchanged := hbeside.grown.changed
  cases hbeside with
  | same => exact h
  | walked ht =>
    exact h.of_checked (ht.failed.trans h.notFailed) hchanged hB (ht.checked.imp_right And.left)
  | chosen =>
    have hchecked := ((Later.fromRow s.R r).trans (.setStatic s.R (s.disk.readStamp r.name) _)).checked
    exact h.of_checked rfl hchanged hB (.inl hchecked)
  | always =>
    have hchecked := ((Later.fromRow s.R r).trans (.redoAlways s.R _)).checked
    exact h.of_checked rfl hchanged hB (.inl hchecked)

end Standing

/-- A dependency that was recorded and has changed since its target was last seen. -/
theorem Unbuilt.overtaken (h : Unbuilt q g B p) (hf : f.id = g) (hseen : B ≤ f.lastSeen) {d : File}
    (hd : ('m', d) ∈ p.db.depsOf p.R f) (hnew : f.lastSeen < d.changedRunid.getD 0) :
    Overtaken q g B p := by
  obtain ⟨-, -, d', hd', ht, hm, hsrc⟩ := Db.mem_depsOf.mp hd
  obtain ⟨rd, hrd, rfl⟩ := Option.map_eq_some_iff.mp hsrc
  have htarget : d'.target = g := ht.trans hf
  refine ⟨h.run, h.tidy, d', (h.deps d' htarget).mp hd', htarget, hm, rd, hrd, ?_⟩
  by_cases hname : rd.name = ALWAYS
  · exact .inl hname
  · rw [File.fromRow_of_ne _ _ hname] at hnew
    exact .inr (lt_of_le_of_lt hseen hnew)

theorem Unbuilt.overtaken_of_newer (h : Unbuilt q g B p) (hB : B = r.lastSeen)
    (hnew : ¬NothingNewer q.db p g r) : Overtaken q g B p := by
  simp only [NothingNewer, not_forall, not_le] at hnew
  obtain ⟨d, hd, ht, hm, f, hf, hlt⟩ := hnew
  obtain ⟨rd, hrd, rfl⟩ := Option.map_eq_some_iff.mp hf
  refine ⟨h.run, h.tidy, d, hd, ht, hm, rd, hrd, ?_⟩
  by_cases hname : rd.name = ALWAYS
  · exact .inl hname
  · rw [File.fromRow_of_ne _ _ hname] at hlt
    exact .inr (hB ▸ hlt)

/-- Nobody decides to build the target. -/
theorem Unbuilt.verdict (h : Unbuilt q g B p) (hB : B ≤ p.R) {entry : Entry} {oob : Bool}
    (hfits : (Act.enter entry oob f).Fits p) (hlook : QuietLook g q.db r p entry oob f)
    (hend : NothingNewer q.db p g r) (hf : f.id = g) :
    entry.verdict oob p.toProject f ≠ some .build ∨ Overtaken q g B p := by
  obtain ⟨hrow, -, -⟩ := hfits
  obtain ⟨hstamp, habsent, hoob, hthere, hdeps⟩ := hlook
  replace hdeps := hdeps hend
  have hstanding : Standing p.R B f := by
    obtain ⟨r, hr, hstanding⟩ := h.row
    rw [hf, Db.byId, hr] at hrow
    rw [← Option.some.inj hrow]
    exact hstanding.fromRow hB
  by_cases hnew : ∃ d, ('m', d) ∈ p.db.depsOf p.R f ∧ f.lastSeen < d.changedRunid.getD 0
  · obtain ⟨d, hd, hlt⟩ := hnew
    exact .inr (h.overtaken hf hstanding.seen hd hlt)
  push Not at hnew
  left
  intro hbuild
  have hlooks : entry.walks = true := by
    cases entry with
    | missing => exact absurd rfl hthere
    | _ => rfl
  rw [Entry.verdict, if_pos hlooks] at hbuild
  split at hbuild
  · cases hbuild
  by_cases hentry : entry = .unlocked
  · simp only [hentry, if_true] at hdeps
    have hfresh : Fresh p.disk p.R p.db p.R f :=
      .walked hstanding.notFailed hstanding.changed hstanding.notAfter hstamp habsent
        fun d hd => (hdeps d hd).bound (hnew d hd)
    rw [hfresh.clean hrow] at hbuild
    cases hbuild
  · simp only [hentry, if_false] at hdeps
    have hbelow : ∀ d, ('m', d) ∈ p.db.depsOf p.R f → Steady p.disk p.R p.db f.lastSeen d :=
      fun d hd => (hdeps d hd).bound (hnew d hd)
    have hsteady : Steady p.disk p.R p.db p.R f :=
      .walked hstanding.notFailed hstanding.changed hstanding.notAfter hstamp habsent hbelow
    split at hbuild
    · rename_i hdirty
      exact hsteady.not_dirty hrow hdirty
    · rename_i list hlist
      have hother := Steady.mustBuild_ne hrow hstamp habsent hbelow hlist
      have hnot : list.map (·.id) ≠ [f.id] := by
        intro hmap
        obtain ⟨d, hd, hid⟩ : ∃ d ∈ list, d.id = f.id := by
          rw [← List.mem_map, hmap]
          exact List.mem_singleton.mpr rfl
        exact hother d hd hid
      rw [if_pos] at hbuild
      · cases hbuild
      · simp [hentry, hoob hentry, hnot]
    · cases hbuild
    · cases hbuild

theorem Act.Quiet.run (h : a.Quiet g q.db r p) (hfits : a.Fits p) : (a.apply p).R = p.R :=
  hfits.run (by rintro R rfl; exact h.elim)

theorem Overtaken.step (h : Overtaken q g B p) (hB : B < p.R) (hfits : a.Fits p)
    (hquiet : a.Quiet g q.db r p) : Overtaken q g B (a.apply p) := by
  obtain ⟨d, hd, ht, hm, rd, hr, hnew⟩ := h.dep
  have hevent := hfits.event
  have hproject := a.apply_toProject p
  have hok : (a.event p).fails ≠ some d.source := by
    cases a with
    | enter entry oob f =>
      rw [Act.event]
      split <;> simp [Event.fails]
    | other e => exact hquiet d hd ht hm
    | _ => simp [Act.event, Event.fails]
  obtain ⟨r', hr', hgrown⟩ := hevent.grown h.tidy hok hr
  rw [← hproject] at hr'
  refine ⟨(hquiet.run hfits).trans h.run, ?_, d, hd, ht, hm, r', hr', ?_⟩
  · rw [hproject]
    exact hevent.tidy h.tidy
  · rw [hgrown.name]
    refine hnew.imp_right fun hlt => ?_
    rcases hgrown.changed with hc | hc
    · rwa [hc]
    · rw [hc]
      exact hB

/-- What is not about `g` leaves it as it is. -/
theorem Unbuilt.beside (h : Unbuilt q g B p) (hB : B ≤ p.R) (hfits : a.Fits p)
    (hquiet : a.Quiet g q.db r p) (htarget : (a.event p).target ≠ some g)
    (hexecutions : (a.apply p).executions g = p.executions g)
    (hclaimed : (a.apply p).claimed g ≠ some .build) : Unbuilt q g B (a.apply p) := by
  obtain ⟨rg, hr, hstanding⟩ := h.row
  have hevent := hfits.event
  have hproject := a.apply_toProject p
  have hR := hquiet.run hfits
  obtain ⟨r', hr', hbeside⟩ := hevent.beside h.tidy htarget hr
  refine ⟨hR.trans h.run, ?_, hexecutions.trans h.executions, ?_, hclaimed, ⟨r', ?_, ?_⟩,
    fun d hd => ?_⟩
  · rw [hproject]
    exact hevent.tidy h.tidy
  · rw [hproject]
    exact building_of_target_ne hevent htarget h.idle
  · rw [hproject]
    exact hr'
  · rw [hR]
    exact hstanding.beside hB hbeside
  · rw [← h.deps d hd, hproject]
    exact (hevent.sameDeps h.tidy.ids (fun hs => htarget (target_of_sorts hs))
      fun hdec => htarget (target_of_declares hdec)).deps d hd

theorem Unbuilt.step (h : Unbuilt q g B p) (hB : B ≤ p.R) (hfits : a.Fits p)
    (hquiet : a.Quiet g q.db r p) (hend : NothingNewer q.db p g r) :
    Unbuilt q g B (a.apply p) ∨ Overtaken q g B p := by
  cases a with
  | enter entry oob f =>
    have htarget : ((Act.enter entry oob f).event p).target ≠ some g := by
      rw [Act.event]
      split <;> simp [Event.target]
    by_cases hf : f.id = g
    · refine (h.verdict hB hfits (hquiet hf) hend hf).imp_left fun hverdict => ?_
      refine h.beside hB hfits hquiet htarget rfl ?_
      subst hf
      have hclaimed : ((Act.enter entry oob f).apply p).claimed f.id =
          entry.verdict oob p.toProject f := Function.update_self _ _ _
      rwa [hclaimed]
    · left
      refine h.beside hB hfits hquiet htarget rfl fun hclaim => h.unclaimed ?_
      exact (Function.update_of_ne (Ne.symm hf) _ _).symm.trans hclaim
  | giveBack id =>
    left
    refine h.beside hB hfits hquiet (by simp [Act.event, Event.target]) rfl fun hclaim => ?_
    by_cases hx : g = id
    · subst hx
      have hnone : ((Act.giveBack g).apply p).claimed g = none := Function.update_self _ _ _
      rw [hnone] at hclaim
      cases hclaim
    · exact h.unclaimed ((Function.update_of_ne hx _ _).symm.trans hclaim)
  | attempt q' =>
    left
    have hx : g ≠ q'.sf.id := by
      rintro rfl
      exact h.unclaimed hfits.1
    refine h.beside hB hfits hquiet (fun ht => hx (Option.some.inj ht).symm) rfl fun hclaim => ?_
    exact h.unclaimed ((Function.update_of_ne hx _ _).symm.trans hclaim)
  | start id =>
    left
    have hx : g ≠ id := by
      rintro rfl
      have hheld := hfits.1
      rw [h.idle] at hheld
      cases hheld
    exact h.beside hB hfits hquiet (by simp [Act.event, Event.target])
      (Function.update_of_ne hx _ _) h.unclaimed
  | other e =>
    left
    have hattempt : ∀ q, e ≠ .attempt q := by
      rintro q rfl
      exact hfits.2
    have htarget : e.target ≠ some g := by
      intro ht
      have hheld := hfits.1.held_target hattempt ht
      rw [h.idle] at hheld
      cases hheld
    exact h.beside hB hfits hquiet htarget rfl h.unclaimed
  | newRun R => exact hquiet.elim

/-- What has been recorded has changed, if not by the end of the run then in the run. -/
theorem Overtaken.not_nothingNewer (h : Overtaken q g r.lastSeen p) (hB : r.lastSeen < p.R) :
    ¬NothingNewer q.db p g r := by
  intro hend
  obtain ⟨d, hd, ht, hm, r', hr', hnew⟩ := h.dep
  have hread : p.db.byId p.R d.source = some (r'.fromRow p.R) := by
    rw [Db.byId, hr']
    rfl
  have hle := hend d hd ht hm _ hread
  rcases hnew with hname | hlt
  · have hnow : p.R ≤ (r'.fromRow p.R).changedRunid.getD 0 := ChangedNow.fromRow_le (.inl hname)
    exact absurd hle (not_le.mpr (hB.trans_le hnow))
  · rcases fromRow_changed p.R r' with hc | hc
    · rw [hc] at hle
      exact absurd hle (not_le.mpr hlt)
    · rw [hc] at hle
      exact absurd hle (not_le.mpr hB)

theorem Work.Begun.dated {p₀ : Work} (h : p₀.Begun) (hreach : Relation.ReflTransGen WorkStep p₀ p) :
    Tidy p.toProject ∧ Dated p.toProject := by
  induction hreach with
  | refl => exact ⟨h.tidy, h.toStarted.dated⟩
  | tail _ hstep ih =>
    obtain ⟨a, hfits, rfl⟩ := hstep
    rw [a.apply_toProject]
    exact ⟨hfits.event.tidy ih.1, hfits.event.dated ih.1 ih.2⟩

/-- What is claimed has been read. -/
theorem Work.Begun.claimed_known {p₀ : Work} (h : p₀.Begun)
    (hreach : Relation.ReflTransGen WorkStep p₀ p) {x : FileId} (hx : p.claimed x ≠ none) :
    (p.db.lookup x).isSome = true := by
  induction hreach with
  | refl =>
    rw [h.claimed] at hx
    exact absurd rfl hx
  | @tail p _ _ hstep ih =>
    obtain ⟨a, hfits, rfl⟩ := hstep
    have hknown : (p.db.lookup x).isSome = true := by
      cases a with
      | enter entry oob f =>
        by_cases hf : x = f.id
        · subst hf
          obtain ⟨r, hr, -⟩ := Option.map_eq_some_iff.mp hfits.1
          rw [hr]
          rfl
        · exact ih fun hnone => hx ((Function.update_of_ne hf _ _).trans hnone)
      | giveBack id => exact ih (of_update_none hx).2
      | attempt q => exact ih (of_update_none hx).2
      | _ => exact ih hx
    rw [a.apply_toProject]
    exact hfits.event.known hknown

theorem Unbuilt.newRun {R : RunId} (hdated : Dated q.toProject) (htidy : Tidy q.toProject)
    (hnew : (Act.newRun R).Fits q) (hbuilt : BuiltBefore q g r) :
    Unbuilt ((Act.newRun R).apply q) g r.lastSeen ((Act.newRun R).apply q) where
  run := rfl
  tidy := ⟨htidy.ids, htidy.rows⟩
  executions := rfl
  idle := hnew.1.1 g
  unclaimed := by
    rw [show ((Act.newRun R).apply q).claimed g = none from hnew.2 g]
    exact Option.some_ne_none _ |>.symm
  row := ⟨r, hbuilt.row, hbuilt.notFailed, hbuilt.changed,
    (hdated.changed (.inl hbuilt.row)).trans (le_of_lt hnew.1.2), le_refl _⟩
  deps _ _ := Iff.rfl

theorem UncertainStep.quiet {db : Db} (h : UncertainStep g db p p') : QuietStep g db r p p' := by
  obtain ⟨a, hfits, halone, huncertain, happly⟩ := h
  refine ⟨a, hfits, ?_, happly⟩
  cases a with
  | enter entry oob f =>
    intro hf
    obtain ⟨hown, hoob, hthere⟩ := halone hf
    exact ⟨hown.stamp, hown.absent, hoob, hthere, fun _ => huncertain hf⟩
  | other e => exact huncertain
  | newRun R => exact halone
  | _ => trivial

section
variable {p₀ : Work} (hbegun : p₀.Begun) (hreach : Relation.ReflTransGen WorkStep p₀ q)
variable {R : RunId} (hnew : (Act.newRun R).Fits q) (hbuilt : BuiltBefore q g r)
include hbegun hreach hnew hbuilt

theorem unbuilt_of_nothingNewer
    (hrun : Relation.ReflTransGen (QuietStep g q.db r) ((Act.newRun R).apply q) p)
    (hend : NothingNewer q.db p g r) : Unbuilt ((Act.newRun R).apply q) g r.lastSeen p := by
  obtain ⟨htidy, hdated⟩ := hbegun.dated hreach
  have hB : r.lastSeen < R :=
    lt_of_le_of_lt (max_le (hdated.changed (.inl hbuilt.row)) (hdated.checked (.inl hbuilt.row)))
      hnew.1.2
  have hkept : Unbuilt ((Act.newRun R).apply q) g r.lastSeen p ∨
      Overtaken ((Act.newRun R).apply q) g r.lastSeen p := by
    clear hend
    induction hrun with
    | refl => exact .inl (.newRun hdated htidy hnew hbuilt)
    | @tail p' _ _ hstep ih =>
      obtain ⟨a, hfits, hquiet, rfl⟩ := hstep
      have hovertaken : Overtaken ((Act.newRun R).apply q) g r.lastSeen p' →
          Overtaken ((Act.newRun R).apply q) g r.lastSeen (a.apply p') := by
        intro h
        have hR : p'.R = R := h.run
        exact h.step (hR ▸ hB) hfits hquiet
      rcases ih with hunbuilt | hpast
      · by_cases hnone : NothingNewer q.db p' g r
        · have hR : p'.R = R := hunbuilt.run
          exact (hunbuilt.step (hR ▸ le_of_lt hB) hfits hquiet hnone).imp_right hovertaken
        · exact .inr (hovertaken (hunbuilt.overtaken_of_newer rfl hnone))
      · exact .inr (hovertaken hpast)
  refine hkept.resolve_right fun hpast => ?_
  have hR : p.R = R := hpast.run
  exact absurd hend (hpast.not_nothingNewer (hR ▸ hB))

end

/-- In a run in which every look at `g` is as described and no recorded dependency has changed in
the end, the recipe of `g` is not executed. -/
theorem checksums_stop_rebuilds {p₀ : Work} (hbegun : p₀.Begun)
    (hreach : Relation.ReflTransGen WorkStep p₀ q) {R : RunId} (hnew : (Act.newRun R).Fits q)
    (hbuilt : BuiltBefore q g r)
    (hrun : Relation.ReflTransGen (UncertainStep g q.db) ((Act.newRun R).apply q) p)
    (hend : NothingNewer q.db p g r) : p.executions g = 0 := by
  have hquiet : Relation.ReflTransGen (QuietStep g q.db r) ((Act.newRun R).apply q) p :=
    Relation.ReflTransGen.mono (fun _ _ => UncertainStep.quiet) _ _ hrun
  exact (unbuilt_of_nothingNewer hbegun hreach hnew hbuilt hquiet hend).executions

section Stacked
/-! The targets `g`, `a` and `b` are built by `default.do`. `g` needs `a`, `a` needs `b`, and `b` the
source `src`; `a` and `b` call `redo-stamp`. -/

def stackDisk (g a b src : Stamp) : Disk where
  readStamp name :=
    if name = "g" then g else if name = "a" then a else if name = "b" then b
    else if name = "src" then src else if name = "default.do" then "5.0-1" else STAMP_MISSING
  pathExists name :=
    if name = "g" then g ≠ STAMP_MISSING else if name = "a" then a ≠ STAMP_MISSING
    else if name = "b" then b ≠ STAMP_MISSING else name = "src" ∨ name = "default.do"

namespace Work

def bare : Work where
  R := 1
  disk := stackDisk STAMP_MISSING STAMP_MISSING STAMP_MISSING "3.0"
  db := { files := [{ id := ALWAYS_ID, name := ALWAYS }] }

variable (p : Work)

def row (id : FileId) : File := (p.db.byId p.R id).getD { id, name := "" }

def insert (id : FileId) (name : String) : Work := (Act.other (.insert id name)).apply p

def look (entry : Entry) (oob : Bool) (id : FileId) : Work :=
  (Act.enter entry oob (p.row id)).apply p

def request (id : FileId) : Cache.Request :=
  { R := p.R, sf := p.row id, candidates := [p.row 2], poolFree := true }

def attempt (id : FileId) : Work := (Act.attempt (p.request id)).apply p

def start (id : FileId) : Work := (Act.start id).apply p

def declare (id source : FileId) : Work := (Act.other (.ifchange id source)).apply p

def sum (id : FileId) (csum : String) : Work := (Act.other (.stamp id csum)).apply p

def held (id : FileId) : File := (p.building id).getD { id, name := "" }

/-- The recipe ends with code 0, and its output gets this stamp. -/
def made (id : FileId) (stamp : Stamp) (hrow : (p.db.lookup (p.held id).id).isSome) : Input where
  R := p.R
  rv := 0
  before := none
  target := none
  tmp := some { mtime := 9 }
  stdout := []
  offset := 0
  sf := p.held id
  db := p.db
  calls :=
    { created := { mtime := 9 }
      readStamp := fun n => if n.isSome then stamp else STAMP_MISSING }
  row := hrow

def finish (id : FileId) (stamp : Stamp) (disk : Disk) (hrow : (p.db.lookup (p.held id).id).isSome) :
    Work := (Act.other (.finish (p.made id stamp hrow) true disk)).apply p

/-- A process comes to a target that has to be built. -/
def begin (oob : Bool) (id : FileId) : Work := ((p.look .firstPass oob id).attempt id).start id

def listed : Work :=
  ((((bare.insert 2 "default.do").insert 3 "g").insert 4 "a").insert 5 "b").insert 6 "src"

/-- The recipes of `g`, `a` and `b` have called `redo-ifchange`, and `src` has been looked at. -/
def nested : Work :=
  (((((((listed.begin true 3).declare 3 4).begin true 4).declare 4 5).begin true 5).declare 5 6).look
    .firstPass true 6).attempt 6

def builtB : Work :=
  (nested.sum 5 "x").finish 5 "9.0" (stackDisk STAMP_MISSING STAMP_MISSING "9.0" "3.0")
    (by decide +kernel)

def builtA : Work :=
  (builtB.sum 4 "y").finish 4 "8.0" (stackDisk STAMP_MISSING "8.0" "9.0" "3.0") (by decide +kernel)

def builtG : Work := builtA.finish 3 "7.0" (stackDisk "7.0" "8.0" "9.0" "3.0") (by decide +kernel)

theorem stackDisk_stamps {g a b src : Stamp} (hg : g ≠ "") (ha : a ≠ "") (hb : b ≠ "")
    (hsrc : src ≠ "") (name : String) : (stackDisk g a b src).readStamp name ≠ "" := by
  rw [stackDisk]
  simp only
  split_ifs
  · exact hg
  · exact ha
  · exact hb
  · exact hsrc
  · decide
  · decide

theorem bare_begun : bare.Begun where
  db := rfl
  positive := by decide
  building := rfl
  callsAlways := rfl
  calledAlways := rfl
  rebuilt := rfl
  foundClean := rfl
  claimed := rfl
  started := rfl
  executions := rfl
  stamps := stackDisk_stamps (by decide) (by decide) (by decide) (by decide)
  absent := rfl

variable {p} {id source : FileId}

theorem insert_fits {name : String} (h : ∀ r ∈ p.db.files, r.id ≠ id ∧ r.name ≠ name) :
    (Act.other (.insert id name)).Fits p := ⟨h, trivial⟩

theorem look_fits {entry : Entry} {oob : Bool} (h : p.db.byId p.R id = some (p.row id) ∧
    p.building id = none ∧ p.claimed id = if entry = .unlocked then some .check else none) :
    (Act.enter entry oob (p.row id)).Fits p := by
  have hrow : (p.row id).id = id := Db.byId_id h.1
  rwa [Act.Fits, hrow]

theorem attempt_fits (h : p.claimed id = some .build ∧ p.db.byId p.R id = some (p.row id) ∧
    p.building id = none ∧ p.db.byId p.R 2 = some (p.row 2) ∧ (p.row 2).name ≠ ALWAYS) :
    (Act.attempt (p.request id)).Fits p := by
  obtain ⟨hclaimed, hid, hidle, hrule, hname⟩ := h
  have hrow : (p.row id).id = id := Db.byId_id hid
  have hcand : (p.row 2).id = 2 := Db.byId_id hrule
  refine ⟨?_, rfl, ?_, ?_, rfl, fun cand hmem => ?_⟩
  · rwa [request, hrow]
  · rwa [request, hrow]
  · rwa [request, hrow]
  · obtain rfl := List.mem_singleton.mp hmem
    rw [hcand]
    exact ⟨hrule, hname⟩

theorem declare_fits (h : (p.building id).isSome = true ∧ (p.db.lookup source).isSome = true ∧
    p.started id = true) : (Act.other (.ifchange id source)).Fits p := ⟨⟨h.1, h.2.1⟩, h.2.2⟩

theorem sum_fits {csum : String} (h : (p.building id).isSome = true ∧ p.started id = true) :
    (Act.other (.stamp id csum)).Fits p := h

theorem made_fits {stamp : Stamp} {disk : Disk} {hrow : (p.db.lookup (p.held id).id).isSome}
    (hheld : p.building id = some (p.held id)) (hid : (p.held id).id = id)
    (hcode : (outcome (p.made id stamp hrow) true).ended = .code 0)
    (hstamp : (p.made id stamp hrow).calls.readStamp
      (outcome (p.made id stamp hrow) true).paths.target = disk.readStamp (p.held id).name)
    (hstamps : ∀ name, disk.readStamp name ≠ "") (hstarted : p.started id = true) :
    (Act.other (.finish (p.made id stamp hrow) true disk)).Fits p := by
  have hsf : (p.made id stamp hrow).sf.id = id := hid
  refine ⟨⟨?_, rfl, rfl, ?_, hstamp, hstamps _⟩, ?_, hstamps⟩
  · rwa [hsf]
  · rw [hcode]
    exact fun h => by cases h
  · rwa [hsf]

theorem builtG_run : Relation.ReflTransGen WorkStep bare builtG := by
  have hlisted : Relation.ReflTransGen WorkStep bare listed :=
    ((((Relation.ReflTransGen.single ⟨_, insert_fits (by decide +kernel), rfl⟩).tail
      ⟨_, insert_fits (by decide +kernel), rfl⟩).tail ⟨_, insert_fits (by decide +kernel), rfl⟩).tail
        ⟨_, insert_fits (by decide +kernel), rfl⟩).tail ⟨_, insert_fits (by decide +kernel), rfl⟩
  have hbegin : ∀ {p : Work} id, Relation.ReflTransGen WorkStep bare p →
      (Act.enter .firstPass true (p.row id)).Fits p →
      (Act.attempt ((p.look .firstPass true id).request id)).Fits (p.look .firstPass true id) →
      (Act.start id).Fits ((p.look .firstPass true id).attempt id) →
        Relation.ReflTransGen WorkStep bare (p.begin true id) := by
    intro p id hp hlook hattempt hstart
    exact ((hp.tail ⟨_, hlook, rfl⟩).tail ⟨_, hattempt, rfl⟩).tail ⟨_, hstart, rfl⟩
  have hg : Relation.ReflTransGen WorkStep bare
      ((listed.begin true 3).declare 3 4) :=
    (hbegin 3 hlisted (look_fits (by decide +kernel))
    (attempt_fits (by decide +kernel)) (by rw [Act.Fits]; decide +kernel)).tail
      ⟨.other (.ifchange 3 4), declare_fits (by decide +kernel), rfl⟩
  have ha : Relation.ReflTransGen WorkStep bare
      ((((listed.begin true 3).declare 3 4).begin true 4).declare 4 5) :=
    (hbegin 4 hg (look_fits (by decide +kernel))
    (attempt_fits (by decide +kernel)) (by rw [Act.Fits]; decide +kernel)).tail
      ⟨.other (.ifchange 4 5), declare_fits (by decide +kernel), rfl⟩
  have hb : Relation.ReflTransGen WorkStep bare
      ((((((listed.begin true 3).declare 3 4).begin true 4).declare 4 5).begin true 5).declare 5 6) :=
    (hbegin 5 ha (look_fits (by decide +kernel))
    (attempt_fits (by decide +kernel)) (by rw [Act.Fits]; decide +kernel)).tail
      ⟨.other (.ifchange 5 6), declare_fits (by decide +kernel), rfl⟩
  have hnested : Relation.ReflTransGen WorkStep bare nested :=
    (hb.tail ⟨_, look_fits (by decide +kernel), rfl⟩).tail
      ⟨_, attempt_fits (by decide +kernel), rfl⟩
  have hbuiltB : Relation.ReflTransGen WorkStep bare builtB :=
    (hnested.tail ⟨_, sum_fits (by decide +kernel), rfl⟩).tail
      ⟨_, made_fits (by decide +kernel) (by decide +kernel) (by decide +kernel) (by decide +kernel)
        (stackDisk_stamps (by decide) (by decide) (by decide) (by decide)) (by decide +kernel), rfl⟩
  have hbuiltA : Relation.ReflTransGen WorkStep bare builtA :=
    (hbuiltB.tail ⟨_, sum_fits (by decide +kernel), rfl⟩).tail
      ⟨_, made_fits (by decide +kernel) (by decide +kernel) (by decide +kernel) (by decide +kernel)
        (stackDisk_stamps (by decide) (by decide) (by decide) (by decide)) (by decide +kernel), rfl⟩
  exact hbuiltA.tail
    ⟨_, made_fits (by decide +kernel) (by decide +kernel) (by decide +kernel) (by decide +kernel)
      (stackDisk_stamps (by decide) (by decide) (by decide) (by decide)) (by decide +kernel), rfl⟩

/-- What is not at work in any row is not at work at all. -/
theorem idle_of_rows (hrun : Relation.ReflTransGen WorkStep bare p)
    (hbuilding : ∀ r ∈ p.db.files, p.building r.id = none)
    (hclaimed : ∀ r ∈ p.db.files, p.claimed r.id = none) (x : FileId) :
    p.building x = none ∧ p.claimed x = none := by
  have htidy := (bare_begun.dated hrun).1
  constructor
  · by_contra hx
    obtain ⟨sf, hsf⟩ := Option.ne_none_iff_exists'.mp hx
    obtain ⟨r, hr, -⟩ := htidy.rows hsf
    rw [← Db.lookup_id hr] at hx
    exact hx (hbuilding r (List.mem_of_find?_eq_some hr))
  · by_contra hx
    obtain ⟨r, hr⟩ := Option.isSome_iff_exists.mp (bare_begun.claimed_known hrun hx)
    rw [← Db.lookup_id hr] at hx
    exact hx (hclaimed r (List.mem_of_find?_eq_some hr))

theorem newRun_fits : (Act.newRun 2).Fits builtG := by
  have hidle := idle_of_rows builtG_run (by decide +kernel) (by decide +kernel)
  exact ⟨⟨fun x => (hidle x).1, by decide +kernel⟩, fun x => (hidle x).2⟩

theorem builtG_before : BuiltBefore builtG 3 (builtG.row 3) :=
  ⟨by decide +kernel, by decide +kernel, by decide +kernel⟩

theorem nothingNewer_of_all (h : ∀ d ∈ builtG.db.deps, d.target = 3 → d.mode = 'm' →
    (p.db.byId p.R d.source).all
      (fun f => decide (f.changedRunid.getD 0 ≤ (builtG.row 3).lastSeen)) = true) :
    NothingNewer builtG.db p 3 (builtG.row 3) := by
  intro d hd ht hm f hf
  have hall := h d hd ht hm
  rw [hf] at hall
  exact of_decide_eq_true hall

/-- The next run, after `src` has been edited. -/
def edited : Work :=
  (Act.other (.edit (stackDisk "7.0" "8.0" "9.0" "44.0"))).apply ((Act.newRun 2).apply builtG)

/-- `redo-unlocked` has `b` built first. -/
def asking : Work :=
  ((((edited.look .firstPass true 3).begin false 5).declare 5 6).look .firstPass false 6).attempt 6

/-- A process comes to another target. -/
theorem aside_step {entry : Entry} {oob : Bool} {db : Db} (hid : (p.row id).id ≠ 3)
    (hfits : (Act.enter entry oob (p.row id)).Fits p) :
    UncertainStep 3 db p (p.look entry oob id) :=
  ⟨.enter entry oob (p.row id), hfits, fun h => absurd h hid, fun h => absurd h hid, rfl⟩

theorem event_step {e : Event} {db : Db} (hfits : (Act.other e).Fits p) (hok : e.fails = none) :
    UncertainStep 3 db p ((Act.other e).apply p) := by
  refine ⟨.other e, hfits, trivial, fun d _ _ _ h => ?_, rfl⟩
  rw [hok] at h
  cases h

theorem source_steady {mx : RunId} {f : File} (hgen : f.isGenerated = false)
    (h : f.failedRunid = none ∧ f.changedRunid.isSome = true ∧ f.changedRunid.getD 0 ≤ mx ∧
      f.stamp = some (p.disk.readStamp f.name)) : Fresh p.disk p.R p.db mx f := by
  obtain ⟨hfailed, hchanged, hmx, hstamp⟩ := h
  have hnone : p.db.depsOf p.R f = [] := by simp [Db.depsOf, hgen]
  exact .walked hfailed hchanged hmx hstamp (by simp [hnone]) (by simp [hnone])

/-- The first look at `g`. -/
theorem firstLook_step : UncertainStep 3 builtG.db edited (edited.look .firstPass true 3) := by
  have hdeps : edited.db.depsOf edited.R (edited.row 3) =
      [('m', edited.row 2), ('m', edited.row 4)] := by decide +kernel
  refine ⟨.enter .firstPass true (edited.row 3), look_fits (by decide +kernel), fun _ => ⟨?_, ?_⟩,
    fun _ d hd => ?_, rfl⟩
  · refine ⟨by decide +kernel, fun d hd => ?_, fun d hd hgen => ?_⟩
    · simp [hdeps] at hd
    · simp only [hdeps, List.mem_cons, Prod.mk.injEq, true_and, List.not_mem_nil, or_false] at hd
      rcases hd with rfl | rfl
      · decide +kernel
      · exact absurd hgen (by decide +kernel)
  · exact ⟨fun _ => rfl, by decide⟩
  · simp only [hdeps, List.mem_cons, Prod.mk.injEq, true_and, List.not_mem_nil, or_false] at hd
    rw [if_neg (by decide)]
    rcases hd with rfl | rfl
    · exact (source_steady (by decide +kernel) (by decide +kernel)).steady
    · exact .summed (by decide +kernel) (by decide +kernel) (by decide +kernel) (by decide +kernel)
        (by decide +kernel)

theorem asking_run : Relation.ReflTransGen (UncertainStep 3 builtG.db)
    ((Act.newRun 2).apply builtG) asking := by
  have hedit : UncertainStep 3 builtG.db ((Act.newRun 2).apply builtG) edited := by
    exact event_step ⟨trivial, stackDisk_stamps (by decide) (by decide) (by decide) (by decide)⟩ rfl
  have hlook := (Relation.ReflTransGen.single hedit).tail firstLook_step
  have hbegin : Relation.ReflTransGen (UncertainStep 3 builtG.db) ((Act.newRun 2).apply builtG)
      ((edited.look .firstPass true 3).begin false 5) :=
    ((hlook.tail (aside_step (by decide +kernel) (look_fits (by decide +kernel)))).tail
      ⟨_, attempt_fits (by decide +kernel), trivial, trivial, rfl⟩).tail
        ⟨.start 5, by rw [Act.Fits]; decide +kernel, trivial, trivial, rfl⟩
  have hdeclare : Relation.ReflTransGen (UncertainStep 3 builtG.db) ((Act.newRun 2).apply builtG)
      (((edited.look .firstPass true 3).begin false 5).declare 5 6) :=
    hbegin.tail (event_step (declare_fits (by decide +kernel)) rfl)
  exact (hdeclare.tail (aside_step (by decide +kernel) (look_fits (by decide +kernel)))).tail
    ⟨_, attempt_fits (by decide +kernel), trivial, trivial, rfl⟩

/-- The checksum of `b` comes out as it was. -/
def rebuilding : Work := asking.sum 5 "x"

def rebuiltB : Work :=
  rebuilding.finish 5 "9.1" (stackDisk "7.0" "8.0" "9.1" "44.0") (by decide +kernel)

def secondLook : Work := rebuiltB.look .unlocked true 3

/-- The second look at `g`, while it still belongs to `redo-unlocked`. -/
theorem secondLook_step : UncertainStep 3 builtG.db rebuiltB secondLook := by
  have hdeps : rebuiltB.db.depsOf rebuiltB.R (rebuiltB.row 3) =
      [('m', rebuiltB.row 2), ('m', rebuiltB.row 4)] := by decide +kernel
  have hbelow : rebuiltB.db.depsOf rebuiltB.R (rebuiltB.row 4) =
      [('m', rebuiltB.row 2), ('m', rebuiltB.row 5)] := by decide +kernel
  refine ⟨.enter .unlocked true (rebuiltB.row 3), look_fits (by decide +kernel), fun _ => ⟨?_, ?_⟩,
    fun _ d hd => ?_, rfl⟩
  · refine ⟨by decide +kernel, fun d hd => ?_, fun d hd hgen => ?_⟩
    · simp [hdeps] at hd
    · simp only [hdeps, List.mem_cons, Prod.mk.injEq, true_and, List.not_mem_nil, or_false] at hd
      rcases hd with hd | hd
      · rw [hd]
        decide +kernel
      · rw [hd] at hgen
        exact absurd hgen (by decide +kernel)
  · exact ⟨fun _ => rfl, by decide⟩
  · simp only [hdeps, List.mem_cons, Prod.mk.injEq, true_and, List.not_mem_nil, or_false] at hd
    rw [if_pos rfl]
    rcases hd with hd | hd
    · rw [hd]
      exact source_steady (by decide +kernel) (by decide +kernel)
    · rw [hd]
      refine .walked (by decide +kernel) (by decide +kernel) (by decide +kernel) (by decide +kernel)
        (fun g hg => ?_) fun g hg => ?_
      · simp [hbelow] at hg
      · simp only [hbelow, List.mem_cons, Prod.mk.injEq, true_and, List.not_mem_nil, or_false] at hg
        rcases hg with hg | hg
        · rw [hg]
          exact source_steady (by decide +kernel) (by decide +kernel)
        · rw [hg]
          exact .checked (by decide +kernel) (by decide +kernel) (by decide +kernel)
            (by decide +kernel)

theorem secondLook_run : Relation.ReflTransGen (UncertainStep 3 builtG.db)
    ((Act.newRun 2).apply builtG) secondLook := by
  have hsum : Relation.ReflTransGen (UncertainStep 3 builtG.db) ((Act.newRun 2).apply builtG)
      rebuilding := asking_run.tail (event_step (sum_fits (by decide +kernel)) rfl)
  have hcode : (outcome (rebuilding.made 5 "9.1" (by decide +kernel)) true).ended = .code 0 := by
    decide +kernel
  have hfinish : UncertainStep 3 builtG.db rebuilding rebuiltB :=
    event_step (made_fits (by decide +kernel) (by decide +kernel) hcode (by decide +kernel)
      (stackDisk_stamps (by decide) (by decide) (by decide) (by decide)) (by decide +kernel))
      (by rw [Event.fails, if_pos hcode])
  exact (hsum.tail hfinish).tail secondLook_step

theorem secondLook_nothingNewer : NothingNewer builtG.db secondLook 3 (builtG.row 3) :=
  nothingNewer_of_all (by decide +kernel)

/-- `b` has been built again with the same checksum, and `g` is left as it is. -/
theorem checksums_stop_rebuilds_stacked : secondLook.executions 3 = 0 :=
  checksums_stop_rebuilds bare_begun builtG_run newRun_fits builtG_before secondLook_run
    secondLook_nothingNewer

/-- The checksum of `b` changes, and now `a` is in question. -/
def changedB : Work :=
  (asking.sum 5 "z").finish 5 "9.1" (stackDisk "7.0" "8.0" "9.1" "44.0") (by decide +kernel)

theorem UncertainStep.alone {g : FileId} {db : Db} (h : UncertainStep g db p p') :
    AloneStep g p p' := by
  obtain ⟨a, hfits, halone, -, happly⟩ := h
  exact ⟨a, hfits, halone, happly⟩

theorem AloneStep.work {g : FileId} (h : AloneStep g p p') : WorkStep p p' := by
  obtain ⟨a, hfits, -, happly⟩ := h
  exact ⟨a, hfits, happly⟩

theorem finish_alone {stamp : Stamp} {disk : Disk} {hrow : (p.db.lookup (p.held id).id).isSome}
    (hfits : (Act.other (.finish (p.made id stamp hrow) true disk)).Fits p) :
    AloneStep 3 p (p.finish id stamp disk hrow) := ⟨_, hfits, trivial, rfl⟩

/-- The second look at `g`, when `a` has come into question. -/
theorem secondLook_alone : AloneStep 3 changedB (changedB.look .unlocked true 3) := by
  have hdeps : changedB.db.depsOf changedB.R (changedB.row 3) =
      [('m', changedB.row 2), ('m', changedB.row 4)] := by decide +kernel
  refine ⟨.enter .unlocked true (changedB.row 3), look_fits (by decide +kernel), fun _ => ⟨?_, ?_⟩,
    rfl⟩
  · refine ⟨by decide +kernel, fun d hd => ?_, fun d hd hgen => ?_⟩
    · simp [hdeps] at hd
    · simp only [hdeps, List.mem_cons, Prod.mk.injEq, true_and, List.not_mem_nil, or_false] at hd
      rcases hd with hd | hd
      · rw [hd]
        decide +kernel
      · rw [hd] at hgen
        exact absurd hgen (by decide +kernel)
  · exact ⟨fun _ => rfl, by decide⟩

theorem changedB_run : Relation.ReflTransGen (AloneStep 3) ((Act.newRun 2).apply builtG) changedB := by
  have hasking := Relation.ReflTransGen.mono (fun _ _ => UncertainStep.alone) _ _ asking_run
  have hsum : AloneStep 3 asking (asking.sum 5 "z") := ⟨_, sum_fits (by decide +kernel), trivial, rfl⟩
  exact (hasking.tail hsum).tail
    (finish_alone (made_fits (by decide +kernel) (by decide +kernel) (by decide +kernel)
      (by decide +kernel) (stackDisk_stamps (by decide) (by decide) (by decide) (by decide))
      (by decide +kernel)))

/-- `g` is built, and has `a` built, whose checksum stays. -/
def rebuildingG : Work := (((changedB.look .unlocked true 3).attempt 3).start 3).declare 3 4

def rebuildingA : Work :=
  (((rebuildingG.begin true 4).declare 4 5).look .firstPass true 5).sum 4 "y"

theorem rebuildingA_run :
    Relation.ReflTransGen (AloneStep 3) ((Act.newRun 2).apply builtG) rebuildingA := by
  have hattempt : AloneStep 3 (changedB.look .unlocked true 3)
      ((changedB.look .unlocked true 3).attempt 3) :=
    ⟨_, attempt_fits (by decide +kernel), trivial, rfl⟩
  have hstart : AloneStep 3 ((changedB.look .unlocked true 3).attempt 3)
      (((changedB.look .unlocked true 3).attempt 3).start 3) :=
    ⟨.start 3, by rw [Act.Fits]; decide +kernel, trivial, rfl⟩
  have hdeclare : Relation.ReflTransGen (AloneStep 3) ((Act.newRun 2).apply builtG) rebuildingG :=
    (((changedB_run.tail secondLook_alone).tail hattempt).tail hstart).tail
      ⟨.other (.ifchange 3 4), declare_fits (by decide +kernel), trivial, rfl⟩
  have hlook : AloneStep 3 rebuildingG (rebuildingG.look .firstPass true 4) :=
    ⟨_, look_fits (by decide +kernel), fun h => absurd h (by decide +kernel), rfl⟩
  have hbegin : Relation.ReflTransGen (AloneStep 3) ((Act.newRun 2).apply builtG)
      (rebuildingG.begin true 4) :=
    ((hdeclare.tail hlook).tail ⟨_, attempt_fits (by decide +kernel), trivial, rfl⟩).tail
      ⟨.start 4, by rw [Act.Fits]; decide +kernel, trivial, rfl⟩
  have hdep := hbegin.tail ⟨.other (.ifchange 4 5), declare_fits (by decide +kernel), trivial, rfl⟩
  have hbelow : AloneStep 3 ((rebuildingG.begin true 4).declare 4 5)
      (((rebuildingG.begin true 4).declare 4 5).look .firstPass true 5) :=
    ⟨_, look_fits (by decide +kernel), fun h => absurd h (by decide +kernel), rfl⟩
  exact (hdep.tail hbelow).tail ⟨_, sum_fits (by decide +kernel), trivial, rfl⟩

def rebuiltA : Work :=
  rebuildingA.finish 4 "8.1" (stackDisk "7.0" "8.1" "9.1" "44.0") (by decide +kernel)

def rebuiltG : Work :=
  rebuiltA.finish 3 "7.1" (stackDisk "7.1" "8.1" "9.1" "44.0") (by decide +kernel)

theorem rebuiltG_run :
    Relation.ReflTransGen (AloneStep 3) ((Act.newRun 2).apply builtG) rebuiltG := by
  have hbuiltA : Relation.ReflTransGen (AloneStep 3) ((Act.newRun 2).apply builtG) rebuiltA :=
    rebuildingA_run.tail
      (finish_alone (made_fits (by decide +kernel) (by decide +kernel) (by decide +kernel)
        (by decide +kernel) (stackDisk_stamps (by decide) (by decide) (by decide) (by decide))
        (by decide +kernel)))
  exact hbuiltA.tail
    (finish_alone (made_fits (by decide +kernel) (by decide +kernel) (by decide +kernel)
      (by decide +kernel) (stackDisk_stamps (by decide) (by decide) (by decide) (by decide))
      (by decide +kernel)))

end Work
end Stacked

end Redo.Runs
