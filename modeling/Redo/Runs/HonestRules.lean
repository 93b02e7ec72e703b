import Redo.Runs.Alarm

/-! # Honest rules

As long as the steps are honest, no walk finds a target clean whose `.do` file is not the right one
any more, until the target has been built again.
-/
namespace Redo.Cache.Request
open State

variable {q : Request} {w w' : World}

theorem findDo_found (disk : Disk) (R : RunId) (sf : File) (candidates : List File) (db : Db) :
    (findDo disk R sf candidates db).1 = candidates.any fun c => disk.pathExists c.name := by
  induction candidates generalizing db with
  | nil => rfl
  | cons c rest ih =>
    rw [findDo]
    split
    · rename_i hexists
      simp [hexists]
    · rename_i hexists
      simp [ih, hexists]

/-- Without a `.do` file there is no recipe. -/
theorem found_of_recipe (h : q.scheduleBuildOne false Runs.noCalls w = some (.recipe, w')) :
    ∃ c, q.chosen w = some c := by
  have hfound : (q.prepare w).1 = true := by
    by_contra hnone
    rw [Bool.not_eq_true] at hnone
    simp only [scheduleBuildOne, hnone, Bool.not_false, if_true] at h
    split_ifs at h <;> cases h
  rw [chosen, ← Option.isSome_iff_exists, List.find?_isSome]
  have hany := (findDo_found w.disk q.R (q.target w) q.candidates _).symm.trans hfound
  simpa using hany

theorem Ends.db_eq {db : Db} (h : q.Ends w .recipe db) : db = (q.prepare w).2.db := by
  cases h with
  | unruled ho => exact absurd rfl ho
  | recipe => rfl

end Redo.Cache.Request

namespace Redo.Runs
open State Dirtiness Override Completion

variable {w : Watch} {s : Project} {e : Event} {x : FileId} {r : File} {rule : Rule}

theorem starts_eq {q : Cache.Request} (h : e.starts s = some q) :
    e = .attempt q ∧ ∃ w, q.scheduleBuildOne false noCalls s.world = some (.recipe, w) := by
  cases e with
  | attempt q' =>
    rw [Event.starts] at h
    split at h
    · rename_i w hout
      cases h
      exact ⟨rfl, w, hout⟩
    · cases h
  | _ => cases h

theorem building_iff (hfits : e.Fits s) : ((e.apply s).building x).isSome = true ↔
    (∃ q, e.starts s = some q ∧ q.sf.id = x) ∨
      (s.building x).isSome = true ∧ e.releases ≠ some x := by
  have hnone : ∀ {b : FileId → Option File}, (b x).isSome = true ↔
      (∃ q, (none : Option Cache.Request) = some q ∧ q.sf.id = x) ∨
        (b x).isSome = true ∧ (none : Option FileId) ≠ some x := by
    simp
  have hrelease : ∀ {b : FileId → Option File} {id : FileId},
      (Function.update b id none x).isSome = true ↔
        (∃ q, (none : Option Cache.Request) = some q ∧ q.sf.id = x) ∨
          (b x).isSome = true ∧ some id ≠ some x := by
    intro b id
    by_cases hx : x = id
    · simp [hx]
    · simp [Function.update_of_ne hx, Ne.symm hx]
  cases e with
  | newRun | edit | insert | isdirty | ifcreate => exact hnone
  | attempt q =>
    have hidle := hfits.2.2.1
    rw [Event.apply, Event.starts]
    cases hout : q.scheduleBuildOne false noCalls s.world with
    | none => exact hnone
    | some out =>
      obtain ⟨o, w⟩ := out
      cases o with
      | recipe =>
        by_cases hx : x = q.sf.id
        · subst hx
          simp [Project.attemptedBy]
        · simp [Project.attemptedBy, Function.update_of_ne hx, Ne.symm hx, Event.releases]
      | _ => exact hnone
  | cacheHit id =>
    obtain ⟨sf, hb, -⟩ := hfits
    rw [Event.apply, hb]
    exact hrelease
  | giveUp id =>
    obtain ⟨sf, hb⟩ := Option.isSome_iff_exists.mp hfits
    rw [Event.apply, hb]
    exact hrelease
  | ifchange id source =>
    rw [Event.apply]
    split <;> exact hnone
  | always id =>
    rw [Event.apply]
    split <;> exact hnone
  | stamp id csum =>
    rw [Event.apply]
    split <;> exact hnone
  | finish i scheduled disk => exact hrelease
  | die id => exact hrelease

theorem apply_R (he : ∀ R, e ≠ .newRun R) : (e.apply s).R = s.R := by
  cases e with
  | newRun R => exact absurd rfl (he R)
  | attempt q =>
    rw [Event.apply]
    split
    · rfl
    · rename_i out _
      obtain ⟨o, w⟩ := out
      cases o <;> rfl
  | cacheHit | giveUp | ifchange | always | stamp =>
    rw [Event.apply]
    split <;> rfl
  | _ => rfl

theorem Event.Honest.leaves (h : e.Honest w) : Leaves w (e.apply w.toProject).disk := by
  have hsame : Leaves w w.disk := ⟨fun _ _ _ _ hpath => hpath, fun _ _ _ => .inl rfl⟩
  cases e with
  | edit disk => exact h
  | finish i scheduled disk => exact h.1
  | attempt q =>
    rw [Event.apply]
    split
    · exact hsame
    · rename_i out _
      obtain ⟨o, w⟩ := out
      cases o <;> exact hsame
  | cacheHit | giveUp | ifchange | always | stamp =>
    rw [Event.apply]
    split <;> exact hsame
  | _ => exact hsame

/-- A copy of a row that tells of a change, or will, is followed by such copies. -/
theorem Rewritten.stale {seen : RunId} {disk : Disk} {f : File} {N : FileId → Prop}
    (h : Rewritten s x f e) (hseen : seen < s.R)
    (hstale : ∀ f, Copy s x f → Stale s.R disk seen f) (hknown : (s.db.lookup x).isSome = true)
    (hstamp : ∀ f csum, e = .stamp x csum → s.db.lookup x = some f → f.csum = some csum →
      seen < f.changedRunid.getD 0)
    (hwalk : (∃ f mx, e = .isdirty f mx) → disk = s.disk) (hblocked : Blocked s.disk s.R s.db N)
    (hN : ∀ f, s.db.lookup x = some f → f.isChecked s.R = false →
      f.stamp ≠ some (s.disk.readStamp f.name) → N x) : Stale s.R disk seen f := by
  cases h with
  | later hcopy hlater => exact (hstale _ hcopy).later hseen hlater
  | inserted hnone =>
    rw [hnone] at hknown
    cases hknown
  | walked htraced =>
    obtain ⟨r, hr, ht⟩ := htraced N hblocked
    rw [hwalk ⟨_, _, rfl⟩]
    rw [hwalk ⟨_, _, rfl⟩] at hstale
    exact (hstale r (.inl hr)).touched hseen ht (hN r hr)
  | stamped hrow hsame _ _ hchanged =>
    have hnew := hstamp _ _ rfl hrow hsame
    left
    rcases hchanged with hc | hc
    · rwa [hc]
    · rw [hc]
      exact hseen

/-- A candidate that is there is still there. -/
theorem Rule.exposed_apply {disk disk' : Disk} (h : rule.exposed s.db disk = true)
    (hfits : e.Fits s) (htidy : Tidy s)
    (hkept : ∀ y r, y ∈ rule.earlier → s.db.lookup y = some r → disk.pathExists r.name = true →
      disk'.pathExists r.name = true) : rule.exposed (e.apply s).db disk' = true := by
  obtain ⟨y, hy, hpath⟩ := List.any_eq_true.mp h
  obtain ⟨r, hr, hexists⟩ := (Option.any_eq_true _ _).mp hpath
  have hknown : (s.db.lookup y).isSome = true := by
    rw [hr]
    rfl
  obtain ⟨r', hr'⟩ := Option.isSome_iff_exists.mp (hfits.known hknown)
  have hname := (hfits.rewritten htidy hr').name htidy (.inl hr) hknown
  refine List.any_eq_true.mpr ⟨y, hy, (Option.any_eq_true _ _).mpr ⟨r', hr', ?_⟩⟩
  rw [hname]
  exact hkept y r hy hr hexists

namespace Watched

/-- What has raised the alarm stays, in a run that goes on. -/
theorem raised (h : Watched w) (hfits : e.Fits w.toProject) (hhonest : e.Honest w)
    (hrun : ∀ R, e ≠ .newRun R) (hrule : w.rule x = some rule) (halarm : w.alarm x = true)
    (hr : w.db.lookup x = some r) (hdecl : Declared w.db x rule fun _ => True)
    (hraised : Raised w.toProject rule r) {r' : File} (hr' : r'.lastSeen = r.lastSeen) :
    Raised (e.apply w.toProject) rule r' := by
  have hleaves := hhonest.leaves
  refine ⟨?_, ?_⟩
  · rw [hr', apply_R hrun]
    exact hraised.old
  rw [hr', apply_R hrun]
  rcases hraised.why with hexposed | hstale
  · left
    exact Rule.exposed_apply hexposed hfits h.tidy fun y r hy hr hexists =>
      hleaves.earlier hrule halarm hy hr hexists
  · right
    intro f hf
    have hstaleNew : ∀ f, Copy w.toProject rule.chosen f →
        Stale w.R (e.apply w.toProject).disk r.lastSeen f := fun f hf =>
      (hstale f hf).edit (hleaves.chosen hrule (.inl halarm) hf)
    refine (hfits.copies h.tidy hf).stale hraised.old hstaleNew hdecl.chosen.known ?_ ?_ h.blocked ?_
    · rintro f csum rfl hrow hsame
      exact hhonest x rule f r hrule halarm rfl hrow hsame hr
    · rintro ⟨f, mx, rfl⟩
      rfl
    · exact fun f hrow hopen hmodified => ⟨f, hrow, .inl ⟨hopen, hmodified⟩⟩

/-- What the build that gets through has declared. -/
theorem completed (h : Watched w) (hfits : e.Fits w.toProject) (hhonest : e.Honest w)
    (hcompletes : e.completes = some x) (hrule : w.trying x = some rule) :
    Declared (e.apply w.toProject).db x rule Kept := by
  have hdecl : (w.building x).isSome = true → Declared w.db x rule Kept := by
    intro hb
    obtain ⟨rule', hrule', hdecl, -⟩ := h.trying hb
    rw [hrule] at hrule'
    cases hrule'
    exact hdecl
  cases e with
  | cacheHit id =>
    cases hcompletes
    obtain ⟨sf, hb, -⟩ := hfits
    have hid := h.tidy.ids x sf hb
    rw [Event.apply, hb]
    have hdecl := hdecl (by rw [hb]; rfl)
    rw [← hid] at hdecl ⊢
    exact hdecl.hit _ _
  | finish i scheduled disk =>
    rw [Event.completes] at hcompletes
    split at hcompletes
    · cases hcompletes
      obtain ⟨hheld, -, hdb, hend, -⟩ := hfits
      have hdecl := hdecl (by rw [hheld]; rfl)
      rw [← hdb] at hdecl
      exact hdecl.finish (outcome_commits hend) (hhonest.2 rule hrule)
    · cases hcompletes
  | _ => cases hcompletes

/-- What has been declared stays declared, but for a new attempt and the end of the build. -/
theorem declared (h : Watched w) (hfits : e.Fits w.toProject) (hhonest : e.Honest w)
    {P : Dep → Prop} (hP : ∀ d, d.deleteMe = false → P d) (hdecl : Declared w.db x rule P)
    (hsorts : e.sorts ≠ some x)
    (htrying : (w.building x).isSome = true → w.trying x = some rule) :
    Declared (e.apply w.toProject).db x rule P := by
  refine hdecl.apply hfits h.tidy.ids hP hsorts ?_ ?_
  · rintro y rfl
    exact hhonest rule (htrying hfits.1)
  · rintro y rfl
    exact hhonest rule (htrying hfits.1)

theorem trying_eq (h : Watched w) (hrule : w.rule x = some rule) (htorn : w.torn x = false)
    (hb : (w.building x).isSome = true) : w.trying x = some rule := by
  obtain ⟨rule', htrying, -, hsame⟩ := h.trying hb
  rw [htrying, ← hsame htorn, hrule]

/-- What an attempt that starts a recipe has declared. -/
theorem prepared (h : Watched w) {q : Cache.Request} (hfits : (Event.attempt q).Fits w.toProject)
    {w' : Cache.World} (hout : q.scheduleBuildOne false noCalls w.world = some (.recipe, w'))
    (hrule : ruleOf q w.world = some rule) :
    Declared ((Event.attempt q).apply w.toProject).db q.sf.id rule Kept := by
  have hends := Cache.Request.scheduleBuildOne_ends hfits.2.2.2.1 hout
  have hdb : ((Event.attempt q).apply w.toProject).db = (q.prepare w.world).2.db := by
    rw [Event.apply, hout]
    exact hends.db_eq
  rw [hdb]
  obtain ⟨a, ha, hname⟩ := h.always
  refine Declared.prepare (w := w.world) (R := w.R) (fun c hmem => ?_) hrule
  obtain ⟨hrow, hne⟩ := hfits.2.2.2.2 c hmem
  refine ⟨hrow, fun hid => hne ?_⟩
  obtain ⟨r₀, hr₀, hsnap⟩ := Option.map_eq_some_iff.mp hrow
  rw [hid, ha] at hr₀
  cases hr₀
  rw [← hsnap, File.fromRow_name, hname]

/-- The recipe starts by the rule of the last build. -/
theorem guarded_started (h : Watched w) {q : Cache.Request}
    (hfits : (Event.attempt q).Fits w.toProject) (hstarts : (Event.attempt q).starts w.toProject = some q)
    (hrule : w.rule q.sf.id = some rule) (hsame : w.rule q.sf.id = ruleOf q w.world)
    (hr : w.db.lookup q.sf.id = some r) (htarget : TargetRow r) (hfailed : r.failedRunid = none) :
    Declared ((Event.attempt q).apply w.toProject).db q.sf.id rule (fun _ => True) ∧
      (w.alarm q.sf.id = true → Raised ((Event.attempt q).apply w.toProject) rule r) := by
  have hwhole := h.whole hfits.2.2.1
  obtain ⟨hdecl, hraised⟩ := h.guarded hrule hwhole hr htarget hfailed
  refine ⟨?_, fun halarm => ?_⟩
  · obtain ⟨-, w', hout⟩ := starts_eq hstarts
    exact (h.prepared hfits hout (hsame ▸ hrule)).mono fun _ _ => trivial
  · exact h.raised hfits trivial (fun _ he => by cases he) hrule halarm hr hdecl (hraised halarm) rfl

/-- A walk has come by the row. -/
theorem guarded_walked (h : Watched w) {f : File} {mx : RunId}
    (hfits : (Event.isdirty f mx).Fits w.toProject) (hrule : w.rule x = some rule)
    (htorn : w.torn x = false) (hr : ((Event.isdirty f mx).apply w.toProject).db.lookup x = some r)
    (htarget : TargetRow r) (hfailed : r.failedRunid = none) :
    Declared ((Event.isdirty f mx).apply w.toProject).db x rule (fun _ => True) ∧
      (w.alarm x = true → Raised ((Event.isdirty f mx).apply w.toProject) rule r) := by
  have hpre : ∀ y ∈ ([] : List FileId), ¬w.Stuck y := by simp
  obtain ⟨r₀, hr₀, ht⟩ := (h.blocked.walk hpre hfits mx).along.rows x r hr
  have htarget₀ : TargetRow r₀ := by
    refine ⟨ht.name ▸ htarget.name, ?_, ht.override ▸ htarget.override⟩
    rcases ht.generated with hgen | ⟨hgen, -⟩
    · rw [← hgen, htarget.generated]
    · rw [htarget.generated] at hgen
      cases hgen
  obtain ⟨hdecl, hraised⟩ := h.guarded hrule htorn hr₀ htarget₀ (ht.failed ▸ hfailed)
  refine ⟨?_, fun halarm => ?_⟩
  · exact h.declared hfits trivial (fun _ _ => trivial) hdecl (fun hs => by cases hs)
      (h.trying_eq hrule htorn)
  · have hstuck : w.Stuck x := ⟨r₀, hr₀, .inr ⟨htarget₀, htorn, halarm⟩⟩
    have hchecked := ht.checked.resolve_right fun hc => hc.2.2 hstuck
    exact h.raised hfits trivial (fun _ he => by cases he) hrule halarm hr₀ hdecl (hraised halarm)
      (ht.lastSeen_eq htarget₀.name hchecked)

/-- An edit between two runs, or none at all. -/
theorem raised_edit (h : Watched w) {disk : Disk} (hhonest : (Event.edit disk).Honest w)
    (hrule : w.rule x = some rule) (hr : w.db.lookup x = some r)
    (hwhy : (Event.edit disk).alarms w x = true) (hraised : w.alarm x = true →
      Raised ((Event.edit disk).apply w.toProject) rule r) :
    Raised ((Event.edit disk).apply w.toProject) rule r := by
  cases halarm : w.alarm x with
  | true => exact hraised halarm
  | false =>
    simp only [Event.alarms, halarm, hrule, Bool.false_or, Bool.and_eq_true, Option.any_some,
      Bool.or_eq_true] at hwhy
    obtain ⟨hbetween, hwhy⟩ := hwhy
    obtain ⟨hidle, hold⟩ := h.quiet hbetween
    refine ⟨hold hr, hwhy.imp_right fun hmoved f hf => .inr ?_⟩
    have hrow : w.db.lookup rule.chosen = some f := by
      refine hf.resolve_right fun hheld => ?_
      have hnone := hidle rule.chosen
      rw [show w.building rule.chosen = some f from hheld] at hnone
      cases hnone
    rw [Rule.moved, hrow, Option.any_some, decide_eq_true_eq] at hmoved
    exact ⟨isChecked_of_lastSeen_lt (hold hrow),
      (hhonest.chosen hrule (.inr hbetween) (.inl hrow)).resolve_left hmoved⟩

theorem torn_of_kept (hreleases : e.releases = some x → w.torn x = false)
    (hstarts : ∀ q, e.starts w.toProject = some q → q.sf.id ≠ x)
    (hstamp : ∀ csum, e ≠ .stamp x csum) (htorn : e.tears w x = false) : w.torn x = false := by
  have hreleased : e.releases.elim w.torn (fun id => Function.update w.torn id false) x = false →
      w.torn x = false := by
    cases hid : e.releases with
    | none => exact id
    | some id =>
      intro htorn
      by_cases hx : x = id
      · subst hx
        exact hreleases hid
      · exact (Function.update_of_ne hx _ _).symm.trans htorn
  cases e with
  | attempt q =>
    unfold Event.tears at htorn
    cases hs : (Event.attempt q).starts w.toProject with
    | some q' =>
      rw [hs] at htorn
      exact (Function.update_of_ne (hstarts q' hs).symm _ _).symm.trans htorn
    | none =>
      rw [hs] at htorn
      exact hreleased htorn
  | stamp id csum =>
    have hx : x ≠ id := by
      rintro rfl
      exact hstamp csum rfl
    exact (Function.update_of_ne hx _ _).symm.trans htorn
  | _ => exact hreleased htorn

theorem alarms_completed (hc : e.completes = some x) : e.alarms w x = false := by
  cases e with
  | cacheHit id =>
    cases hc
    exact Function.update_self _ _ _
  | finish i scheduled disk =>
    simp only [Event.alarms, hc, Function.update_self]
  | _ => cases hc

theorem alarms_of_not_completed (hc : e.completes ≠ some x) (hrun : ∀ R, e ≠ .newRun R)
    (hedit : ∀ disk, e ≠ .edit disk) : e.alarms w x = w.alarm x := by
  have hother : e.completes.elim w.alarm (fun id => Function.update w.alarm id false) x =
      w.alarm x := by
    cases hid : e.completes with
    | none => rfl
    | some id =>
      have hx : x ≠ id := by
        rintro rfl
        exact hc hid
      exact Function.update_of_ne hx _ _
  cases e with
  | newRun R => exact absurd rfl (hrun R)
  | edit disk => exact absurd rfl (hedit disk)
  | finish i scheduled disk =>
    cases hid : (Event.finish i scheduled disk).completes with
    | none => simp only [Event.alarms, hid]
    | some id =>
      rw [hid] at hother
      simp only [Event.alarms, hid]
      exact hother
  | _ => exact hother

theorem ruled_of_not_completed (hc : e.completes ≠ some x) : e.ruled w x = w.rule x := by
  rw [Event.ruled]
  cases hid : e.completes with
  | none => rfl
  | some id =>
    have hx : x ≠ id := by
      rintro rfl
      exact hc hid
    exact Function.update_of_ne hx _ _

theorem guarded_next (h : Watched w) (hfits : e.Fits w.toProject) (hhonest : e.Honest w)
    (hrun : ∀ R, e ≠ .newRun R) (hrule : e.ruled w x = some rule) (htorn : e.tears w x = false)
    (hr : (e.apply w.toProject).db.lookup x = some r) (htarget : TargetRow r)
    (hfailed : r.failedRunid = none) :
    Declared (e.apply w.toProject).db x rule (fun _ => True) ∧
      (e.alarms w x = true → Raised (e.apply w.toProject) rule r) := by
  by_cases hc : e.completes = some x
  · have htrying : w.trying x = some rule := by
      simpa only [Event.ruled, hc, Function.update_self] using hrule
    refine ⟨(h.completed hfits hhonest hc htrying).mono fun _ _ => trivial, fun halarm => ?_⟩
    rw [alarms_completed hc] at halarm
    cases halarm
  rw [ruled_of_not_completed hc] at hrule
  cases hfits.fate h.tidy h.always hr htarget hfailed with
  | completed hc' => exact absurd hc' hc
  | stamped he =>
    subst he
    simp [Event.tears, Event.starts] at htorn
  | @started q hstarts hid hrow =>
    obtain ⟨rfl, -⟩ := starts_eq hstarts
    subst hid
    simp only [Event.tears, hstarts, Function.update_self, Bool.or_eq_false_iff,
      decide_eq_false_iff_not, not_not, Bool.not_eq_false'] at htorn
    rw [alarms_of_not_completed hc hrun fun _ he => by cases he]
    exact h.guarded_started hfits hstarts hrule htorn.1 (hrow (by simpa using htorn.2)) htarget hfailed
  | walked he =>
    subst he
    exact h.guarded_walked hfits hrule htorn hr htarget hfailed
  | kept hrow hstarts hsorts hreleases =>
    have hstamp : ∀ csum, e ≠ .stamp x csum := by
      rintro csum rfl
      simp [Event.tears, Event.starts] at htorn
    have hdies : e.releases = some x → w.torn x = false := by
      intro hx
      obtain rfl := hreleases hx
      refine hhonest.resolve_left fun hnone => ?_
      rw [hrule] at hnone
      cases hnone
    have htorn := torn_of_kept hdies hstarts hstamp htorn
    obtain ⟨hdecl, hraised⟩ := h.guarded hrule htorn hrow htarget hfailed
    have hkept : w.alarm x = true → Raised (e.apply w.toProject) rule r := fun halarm =>
      h.raised hfits hhonest hrun hrule halarm hrow hdecl (hraised halarm) rfl
    refine ⟨?_, fun halarm => ?_⟩
    · by_cases hs : e.sorts = some x
      · rw [hsorts hs]
        exact hdecl
      · exact h.declared hfits hhonest (fun _ _ => trivial) hdecl hs (h.trying_eq hrule htorn)
    · by_cases hedit : ∃ disk, e = .edit disk
      · obtain ⟨disk, rfl⟩ := hedit
        exact h.raised_edit hhonest hrule hrow halarm hkept
      · rw [alarms_of_not_completed hc hrun fun disk he => hedit ⟨disk, he⟩] at halarm
        exact hkept halarm

/-- The marks are not from a later run. -/
theorem seen_next (h : Watched w) (hfits : e.Fits w.toProject) {f : File}
    (hf : Copy (e.apply w.toProject) x f) :
    f.changedRunid.getD 0 ≤ w.R ∧ f.checkedRunid.getD 0 ≤ w.R := by
  have hpos := le_of_lt h.positive
  have hseen : ∀ {f g : File}, Copy w.toProject x f → (g.changedRunid = some w.R ∨
      g.changedRunid = f.changedRunid) → (g.checkedRunid = some w.R ∨
        g.checkedRunid = f.checkedRunid) → g.changedRunid.getD 0 ≤ w.R ∧
          g.checkedRunid.getD 0 ≤ w.R := by
    intro f g hf hchanged hchecked
    obtain ⟨hfc, hfk⟩ := h.seen hf
    constructor
    · rcases hchanged with hc | hc <;> rw [hc]
      · exact le_refl w.R
      · exact hfc
    · rcases hchecked with hc | hc <;> rw [hc]
      · exact le_refl w.R
      · exact hfk
  cases hfits.copies h.tidy hf with
  | later hcopy hlater => exact hseen hcopy (hlater.changed.imp_right And.left) (.inr hlater.checked)
  | inserted _ hrow =>
    subst hrow
    exact ⟨hpos, hpos⟩
  | walked htraced =>
    obtain ⟨r, hr, ht⟩ := htraced (fun _ => False) fun _ _ hN => hN.elim
    refine hseen (.inl hr) ?_ (ht.checked.symm.imp_left And.left)
    rcases ht.changed with hc | hc
    · exact .inr hc
    · rw [hc]
      exact (Later.fromRow w.R r).changed.imp_right And.left
  | stamped hrow _ _ hchecked hchanged => exact hseen (.inl hrow) hchanged.symm (.inl hchecked)

theorem trying_next (h : Watched w) (hfits : e.Fits w.toProject) (hhonest : e.Honest w)
    (hb : ((e.apply w.toProject).building x).isSome = true) :
    ∃ rule, e.trying w x = some rule ∧ Declared (e.apply w.toProject).db x rule Kept ∧
      (e.tears w x = false → e.ruled w x = some rule) := by
  rcases (building_iff hfits).mp hb with ⟨q, hstarts, rfl⟩ | ⟨hheld, hreleases⟩
  · obtain ⟨rfl, w', hout⟩ := starts_eq hstarts
    obtain ⟨c, hc⟩ := Cache.Request.found_of_recipe hout
    obtain ⟨rule, hrule⟩ : ∃ rule, ruleOf q w.world = some rule := ⟨_, by rw [ruleOf, hc]; rfl⟩
    refine ⟨rule, ?_, h.prepared hfits hout hrule, fun htorn => ?_⟩
    · simp only [Event.trying, hstarts, Function.update_self, hrule]
    · simp only [Event.tears, hstarts, Function.update_self, Bool.or_eq_false_iff,
        decide_eq_false_iff_not, not_not] at htorn
      exact htorn.1.trans hrule
  · obtain ⟨rule, htrying, hdecl, hsame⟩ := h.trying hheld
    have hstarts : ∀ q, e.starts w.toProject = some q → q.sf.id ≠ x := by
      rintro q hq rfl
      obtain ⟨rfl, -⟩ := starts_eq hq
      rw [hfits.2.2.1] at hheld
      cases hheld
    have hsorts : e.sorts ≠ some x := by
      intro hs
      cases e with
      | attempt q =>
        cases hs
        rw [hfits.2.2.1] at hheld
        cases hheld
      | cacheHit id => exact hreleases hs
      | finish i scheduled disk => exact hreleases hs
      | _ => cases hs
    have hcompletes : e.completes ≠ some x := by
      intro hc
      cases e with
      | cacheHit id => exact hreleases hc
      | finish i scheduled disk =>
        rw [Event.completes] at hc
        split at hc
        · exact hreleases hc
        · cases hc
      | _ => cases hc
    refine ⟨rule, ?_, h.declared hfits hhonest (fun _ hd => hd) hdecl hsorts fun _ => htrying, ?_⟩
    · rw [Event.trying]
      cases hs : e.starts w.toProject with
      | none => exact htrying
      | some q => exact (Function.update_of_ne (hstarts q hs).symm _ _).trans htrying
    · intro htorn
      rw [ruled_of_not_completed hcompletes]
      by_cases hstamp : ∃ csum, e = .stamp x csum
      · obtain ⟨csum, rfl⟩ := hstamp
        simp [Event.tears, Event.starts] at htorn
      · exact hsame (torn_of_kept (fun he => absurd he hreleases) hstarts
          (fun csum he => hstamp ⟨csum, he⟩) htorn)

theorem whole_next (h : Watched w) (hfits : e.Fits w.toProject)
    (hb : (e.apply w.toProject).building x = none) : e.tears w x = false := by
  have hfree : ¬((∃ q, e.starts w.toProject = some q ∧ q.sf.id = x) ∨
      (w.building x).isSome = true ∧ e.releases ≠ some x) := by
    rw [← building_iff hfits, hb]
    exact Bool.false_ne_true
  rw [not_or] at hfree
  have hstarts : ∀ q, e.starts w.toProject = some q → q.sf.id ≠ x := fun q hq hid =>
    hfree.1 ⟨q, hq, hid⟩
  have hwas : e.releases = some x ∨ w.building x = none := by
    by_contra hnot
    rw [not_or] at hnot
    exact hfree.2 ⟨Option.isSome_iff_ne_none.mpr hnot.2, hnot.1⟩
  have hreleased : e.releases.elim w.torn (fun id => Function.update w.torn id false) x =
      false := by
    cases hid : e.releases with
    | none => exact h.whole (hwas.resolve_left (by simp [hid]))
    | some id =>
      by_cases hx : x = id
      · subst hx
        exact Function.update_self _ _ _
      · have hne : e.releases ≠ some x := by
          rw [hid]
          exact fun heq => hx (Option.some.inj heq).symm
        exact (Function.update_of_ne hx _ _).trans (h.whole (hwas.resolve_left hne))
  cases e with
  | attempt q =>
    unfold Event.tears
    cases hs : (Event.attempt q).starts w.toProject with
    | some q' =>
      have hne : x ≠ q'.sf.id := (hstarts q' hs).symm
      exact (Function.update_of_ne hne _ _).trans (h.whole (hwas.resolve_left fun he => by cases he))
    | none => exact hreleased
  | stamp id csum =>
    have hx : x ≠ id := by
      rintro rfl
      have hnone := hwas.resolve_left fun he => by cases he
      have hsome : (w.building x).isSome = true := hfits
      rw [hnone] at hsome
      cases hsome
    exact (Function.update_of_ne hx _ _).trans (h.whole (hwas.resolve_left fun he => by cases he))
  | _ => exact hreleased

theorem alarmed_next (h : Watched w) (halarm : e.alarms w x = true) :
    (e.ruled w x).isSome = true := by
  by_cases hc : e.completes = some x
  · rw [alarms_completed hc] at halarm
    cases halarm
  rw [ruled_of_not_completed hc]
  have hwhy : ∀ {p : Rule → Bool} {b : Bool}, (w.alarm x || b && (w.rule x).any p) = true →
      (w.rule x).isSome = true := by
    intro p b hor
    cases hrule : w.rule x with
    | some rule => rfl
    | none =>
      rw [hrule, Option.any_none, Bool.and_false, Bool.or_false] at hor
      have hsome := h.alarmed hor
      rw [hrule] at hsome
      cases hsome
  by_cases hrun : ∃ R, e = .newRun R
  · obtain ⟨R, rfl⟩ := hrun
    exact hwhy (b := true) (by simpa only [Event.alarms, Bool.true_and] using halarm)
  by_cases hedit : ∃ disk, e = .edit disk
  · obtain ⟨disk, rfl⟩ := hedit
    exact hwhy halarm
  rw [alarms_of_not_completed hc (fun R he => hrun ⟨R, he⟩) fun disk he => hedit ⟨disk, he⟩] at halarm
  exact h.alarmed halarm

theorem always_next (h : Watched w) (hfits : e.Fits w.toProject) :
    ∃ a, (e.apply w.toProject).db.lookup ALWAYS_ID = some a ∧ a.name = ALWAYS := by
  obtain ⟨a, ha, hname⟩ := h.always
  have hknown : (w.db.lookup ALWAYS_ID).isSome = true := by
    rw [ha]
    rfl
  obtain ⟨a', ha'⟩ := Option.isSome_iff_exists.mp (hfits.known hknown)
  exact ⟨a', ha', ((hfits.rewritten h.tidy ha').name h.tidy (.inl ha) hknown).trans hname⟩

/-- A step within a run. -/
theorem next (h : Watched w) (hfits : e.Fits w.toProject) (hhonest : e.Honest w)
    (hrun : ∀ R, e ≠ .newRun R) : Watched (e.watch w) where
  tidy := hfits.tidy h.tidy
  positive := by
    rw [show (e.watch w).R = w.R from apply_R hrun]
    exact h.positive
  always := h.always_next hfits
  seen hf := by
    rw [show (e.watch w).R = w.R from apply_R hrun]
    exact h.seen_next hfits hf
  quiet hq := by
    cases e with
    | newRun R => exact absurd rfl (hrun R)
    | edit disk => exact h.quiet hq
    | _ => cases hq
  alarmed := h.alarmed_next
  whole := h.whole_next hfits
  trying := h.trying_next hfits hhonest
  guarded := h.guarded_next hfits hhonest hrun

/-- A new run. What has been seen so far is old. -/
theorem newRun (h : Watched w) {R : RunId} (hfits : (Event.newRun R).Fits w.toProject) :
    Watched ((Event.newRun R).watch w) := by
  obtain ⟨hidle, hR⟩ := hfits
  have hold : ∀ {x r}, w.db.lookup x = some r → r.lastSeen < R := by
    intro x r hr
    obtain ⟨hchanged, hchecked⟩ := h.seen (.inl hr)
    exact lt_of_le_of_lt (max_le hchanged hchecked) hR
  exact
    { tidy := ⟨h.tidy.ids, h.tidy.rows⟩
      positive := h.positive.trans hR
      always := h.always
      seen := fun hf => by
        obtain ⟨hchanged, hchecked⟩ := h.seen hf
        exact ⟨hchanged.trans (le_of_lt hR), hchecked.trans (le_of_lt hR)⟩
      quiet := fun _ => ⟨hidle, hold⟩
      alarmed := h.alarmed_next (e := .newRun R)
      whole := h.whole
      trying := fun {x} hb => by
        rw [show ((Event.newRun R).watch w).building x = none from hidle x] at hb
        cases hb
      guarded := fun {x rule r} hrule htorn hr htarget hfailed => by
        obtain ⟨hdecl, hraised⟩ := h.guarded hrule htorn hr htarget hfailed
        refine ⟨hdecl, fun halarm => ⟨hold hr, ?_⟩⟩
        have hrule' : w.rule x = some rule := hrule
        simp only [Event.watch, Event.alarms, hrule', Option.any_some, Bool.or_eq_true] at halarm
        rcases halarm with halarm | hexposed
        · refine (hraised halarm).why.imp_right fun hstale f hf => ?_
          exact (hstale f hf).newRun (h.seen hf).2 hR
        · exact .inl hexposed }

end Watched

theorem HonestStep.watched {w' : Watch} (hstep : HonestStep w w') (h : Watched w) : Watched w' := by
  obtain ⟨e, hfits, hhonest, rfl⟩ := hstep
  by_cases hrun : ∃ R, e = .newRun R
  · obtain ⟨R, rfl⟩ := hrun
    exact h.newRun hfits
  · exact h.next hfits hhonest fun R he => hrun ⟨R, he⟩

theorem Watch.Begun.watched (h : w.Begun) : Watched w := by
  have hlookup : ∀ {x r}, w.db.lookup x = some r → x = ALWAYS_ID ∧
      r = { id := ALWAYS_ID, name := ALWAYS } := by
    intro x r hr
    rw [h.db] at hr
    by_cases hx : x = ALWAYS_ID
    · subst hx
      cases hr
      exact ⟨rfl, rfl⟩
    · simp [Db.lookup, Ne.symm hx] at hr
  have hidle : ∀ x, w.building x = none := fun x => by rw [h.building]
  exact
    { tidy := by
        refine ⟨fun x sf hsf => ?_, fun {x sf} hsf => ?_⟩
        · rw [show w.building x = none from hidle x] at hsf
          cases hsf
        · rw [show w.building x = none from hidle x] at hsf
          cases hsf
      positive := h.positive
      always := ⟨{ id := ALWAYS_ID, name := ALWAYS }, by rw [h.db]; rfl, rfl⟩
      seen := fun {x f} hf => by
        rcases hf with hf | hf
        · obtain ⟨-, rfl⟩ := hlookup hf
          exact ⟨le_of_lt h.positive, le_of_lt h.positive⟩
        · rw [show w.building x = none from hidle x] at hf
          cases hf
      quiet := fun hq => by
        rw [h.between] at hq
        cases hq
      alarmed := fun halarm => by
        rw [h.alarm] at halarm
        cases halarm
      whole := fun _ => by rw [h.torn]
      trying := fun {x} hb => by
        rw [hidle x] at hb
        cases hb
      guarded := fun hrule => by
        rw [h.rule] at hrule
        cases hrule }

/-- In every run of honest steps. -/
theorem rule_honest {w₀ : Watch} (hstart : w₀.Begun)
    (hrun : Relation.ReflTransGen HonestStep w₀ w) : RuleHonest w := by
  have hwatched : Watched w := by
    induction hrun with
    | refl => exact hstart.watched
    | tail _ hstep ih => exact hstep.watched ih
  exact hwatched.honest

section Candidates
/-! `f` is built by `default.do`, as long as there is no `f.do`. -/

def doDisk (built own : Bool) : Disk where
  readStamp name :=
    if name = "default.do" then "5.0-1"
    else if name = "f.do" && own then "7.0-1"
    else if name = "f" && built then "9.0-1" else STAMP_MISSING
  pathExists name := name = "default.do" || name = "f.do" && own || name = "f" && built

namespace Watch

def row (w : Watch) (id : FileId) : File := (w.db.byId w.R id).getD { id, name := "" }

def begin : Watch where
  R := 1
  db := { files := [{ id := ALWAYS_ID, name := ALWAYS }] }
  disk := doDisk false false

/-- The three files have been heard of. -/
def heard : Watch :=
  (Event.insert 4 "f").watch ((Event.insert 3 "default.do").watch
    ((Event.insert 2 "f.do").watch begin))

def request (w : Watch) (id : FileId) (rules : List FileId) : Cache.Request :=
  { R := w.R, sf := w.row id, candidates := rules.map w.row, poolFree := true }

def started : Watch := (Event.attempt (heard.request 4 [2, 3])).watch heard

/-- The recipe of `f` ends with code 0. -/
def ending (w : Watch) (hrow : (w.db.lookup ((w.building 4).getD { id := 4, name := "f" }).id).isSome) :
    Input where
  R := 1
  rv := 0
  before := none
  target := none
  tmp := some { mtime := 9 }
  stdout := []
  offset := 0
  sf := (w.building 4).getD { id := 4, name := "f" }
  db := w.db
  calls :=
    { created := { mtime := 9 }
      readStamp := fun n => if n.isSome then "9.0-1" else STAMP_MISSING }
  row := hrow

def finished : Watch := (Event.finish (started.ending (by decide)) true (doDisk true false)).watch started

/-- In the next run there is an `f.do`. -/
def exposed : Watch := (Event.edit (doDisk true true)).watch ((Event.newRun 2).watch finished)

/-- The recipe of `f` writes `f.do` and asks for it. -/
def asked : Watch :=
  (Event.ifchange 4 2).watch ((Event.edit (doDisk false true)).watch started)

def askedAndMade : Watch := (Event.attempt (asked.request 2 [])).watch asked

def overwritten : Watch :=
  (Event.newRun 2).watch
    ((Event.finish (askedAndMade.ending (by decide)) true (doDisk true true)).watch askedAndMade)

theorem begin_begun : begin.Begun where
  db := rfl
  positive := by decide
  building := rfl
  callsAlways := rfl
  calledAlways := rfl
  rebuilt := rfl
  foundClean := rfl
  trying := rfl
  rule := rfl
  torn := rfl
  alarm := rfl
  between := rfl

theorem started_run : Relation.ReflTransGen HonestStep begin started := by
  have hdo : (Event.insert 2 "f.do").Fits begin.toProject := by
    rw [Event.Fits]
    decide
  have hdefault : (Event.insert 3 "default.do").Fits
      ((Event.insert 2 "f.do").watch begin).toProject := by
    rw [Event.Fits]
    decide
  have hf : (Event.insert 4 "f").Fits ((Event.insert 3 "default.do").watch
      ((Event.insert 2 "f.do").watch begin)).toProject := by
    rw [Event.Fits]
    decide
  have hattempt : (Event.attempt (heard.request 4 [2, 3])).Fits heard.toProject := by
    rw [Event.Fits]
    decide
  exact .tail (.tail (.tail (.single ⟨_, hdo, trivial, rfl⟩) ⟨_, hdefault, trivial, rfl⟩)
    ⟨_, hf, trivial, rfl⟩) ⟨_, hattempt, trivial, rfl⟩

end Watch

theorem HonestStep.step {w w' : Watch} (h : HonestStep w w') : WatchStep w w' := by
  obtain ⟨e, hfits, -, hw⟩ := h
  exact ⟨e, hfits, hw⟩

theorem rule_honest_exposed :
    Watch.exposed.alarm 4 = true ∧ RuleHonest Watch.exposed := by
  have hleaves : ∀ {w : Watch} {disk : Disk}, w.between = false → w.alarm = (fun _ => false) →
      Leaves w disk := by
    intro w disk hbetween halarm
    refine ⟨fun _ hon => ?_, fun _ hon => ?_⟩
    · rw [halarm] at hon
      cases hon
    · rw [hbetween, halarm] at hon
      exact absurd hon (by simp)
  have hquiet : Watch.started.alarm = fun _ => false := rfl
  have hfinish : (Event.finish (Watch.started.ending (by decide)) true (doDisk true false)).Fits
      Watch.started.toProject := by
    rw [Event.Fits]
    decide
  have hrun : (Event.newRun 2).Fits Watch.finished.toProject := by
    refine ⟨fun x => ?_, by decide⟩
    by_cases hx : x = 4
    · subst hx
      rfl
    · exact (Function.update_of_ne hx _ _).trans (Function.update_of_ne hx _ _)
  have hedit : (Event.edit (doDisk true true)).Fits ((Event.newRun 2).watch Watch.finished).toProject :=
    trivial
  have hmoves : Leaves ((Event.newRun 2).watch Watch.finished) (doDisk true true) := by
    refine ⟨fun _ _ _ _ hpath => ?_, fun {x rule f} hrule _ hf => .inl ?_⟩
    · simp only [Event.watch, Event.apply, Watch.finished, doDisk] at hpath ⊢
      simp only [Bool.and_false, Bool.or_false, Bool.or_eq_true] at hpath ⊢
      exact hpath.imp_left .inl
    · have hchosen : rule.chosen = 3 := by
        by_cases hx : x = 4
        · subst hx
          cases hrule
          rfl
        · rw [show ((Event.newRun 2).watch Watch.finished).rule x = none from
            (Function.update_of_ne hx _ _).trans rfl] at hrule
          cases hrule
      have hname : f.name = "default.do" := by
        rw [hchosen] at hf
        have hrow : (((Event.newRun 2).watch Watch.finished).db.lookup 3).all
            (·.name = "default.do") = true := by decide
        have hidle : ((Event.newRun 2).watch Watch.finished).building 3 = none := rfl
        rcases hf with hf | hf
        · rw [hf] at hrow
          exact of_decide_eq_true hrow
        · rw [hidle] at hf
          cases hf
      rw [hname]
      rfl
  have hfinished : HonestStep Watch.started Watch.finished :=
    ⟨_, hfinish, ⟨hleaves rfl hquiet, fun _ _ => trivial⟩, rfl⟩
  have hnewRun : HonestStep Watch.finished ((Event.newRun 2).watch Watch.finished) :=
    ⟨_, hrun, trivial, rfl⟩
  have hexposed : HonestStep ((Event.newRun 2).watch Watch.finished) Watch.exposed :=
    ⟨_, hedit, hmoves, rfl⟩
  exact ⟨by decide, rule_honest Watch.begin_begun
    (((Watch.started_run.tail hfinished).tail hnewRun).tail hexposed)⟩

theorem not_rule_honest :
    ¬∀ w₀ w : Watch, w₀.Begun → Relation.ReflTransGen WatchStep w₀ w → RuleHonest w := by
  intro h
  have hstart : Relation.ReflTransGen WatchStep Watch.begin Watch.started :=
    Relation.ReflTransGen.mono (fun _ _ h => h.step) _ _ Watch.started_run
  have hedit : (Event.edit (doDisk false true)).Fits Watch.started.toProject := trivial
  have hask : (Event.ifchange 4 2).Fits
      ((Event.edit (doDisk false true)).watch Watch.started).toProject := by
    rw [Event.Fits]
    decide
  have hmake : (Event.attempt (Watch.asked.request 2 [])).Fits Watch.asked.toProject := by
    rw [Event.Fits]
    decide
  have hfinish : (Event.finish (Watch.askedAndMade.ending (by decide)) true (doDisk true true)).Fits
      Watch.askedAndMade.toProject := by
    rw [Event.Fits]
    decide
  have hrun : (Event.newRun 2).Fits ((Event.finish (Watch.askedAndMade.ending (by decide)) true
      (doDisk true true)).watch Watch.askedAndMade).toProject := by
    refine ⟨fun x => ?_, by decide⟩
    by_cases hx : x = 4
    · subst hx
      rfl
    · exact (Function.update_of_ne hx _ _).trans (Function.update_of_ne hx _ _)
  have hhonest := h _ _ Watch.begin_begun (((((hstart.tail ⟨_, hedit, rfl⟩).tail
    ⟨_, hask, rfl⟩).tail ⟨_, hmake, rfl⟩).tail ⟨_, hfinish, rfl⟩).tail ⟨_, hrun, rfl⟩)
  have hclean : (isdirtyDefault [] Watch.overwritten.disk Watch.overwritten.R Watch.overwritten.db
      (Watch.overwritten.row 4) 2).result = .ok .clean := by decide
  exact hhonest (Watch.overwritten.row 4) 2 (by decide) ⟨by decide, by decide, by decide⟩ (by decide)
    (by decide) hclean

end Candidates

end Redo.Runs
