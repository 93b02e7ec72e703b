import Redo.Runs.Selection

/-! # The alarm is heard

For a target whose alarm has been raised there is a candidate that is not supposed to be there, or
all copies of the row of the chosen file tell of a change or will tell of it when they are looked
at. Each event leaves it so until the target has been built.
-/
namespace Redo.Runs
open State Dirtiness Override Completion

theorem le_of_isChanged {R : RunId} {f : File} (h : f.isChanged R = true) :
    R ≤ f.changedRunid.getD 0 := by
  rw [File.isChanged] at h
  cases hc : f.changedRunid with
  | none => simp [hc] at h
  | some k => simpa [hc] using h

/-- A copy that tells of a change after `seen`, or will tell when it is looked at. -/
def Stale (R : RunId) (disk : Disk) (seen : RunId) (f : File) : Prop :=
  seen < f.changedRunid.getD 0 ∨
    f.isChecked R = false ∧ f.stamp.getD "" ≠ disk.readStamp f.name

namespace Stale
variable {R seen : RunId} {disk disk' : Disk} {f g : File}

theorem later (h : Stale R disk seen f) (hseen : seen < R) (hfg : Later R f g) :
    Stale R disk seen g := by
  rcases hfg.changed with hR | ⟨hc, hst⟩
  · left
    rw [hR]
    exact hseen
  rcases h with hnew | ⟨hopen, hne⟩
  · left
    rwa [hc]
  rcases hst with hst | hmarked | hmarked
  · right
    refine ⟨?_, ?_⟩
    · rwa [File.isChecked, hfg.checked]
    · rwa [hst, hfg.name]
  · rw [show f.isChecked R = true from hmarked] at hopen
    cases hopen
  · left
    rw [hc]
    exact hseen.trans_le (le_of_isChanged hmarked)

theorem touched {N : FileId → Prop} {x : FileId} (h : Stale R disk seen f) (hseen : seen < R)
    (ht : Touched disk R N x f g)
    (hN : f.isChecked R = false → f.stamp ≠ some (disk.readStamp f.name) → N x) :
    Stale R disk seen g := by
  have hchanged : g.changedRunid = some R ∨ g.changedRunid = f.changedRunid := by
    rcases ht.changed with hc | hc
    · exact .inr hc
    · rw [hc]
      exact (Later.fromRow R f).changed.imp_right And.left
  rcases hchanged with hR | hc
  · left
    rw [hR]
    exact hseen
  rcases h with hnew | ⟨hopen, hne⟩
  · left
    rwa [hc]
  have hmodified : f.stamp ≠ some (disk.readStamp f.name) := by
    intro hst
    rw [hst] at hne
    exact hne rfl
  have hchecked := ht.checked.resolve_right fun hc => hc.2.2 (hN hopen hmodified)
  right
  refine ⟨?_, ?_⟩
  · rwa [File.isChecked, hchecked]
  · rwa [ht.stamp, ht.name]

theorem edit (h : Stale R disk seen f) (hdisk : disk'.readStamp f.name = disk.readStamp f.name ∨
    f.stamp.getD "" ≠ disk'.readStamp f.name) : Stale R disk' seen f := by
  refine h.imp_right fun ⟨hopen, hne⟩ => ⟨hopen, ?_⟩
  rcases hdisk with heq | hne'
  · rwa [heq]
  · exact hne'

theorem newRun {R' : RunId} (h : Stale R disk seen f) (hf : f.checkedRunid.getD 0 ≤ R)
    (hR : R < R') : Stale R' disk seen f := by
  refine h.imp_right fun ⟨_, hne⟩ => ⟨?_, hne⟩
  cases hc : f.checkedRunid with
  | none => simp [File.isChecked, hc]
  | some k =>
    rw [hc] at hf
    have hk : k < R' := lt_of_le_of_lt hf hR
    simpa [File.isChecked, hc] using hk

end Stale

/-- What keeps a target from being found clean. -/
structure Raised (s : Project) (rule : Rule) (r : File) : Prop where
  old : r.lastSeen < s.R
  why : rule.exposed s.db s.disk = true ∨
    ∀ f, Copy s rule.chosen f → Stale s.R s.disk r.lastSeen f

structure Watched (w : Watch) : Prop where
  tidy : Tidy w.toProject
  positive : 0 < w.R
  always : ∃ r, w.db.lookup ALWAYS_ID = some r ∧ r.name = ALWAYS
  seen : ∀ {x f}, Copy w.toProject x f → f.changedRunid.getD 0 ≤ w.R ∧ f.checkedRunid.getD 0 ≤ w.R
  quiet : w.between = true →
    (∀ x, w.building x = none) ∧ ∀ {x r}, w.db.lookup x = some r → r.lastSeen < w.R
  alarmed : ∀ {x}, w.alarm x = true → (w.rule x).isSome = true
  whole : ∀ {x}, w.building x = none → w.torn x = false
  trying : ∀ {x}, (w.building x).isSome = true → ∃ rule, w.trying x = some rule ∧
    Declared w.db x rule Kept ∧ (w.torn x = false → w.rule x = some rule)
  guarded : ∀ {x rule r}, w.rule x = some rule → w.torn x = false → w.db.lookup x = some r →
    TargetRow r → r.failedRunid = none →
      Declared w.db x rule (fun _ => True) ∧ (w.alarm x = true → Raised w.toProject rule r)

/-- What a walk does not find clean: modified files, and targets whose alarm has been raised. -/
def Watch.Stuck (w : Watch) (x : FileId) : Prop :=
  ∃ r, w.db.lookup x = some r ∧
    (r.isChecked w.R = false ∧ r.stamp ≠ some (w.disk.readStamp r.name) ∨
      TargetRow r ∧ w.torn x = false ∧ w.alarm x = true)

variable {w : Watch} {x : FileId} {r : File} {rule : Rule}

theorem Raised.blockedRow (h : Raised w.toProject rule r) (hdecl : Declared w.db x rule fun _ => True)
    (htarget : TargetRow r) : BlockedRow w.disk w.R w.db w.Stuck x r := by
  refine ⟨htarget.name, htarget.generated, htarget.override, ?_⟩
  rcases h.why with hexposed | hstale
  · obtain ⟨y, hy, hpath⟩ := List.any_eq_true.mp hexposed
    obtain ⟨s, hs, hexists⟩ := (Option.any_eq_true _ _).mp hpath
    have hrec := (hdecl.earlier y hy).2
    obtain ⟨d, hd, ht, hsource, -⟩ := hrec.dep
    exact ⟨d, hd, ht, s, hsource ▸ hs, .inl ⟨hrec.mode d hd ht hsource, hexists⟩⟩
  · have hrec := hdecl.chosen
    obtain ⟨s, hs⟩ := Option.isSome_iff_exists.mp hrec.known
    obtain ⟨d, hd, ht, hsource, -⟩ := hrec.dep
    refine ⟨d, hd, ht, s, hsource ▸ hs, .inr ⟨hrec.mode d hd ht hsource, ?_⟩⟩
    rcases hstale s (.inl hs) with hnew | ⟨hopen, hne⟩
    · right
      rcases (Later.fromRow w.R s).changed with hR | ⟨hc, -⟩
      · rw [hR]
        exact h.old
      · rwa [hc]
    · left
      rw [hsource]
      refine ⟨s, hs, .inl ⟨hopen, fun hst => hne ?_⟩⟩
      rw [hst]
      rfl

namespace Watched

theorem blocked (h : Watched w) : Blocked w.disk w.R w.db w.Stuck := by
  rintro x r ⟨r', hr', hwhy⟩ hr
  obtain rfl := Option.some.inj (hr.symm.trans hr')
  rcases hwhy with ⟨hopen, hmodified⟩ | ⟨htarget, htorn, halarm⟩
  · exact .inr ⟨hopen, .inl hmodified⟩
  · obtain ⟨rule, hrule⟩ := Option.isSome_iff_exists.mp (h.alarmed halarm)
    cases hfailed : r.failedRunid with
    | some k => exact .inl rfl
    | none =>
      obtain ⟨hdecl, hraised⟩ := h.guarded hrule htorn hr htarget hfailed
      have hraised := hraised halarm
      exact .inr ⟨isChecked_of_lastSeen_lt hraised.old, .inr (hraised.blockedRow hdecl htarget)⟩

theorem honest (h : Watched w) : RuleHonest w := by
  intro f mx hf htarget halarm htorn
  refine h.blocked.not_clean (by simp) hf ?_ mx
  obtain ⟨r, hr, hrow⟩ := Option.map_eq_some_iff.mp hf
  have hname : r.name ≠ ALWAYS := by
    rw [← File.fromRow_name w.R r, hrow]
    exact htarget.name
  rw [File.fromRow_of_ne w.R r hname] at hrow
  subst hrow
  exact ⟨r, hr, .inr ⟨htarget, htorn, halarm⟩⟩

end Watched

/-- How the row of a target can come to be after an event, if it has not failed. -/
inductive Fate (s : Project) (x : FileId) (r : File) (e : Event) : Prop where
  | completed (h : e.completes = some x)
  | stamped {csum : String} (h : e = .stamp x csum)
  | started {q : Cache.Request} (h : e.starts s = some q) (id : q.sf.id = x)
      (row : (s.disk.pathExists q.sf.name || q.sf.isGenerated) = true → s.db.lookup x = some r)
  | walked {f : File} {mx : RunId} (h : e = .isdirty f mx)
  /-- The row is as before, and the event is not about its target, or the builder dies. -/
  | kept (row : s.db.lookup x = some r) (starts : ∀ q, e.starts s = some q → q.sf.id ≠ x)
      (sorts : e.sorts = some x → (e.apply s).db = s.db)
      (releases : e.releases = some x → e = .die x)

section Fate
variable {s : Project} {db : Db} {f : File}

theorem eq_of_lookup_save (hr : (db.save f).lookup f.id = some r) :
    ∃ name, r = { f with name := name } := by
  rw [Db.lookup_save, if_pos rfl] at hr
  obtain ⟨r₀, -, rfl⟩ := Option.map_eq_some_iff.mp hr
  exact ⟨r₀.name, rfl⟩

/-- A snapshot that is read and saved again. -/
theorem lookup_save_byId {y : FileId} (hf : s.db.byId s.R y = some f)
    (hdb : db.lookup y = s.db.lookup y) (hr : (db.save f).lookup x = some r) (hname : r.name ≠ ALWAYS) :
    db.lookup x = some r := by
  by_cases hx : x = f.id
  · subst hx
    obtain rfl : f.id = y := Db.byId_id hf
    obtain ⟨r₀, hr₀, rfl⟩ := Option.map_eq_some_iff.mp hf
    rw [hr₀] at hdb
    rw [Db.lookup_save_self rfl hdb] at hr
    obtain rfl := Option.some.inj hr
    rw [hdb, File.fromRow_of_ne s.R r₀ hname]
  · rwa [Db.lookup_save_of_ne hx] at hr

theorem lookup_prepare_of_ne {q : Cache.Request} {w : Cache.World} (hx : x ≠ q.sf.id)
    (hr : (q.prepare w).2.db.lookup x = some r) :
    w.db.lookup x = some r ∨ r.isGenerated = false := by
  have hx' : x ≠ (q.target w).id := by rwa [Cache.Request.target_id]
  have hfound := lookup_findDo hr
  refine hfound.imp_left fun hold => ?_
  have hsaved : (if w.disk.pathExists q.sf.name || q.sf.isGenerated then w.db
      else w.db.save (q.target w)).lookup x = some r := hold
  split at hsaved
  · exact hsaved
  · rwa [Db.lookup_save_of_ne hx'] at hsaved

theorem fate_attempt {q : Cache.Request} (hfits : (Event.attempt q).Fits s)
    (hr : ((Event.attempt q).apply s).db.lookup x = some r) (htarget : TargetRow r)
    (hfailed : r.failedRunid = none) : Fate s x r (.attempt q) := by
  have hsource : ¬r.isGenerated = false := by simp [htarget.generated]
  cases hout : q.scheduleBuildOne false noCalls s.world with
  | none =>
    have hdb : ((Event.attempt q).apply s).db = s.db := by rw [Event.apply, hout]
    rw [hdb] at hr
    exact .kept hr (by simp [Event.starts, hout]) (fun _ => hdb) (by simp [Event.releases])
  | some out =>
    obtain ⟨o, db, disk⟩ := out
    have hdb : ((Event.attempt q).apply s).db = db := by
      rw [Event.apply, hout]
      cases o <;> rfl
    rw [hdb] at hr
    have hends : q.Ends s.world o db := Cache.Request.scheduleBuildOne_ends hfits.2.2.2.1 hout
    have hother : ∀ {f}, f.id = q.sf.id → s.db.save f = db → x ≠ q.sf.id →
        s.db.lookup x = some r := by
      rintro f hid rfl hx
      rwa [Db.lookup_save_of_ne (by rwa [hid])] at hr
    cases hends with
    | skipped =>
      exact .kept hr (by simp [Event.starts, hout]) (fun _ => hdb) (by simp [Event.releases])
    | @kept f hf =>
      have hid : f.id = q.sf.id := by
        rcases hf with rfl | rfl
        · exact q.sf.updateStamp_id _ _
        · exact setStatic_id _ _ _
      have hx : x ≠ q.sf.id := by
        rintro rfl
        rw [← hid] at hr
        obtain ⟨name, rfl⟩ := eq_of_lookup_save hr
        rcases hf with rfl | rfl
        · cases htarget.override
        · cases htarget.generated
      exact .kept (hother hid rfl hx) (by simp [Event.starts, hout])
        (fun hs => absurd (Option.some.inj hs).symm hx) (by simp [Event.releases])
    | @unruled o f ho hf =>
      have hid : f.id = q.sf.id := by
        rcases hf with rfl | rfl
        · exact (setStatic_id _ _ _).trans Cache.Request.target_id
        · exact (File.setFailed_id _ _ _).trans Cache.Request.target_id
      have hx : x ≠ q.sf.id := by
        rintro rfl
        rw [← hid] at hr
        obtain ⟨name, rfl⟩ := eq_of_lookup_save hr
        rcases hf with rfl | rfl
        · cases htarget.generated
        · cases hfailed
      rw [Db.lookup_save_of_ne (by rwa [hid])] at hr
      have hold := (lookup_prepare_of_ne (w := s.world) hx hr).resolve_right hsource
      refine .kept hold ?_ (fun hs => absurd (Option.some.inj hs).symm hx) (by simp [Event.releases])
      intro q' hq'
      simp only [Event.starts, hout] at hq'
      cases o with
      | recipe => exact absurd rfl ho
      | _ => cases hq'
    | recipe =>
      have hstarts : (Event.attempt q).starts s = some q := by simp [Event.starts, hout]
      by_cases hx : x = q.sf.id
      · exact .started hstarts hx.symm fun hold =>
          (lookup_prepare (w := s.world) hold hr).resolve_right hsource
      · refine .kept ((lookup_prepare_of_ne (w := s.world) hx hr).resolve_right hsource) ?_
          (fun hs => absurd (Option.some.inj hs).symm hx) (by simp [Event.releases])
        intro q' hq'
        rw [hstarts] at hq'
        cases hq'
        exact Ne.symm hx

theorem Event.Fits.fate {e : Event} (hfits : e.Fits s) (htidy : Tidy s)
    (halways : ∃ a, s.db.lookup ALWAYS_ID = some a ∧ a.name = ALWAYS)
    (hr : (e.apply s).db.lookup x = some r) (htarget : TargetRow r)
    (hfailed : r.failedRunid = none) : Fate s x r e := by
  cases e with
  | newRun | edit | ifcreate =>
    exact .kept hr (fun _ h => by cases h) (fun h => by cases h) (fun h => by cases h)
  | die id =>
    exact .kept hr (fun _ h => by cases h) (fun _ => rfl) (fun h => by cases h; rfl)
  | insert id name =>
    rw [Event.apply, Inv.lookup_insert name fun r hr => (hfits r hr).1] at hr
    split at hr
    · cases hr
      exact absurd htarget.generated (by simp)
    · exact .kept hr (fun _ h => by cases h) (fun h => by cases h) (fun h => by cases h)
  | isdirty f mx => exact .walked rfl
  | attempt q => exact fate_attempt hfits hr htarget hfailed
  | cacheHit id =>
    by_cases hx : x = id
    · exact .completed (congrArg some hx.symm)
    obtain ⟨sf, hb, -⟩ := hfits
    have hid : x ≠ (Override.cacheHitRow s.R (s.disk.readStamp sf.name) (s.db.refresh s.R sf)).id := by
      rwa [cacheHitRow, File.updateStamp_id, refresh_id, htidy.ids id sf hb]
    rw [Event.apply, hb] at hr
    have hold : s.db.lookup x = some r :=
      (Inv.foldl_lookup sf.id x _ s.db).symm.trans ((Db.lookup_save_of_ne hid).symm.trans hr)
    exact .kept hold (fun _ h => by cases h) (fun h => absurd (Option.some.inj h).symm hx)
      (fun h => absurd (Option.some.inj h).symm hx)
  | giveUp id =>
    obtain ⟨sf, hb⟩ := Option.isSome_iff_exists.mp hfits
    have hid : (sf.setFailed s.R (s.disk.readStamp sf.name)).id = id := by
      rw [File.setFailed_id, htidy.ids id sf hb]
    rw [Event.apply, hb] at hr
    by_cases hx : x = id
    · obtain ⟨r₀, hr₀, -⟩ := htidy.rows hb
      subst hx
      rw [Db.lookup_save_self hid hr₀] at hr
      cases hr
      cases hfailed
    · have hold : s.db.lookup x = some r := (Db.lookup_save_of_ne (by rwa [hid])).symm.trans hr
      exact .kept hold (fun _ h => by cases h) (fun h => by cases h)
        (fun h => absurd (Option.some.inj h).symm hx)
  | ifchange id source =>
    rw [Event.apply] at hr
    have hold : s.db.lookup x = some r := by
      cases hf : s.db.byId s.R id with
      | none => rwa [hf] at hr
      | some f =>
        rw [hf] at hr
        exact lookup_save_byId hf (rfl : (s.db.addDep id 'm' source).lookup id = _) hr htarget.name
    exact .kept hold (fun _ h => by cases h) (fun h => by cases h) (fun h => by cases h)
  | always id =>
    rw [Event.apply] at hr
    have hold : s.db.lookup x = some r := by
      cases hf : s.db.byId s.R id with
      | none => simpa only [hf] using hr
      | some f =>
        cases ha : s.db.byId s.R ALWAYS_ID with
        | none => simpa only [hf, ha] using hr
        | some a =>
          simp only [hf, ha] at hr
          have hid : (redoAlways s.R a).id = ALWAYS_ID := (rfl : _ = a.id).trans (Db.byId_id ha)
          have hx : x ≠ ALWAYS_ID := by
            rintro rfl
            obtain ⟨a₀, ha₀, hname⟩ := halways
            obtain ⟨a₁, ha₁⟩ : ∃ a₁, ((s.db.addDep id 'm' ALWAYS_ID).save f).lookup ALWAYS_ID =
                some a₁ ∧ a₁.name = ALWAYS := by
              by_cases hfa : ALWAYS_ID = f.id
              · exact ⟨_, Db.lookup_save_self hfa.symm ha₀, hname⟩
              · exact ⟨a₀, (Db.lookup_save_of_ne hfa).trans ha₀, hname⟩
            rw [Db.lookup_save_self hid ha₁.1] at hr
            cases hr
            exact htarget.name ha₁.2
          rw [Db.lookup_save_of_ne (by rwa [hid])] at hr
          exact lookup_save_byId hf (rfl : (s.db.addDep id 'm' ALWAYS_ID).lookup id = _) hr htarget.name
    exact .kept hold (fun _ h => by cases h) (fun h => by cases h) (fun h => by cases h)
  | stamp id csum =>
    by_cases hx : x = id
    · subst hx
      exact .stamped rfl
    rw [Event.apply] at hr
    have hold : s.db.lookup x = some r := by
      cases hf : s.db.byId s.R id with
      | none => rwa [hf] at hr
      | some f =>
        have hid : x ≠ (redoStamp s.R csum f).id := by rwa [redoStamp_id, Db.byId_id hf]
        rw [hf] at hr
        exact (Db.lookup_save_of_ne hid).symm.trans hr
    exact .kept hold (fun _ h => by cases h) (fun h => by cases h) (fun h => by cases h)
  | finish i scheduled disk =>
    obtain ⟨hheld, -, hdb, hend, -⟩ := hfits
    obtain ⟨db, r', hbase, hw, hsaved⟩ := outcome_commits hend
    rw [Event.apply, hsaved] at hr
    by_cases hx : x = i.sf.id
    · obtain ⟨r₀, hr₀, -⟩ := htidy.rows hheld
      have hlookup : (db.zapDeps2 i.sf.id).lookup i.sf.id = some r₀ := by
        rw [← hr₀, ← hdb]
        exact hbase.lookup i.sf.id
      subst hx
      cases hw with
      | built hzero => exact .completed (by simp [Event.completes, hzero])
      | failed _ _ hsf =>
        rw [Db.lookup_save_self ((File.setFailed_id _ _ _).trans hsf.id_eq) hlookup] at hr
        cases hr
        cases hfailed
    · have hold : s.db.lookup x = some r := by
        rw [← hdb, ← hbase.lookup x]
        exact (Db.lookup_save_of_ne (by rwa [hw.id_eq])).symm.trans hr
      exact .kept hold (fun _ h => by cases h) (fun h => absurd (Option.some.inj h).symm hx)
        (fun h => absurd (Option.some.inj h).symm hx)

end Fate

end Redo.Runs
