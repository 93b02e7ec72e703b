import Redo.Completion.Output
import Redo.Dirtiness.Overdue

/-! # What a successful build leaves for its dependents

Both completions guess from the marks of the row whether the recipe ran `redo-stamp`. Without
marks the build is recorded in full, and no dependent from an earlier run is found clean.
-/
namespace Redo.Completion
open State Dirtiness

/-- The row bears no mark of this run, or none but that it changed, and neither a failure nor a
checksum. -/
def Unmistaken (R : RunId) (sf : File) : Prop :=
  Marked R sf → sf.failedRunid = none ∧ sf.csum = none ∧ sf.changedRunid = some R

namespace Input
variable (i : Input)

/-- The row is recorded in full: as changed in this run, with the stamp of the target. -/
structure Recorded (o : Outcome) (r : File) : Prop where
  row : o.db.lookup i.sf.id = some r
  generated : r.isGenerated = true
  notOverridden : r.isOverride = false
  notFailed : r.failedRunid = none
  csum : r.csum = none
  changed : r.changedRunid = some i.R
  stamp : r.stamp = some (i.calls.readStamp o.paths.target)

/-- No walk of this run finds clean what depends on the target and was last built or checked
in an earlier run. -/
def StirsDependents (o : Outcome) : Prop :=
  ∀ g disk mx, o.db.byId i.R g.id = some g → g.name ≠ ALWAYS → g.isGenerated = true →
    g.isOverride = false → g.lastSeen < i.R →
    (∃ d ∈ o.db.deps, d.target = g.id ∧ d.source = i.sf.id ∧ d.mode = 'm') →
      (isdirtyDefault [] disk i.R o.db g mx).result ≠ .ok .clean

/-- The row that is saved. -/
def SavesBuilt (o : Outcome) : Prop :=
  ∃ db : Db, (∀ k, db.lookup k = i.db.lookup k) ∧
    o.db = db.save (recordBuilt i.R (i.calls.readStamp o.paths.target) (i.db.refresh i.R i.sf))

theorem finish_code_zero {finalRv : ℤ} {sf : File} {db : Db} {p : Paths}
    (h : (i.finish finalRv sf db p).ended = .code 0) :
    i.finish finalRv sf db p = ⟨.code 0, p, db.save sf⟩ := by
  obtain ⟨hs, rfl⟩ := (i.finish_code_iff sf db finalRv p).mp h
  simp [finish, hs]

/-- The row of a build that got through. -/
def builtRow (p : Paths) : File :=
  recordBuilt i.R (i.calls.readStamp p.target) (i.db.refresh i.R i.sf)

theorem builtRow_id (p : Paths) : (i.builtRow p).id = i.sf.id := by
  rw [builtRow, recordBuilt_id, refresh_id]

theorem recordPlaced_code_zero {p : Paths} (h : (i.recordPlaced p).ended = .code 0) :
    i.recordPlaced p = ⟨.code 0, p, (i.db.zapDeps2 i.sf.id).save (i.builtRow p)⟩ := by
  have hr := ((i.recordPlaced_code_iff p).mp h).1
  have heq : i.recordPlaced p =
      i.finish 0 (i.builtRow p) (i.db.zapDeps2 (i.builtRow p).id) p := by
    simp [recordPlaced, hr, builtRow]
  rw [heq] at h ⊢
  rw [i.finish_code_zero h, i.builtRow_id]

theorem recordPlaced_saves {p : Paths} (h : (i.recordPlaced p).ended = .code 0) :
    i.SavesBuilt (i.recordPlaced p) := by
  rw [i.recordPlaced_code_zero h]
  exact ⟨i.db.zapDeps2 i.sf.id, fun _ => rfl, rfl⟩

theorem placeAndRecord_code_zero {finalRv : ℤ} {p : Paths}
    (h : (i.placeAndRecord finalRv p).ended = .code 0) :
    ∃ p', i.placeAndRecord finalRv p = i.recordPlaced p' := by
  by_cases hrv : finalRv = 0
  · subst hrv
    rw [placeAndRecord_zero] at h ⊢
    by_cases he : i.calls.existsTmp p.tmp = true
    · rw [if_pos he] at h ⊢
      cases hd : i.calls.durableRename p with
      | some q => exact ⟨q, rfl⟩
      | none =>
        rw [hd] at h
        exact absurd ((i.finish_code_iff _ _ _ _).mp h).2 (by decide)
    · rw [if_neg he] at h ⊢
      exact ⟨_, rfl⟩
  · have hfin : ∃ sf db q, i.placeAndRecord finalRv p = i.finish finalRv sf db q := by
      simp [placeAndRecord, hrv]
    obtain ⟨sf, db, q, hfin⟩ := hfin
    rw [hfin] at h
    exact absurd ((i.finish_code_iff _ _ _ _).mp h).2 hrv

/-- With code 0 the output is in place and has been recorded. -/
theorem buildOne_code_zero (h : i.buildOne.ended = .code 0) : ∃ p, i.buildOne = i.recordPlaced p := by
  by_cases hs : i.StatsOk
  · rw [i.buildOne_of_stats hs] at h ⊢
    split_ifs at h ⊢ with he hc
    · cases hcopy : i.copyStdout with
      | error p =>
        rw [hcopy] at h
        cases h
      | ok q =>
        rw [hcopy] at h
        exact i.placeAndRecord_code_zero h
    · exact i.placeAndRecord_code_zero h
    · exact absurd (Ended.code.inj h) he
  · rw [i.buildOne_of_not_stats hs] at h
    cases h

theorem buildOne_saves (h : i.buildOne.ended = .code 0) : i.SavesBuilt i.buildOne := by
  obtain ⟨p, hp⟩ := i.buildOne_code_zero h
  rw [hp] at h ⊢
  exact i.recordPlaced_saves h

theorem scheduleRecord_code_zero {p : Paths} (h : (i.scheduleRecord p).ended = .code 0) :
    i.scheduleRecord p =
      ⟨.code 0, p, (i.applyRemote.2.zapDeps2 i.sf.id).save (i.builtRow p)⟩ := by
  have hr := ((i.scheduleRecord_code_iff p).mp h).1
  have heq : i.scheduleRecord p = i.finish i.applyRemote.1 (i.builtRow p)
      (i.applyRemote.2.zapDeps2 (i.builtRow p).id) p := by
    simp [scheduleRecord, hr, builtRow]
  rw [heq] at h ⊢
  rw [i.finish_code_zero h, i.builtRow_id]

theorem scheduleRecord_saves {p : Paths} (h : (i.scheduleRecord p).ended = .code 0) :
    i.SavesBuilt (i.scheduleRecord p) := by
  rw [i.scheduleRecord_code_zero h]
  exact ⟨i.applyRemote.2.zapDeps2 i.sf.id, i.applyRemote_lookup, rfl⟩

theorem schedulePlace_code_zero {p : Paths} (h : (i.schedulePlace p).ended = .code 0) :
    ∃ p', i.schedulePlace p = i.scheduleRecord p' := by
  rw [schedulePlace] at h ⊢
  by_cases he : i.calls.existsTmp p.tmp = true
  · rw [if_pos he] at h ⊢
    cases hd : i.calls.durableRename p with
    | some q => exact ⟨q, rfl⟩
    | none =>
      rw [hd] at h
      exact absurd (Ended.code.inj h) (by decide)
  · rw [if_neg he] at h ⊢
    exact ⟨_, rfl⟩

theorem schedule_code_zero (h : i.schedule.ended = .code 0) : ∃ p, i.schedule = i.scheduleRecord p := by
  by_cases he : i.ScheduleAccepts
  · by_cases hc : i.scheduleCopies
    · rw [i.schedule_copy he hc] at h ⊢
      split_ifs at h ⊢ with hrv
      · exact i.schedulePlace_code_zero h
      · exact absurd (Ended.code.inj h) hrv
    · rw [i.schedule_place he hc] at h ⊢
      exact i.schedulePlace_code_zero h
  · rw [i.schedule_reject he] at h
    exact absurd (Ended.code.inj h) he

theorem schedule_saves (h : i.schedule.ended = .code 0) : i.SavesBuilt i.schedule := by
  obtain ⟨p, hp⟩ := i.schedule_code_zero h
  rw [hp] at h ⊢
  exact i.scheduleRecord_saves h

variable {i} {o : Outcome}

theorem SavesBuilt.lookup (h : i.SavesBuilt o) : o.db.lookup i.sf.id =
    some (recordBuilt i.R (i.calls.readStamp o.paths.target) (i.db.refresh i.R i.sf)) := by
  obtain ⟨db, hrows, hdb⟩ := h
  obtain ⟨r, hr⟩ := Option.isSome_iff_exists.mp i.row
  have hsf : i.db.refresh i.R i.sf = r.fromRow i.R := by rw [Db.refresh, Db.byId, hr]; rfl
  have hname : (recordBuilt i.R (i.calls.readStamp o.paths.target)
      (i.db.refresh i.R i.sf)).name = r.name := by
    rw [recordBuilt_name, hsf, File.fromRow_name]
  rw [hdb, Db.lookup_save_self _ ((hrows i.sf.id).trans hr), ← hname]
  rw [recordBuilt_id, refresh_id]

/-- The guess from the marks is the only way to record less. -/
theorem SavesBuilt.recorded_iff (h : i.SavesBuilt o) (hne : ∀ n, i.calls.readStamp n ≠ "") :
    (∃ r, i.Recorded o r) ↔ Unmistaken i.R (i.db.refresh i.R i.sf) := by
  have hlookup := h.lookup
  generalize i.db.refresh i.R i.sf = sf at hlookup ⊢
  by_cases hm : Marked i.R sf
  · rw [recordBuilt_marked _ hm] at hlookup
    constructor
    · rintro ⟨r, hr⟩ -
      have heq := hr.row
      rw [hlookup] at heq
      cases heq
      exact ⟨hr.notFailed, hr.csum, hr.changed⟩
    · intro hrow
      obtain ⟨hfail, hcsum, hchanged⟩ := hrow hm
      exact ⟨_, hlookup, rfl, rfl, hfail, hcsum, hchanged, rfl⟩
  · rw [recordBuilt_unmarked _ hm] at hlookup
    refine iff_of_true ⟨_, hlookup, rfl, rfl, rfl, rfl, rfl, ?_⟩ fun hm' => absurd hm' hm
    change (if sf.stamp.getD "" ≠ _ then some _ else sf.stamp) = _
    split_ifs with hst
    · rfl
    · cases hs : sf.stamp with
      | none =>
        rw [hs] at hst
        exact absurd (not_not.mp hst).symm (hne _)
      | some n =>
        rw [hs] at hst
        exact congrArg some (not_not.mp hst)

/-- What is recorded in full makes its dependents overdue. -/
theorem Recorded.stirsDependents {r : File} (h : i.Recorded o r) : i.StirsDependents o := by
  rintro g disk mx hg hname hgen hov hold ⟨d, hd, ht, hs, hm⟩
  have hrow : ∀ {r'}, o.db.lookup g.id = some r' → r' = g := by
    intro r' hr'
    have hg' := hg
    rw [Db.byId, hr'] at hg'
    have heq : r'.fromRow i.R = g := Option.some.inj hg'
    rw [← heq, File.fromRow_of_ne]
    rwa [← heq, File.fromRow_name] at hname
  have hover : Overdue i.R o.db (· = g.id) :=
    { target := by
        rintro x r' rfl hr'
        rw [hrow hr']
        exact ⟨hname, hgen, hov⟩
      old := by
        rintro x r' rfl hr'
        rwa [hrow hr']
      dep := by
        rintro x rfl
        have hchanged : ChangedNow i.R r := Or.inr (by rw [h.changed]; rfl)
        exact ⟨d, hd, ht, hm, r, hs ▸ h.row, Or.inl hchanged⟩ }
  exact hover.not_clean (by simp) hg rfl mx

/-- A recipe that ended with code 0 is recorded in full, and stirs its dependents, exactly if
the marks that other events of the run have left do not pass for those of `redo-stamp`. -/
theorem built_row_visible_iff (stamps : ∀ n, i.calls.readStamp n ≠ "")
    (which : o = i.buildOne ∨ o = i.schedule) (success : o.ended = .code 0) :
    ((∃ r, i.Recorded o r) ∧ i.StirsDependents o) ↔ Unmistaken i.R (i.db.refresh i.R i.sf) := by
  have hsaves : i.SavesBuilt o := by
    rcases which with rfl | rfl
    · exact i.buildOne_saves success
    · exact i.schedule_saves success
  rw [← hsaves.recorded_iff stamps]
  constructor
  · exact fun h => h.1
  · rintro ⟨r, hr⟩
    exact ⟨⟨r, hr⟩, hr.stirsDependents⟩

end Input

/-- A target that was built in run 1. -/
def builtRow : File :=
  { id := 1, name := "a", isGenerated := true, changedRunid := some 1, stamp := some "100" }

/-- The recipe of `a` in run 2, with this in the tables when it ends. -/
def secondRun (db : Db) (row : (db.lookup 1).isSome) : Input where
  R := 2
  rv := 0
  before := some { mtime := 100 }
  target := some { mtime := 100, content := [1] }
  tmp := some { mtime := 200, content := [2] }
  stdout := []
  offset := 0
  sf := builtRow
  db
  calls := { created := { mtime := 200 },
             readStamp := fun n => match n with
               | none => STAMP_MISSING
               | some n => if n.mtime = 100 then "100" else "200" }
  row

theorem built_row_visible_iff_unmarked :
    let i := secondRun { files := [builtRow] } (by decide)
    ((∃ r, i.Recorded i.schedule r) ∧ i.StirsDependents i.schedule) ↔
      Unmistaken i.R (i.db.refresh i.R i.sf) :=
  Input.built_row_visible_iff (i := secondRun { files := [builtRow] } (by decide))
    (by
      intro n
      cases n with
      | none => decide
      | some n =>
        simp only [secondRun]
        split <;> decide)
    (Or.inr rfl) (by decide)

/-- The tables when `a` was found clean in run 2, before its recipe ran in the same run. -/
def foundClean : Db :=
  (isdirtyDefault [] ⟨fun _ => "100", fun _ => true⟩ 2 { files := [builtRow] } builtRow 2).state.db

/-- The changed mark of run 1 stays. That the row has no checksum shows that the recipe did not
call `redo-stamp`. -/
theorem not_built_row_visible : ¬∀ (i : Input) (o : Outcome), (∀ n, i.calls.readStamp n ≠ "") →
    (i.db.refresh i.R i.sf).csum = none → (o = i.buildOne ∨ o = i.schedule) →
      o.ended = .code 0 → (∃ r, i.Recorded o r) ∧ i.StirsDependents o := by
  intro h
  have hstamps : ∀ n, (secondRun foundClean (by decide)).calls.readStamp n ≠ "" := by
    intro n
    cases n with
    | none => decide
    | some n =>
      simp only [secondRun]
      split <;> decide
  obtain ⟨⟨r, hr⟩, -⟩ := h (secondRun foundClean (by decide)) _ hstamps rfl (Or.inl rfl)
    (by decide)
  have hrow := hr.row
  have hlookup : (secondRun foundClean (by decide)).buildOne.db.lookup 1 = some
      { builtRow with checkedRunid := some 2, stamp := some "200" } := by decide
  rw [show (secondRun foundClean (by decide)).sf.id = 1 from rfl, hlookup] at hrow
  cases hrow
  cases hr.changed

end Redo.Completion
