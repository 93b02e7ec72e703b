import Redo.Completion.Builds

/-! # When a failed build has touched the target

A completion that does not end with code 0 should leave the target as the recipe
left it. Both copies rename or unlink before their last chance to fail, and
`build_one` unlinks even after it could not create `$3`.
-/
namespace Redo.Completion
open State

/-- Not ended with code 0. -/
def Outcome.Failed (o : Outcome) : Prop := o.ended ≠ .code 0

/-- Nothing renamed over the target, nothing unlinked there. -/
def Outcome.LeavesTarget (i : Input) (o : Outcome) : Prop :=
  o.paths.touched = false ∧ o.paths.target = i.target

@[simp] theorem unlinkTmp_target (c : Calls) (p : Paths) :
    (c.unlinkTmpBestEffort p).target = p.target := by
  unfold Calls.unlinkTmpBestEffort
  split <;> rfl

@[simp] theorem unlinkTmp_touched (c : Calls) (p : Paths) :
    (c.unlinkTmpBestEffort p).touched = p.touched := by
  unfold Calls.unlinkTmpBestEffort
  split <;> rfl

@[simp] theorem recordBuilt_id (R : RunId) (n : Stamp) (sf : File) :
    (recordBuilt R n sf).id = sf.id := by
  simp only [recordBuilt, File.updateStamp, File.setChanged]
  split_ifs <;> rfl

@[simp] theorem recordBuilt_isGenerated (R : RunId) (n : Stamp) (sf : File) :
    (recordBuilt R n sf).isGenerated = true := by
  simp only [recordBuilt, File.updateStamp, File.setChanged]
  split_ifs <;> rfl

@[simp] theorem recordBuilt_isOverride (R : RunId) (n : Stamp) (sf : File) :
    (recordBuilt R n sf).isOverride = false := by
  simp only [recordBuilt, File.updateStamp, File.setChanged]
  split_ifs <;> rfl

theorem refresh_id (db : Db) (R : RunId) (f : File) : (db.refresh R f).id = f.id := by
  unfold Db.refresh
  cases h : db.byId R f.id with
  | none => rfl
  | some g => exact Db.byId_id h

/-- The dependencies of a generated file depend on its id only. -/
theorem depsOf_generated (db : Db) (R : RunId) {f g : File} (hid : f.id = g.id)
    (hf : f.isGenerated = true ∧ f.isOverride = false)
    (hg : g.isGenerated = true ∧ g.isOverride = false) : db.depsOf R f = db.depsOf R g := by
  simp [Db.depsOf, hid, hf, hg]

namespace Input

/-- Unlinking would remove the target. -/
def removable (i : Input) : Bool := Calls.unlinkOk i.calls.unlinkTarget i.target

/-- With this at `$3`, placing the output changes the target. -/
def displaces (i : Input) (tmp : Option Node) : Bool :=
  if i.calls.existsTmp tmp then i.calls.renameOk tmp i.target else i.removable

/-- The dependencies that the strict check compares the trace with. -/
def declared (i : Input) (db : Db) : List (Char × File) :=
  (db.zapDeps2 i.sf.id).depsOf i.R { i.sf with isGenerated := true, isOverride := false }

theorem declared_eq (i : Input) (db : Db) (n : Stamp) {sf : File} (h : sf.id = i.sf.id) :
    (db.zapDeps2 (recordBuilt i.R n sf).id).depsOf i.R (recordBuilt i.R n sf) = i.declared db := by
  rw [recordBuilt_id, h, declared]
  exact depsOf_generated _ _ (by rw [recordBuilt_id, h]) (by simp) (by simp)

variable (i : Input)

theorem recordFailure_leaves {rv : ℤ} {sf : File} {db : Db} {p : Paths} (ht : p.touched = false)
    (hp : p.target = i.target) : (i.recordFailure rv sf db p).LeavesTarget i := by
  simp [recordFailure, Outcome.LeavesTarget, ht, hp]

theorem finish_failed_iff (finalRv : ℤ) (sf : File) (db : Db) (p : Paths) :
    (i.finish finalRv sf db p).Failed ↔
      i.strictRefuses (db.depsOf i.R sf) = true ∨ finalRv ≠ 0 := by
  unfold finish
  cases i.strictRefuses (db.depsOf i.R sf) with
  | true => simp [recordFailure, Outcome.Failed]
  | false =>
    by_cases h : finalRv = 0
    · simp [h, Outcome.Failed]
    · simp [h, recordFailure, Outcome.Failed]

@[simp] theorem recordFailure_target (rv : ℤ) (sf : File) (db : Db) (p : Paths) :
    (i.recordFailure rv sf db p).paths.target = p.target := unlinkTmp_target _ _

@[simp] theorem finish_target (finalRv : ℤ) (sf : File) (db : Db) (p : Paths) :
    (i.finish finalRv sf db p).paths.target = p.target := by
  simp only [finish]
  split_ifs <;> simp

theorem finish_leaves_iff (finalRv : ℤ) (sf : File) (db : Db) (p : Paths) :
    (i.finish finalRv sf db p).LeavesTarget i ↔ p.touched = false ∧ p.target = i.target := by
  simp only [finish, Outcome.LeavesTarget]
  generalize (if i.strictRefuses (db.depsOf i.R sf) = true then (218 : ℤ) else finalRv) = rv
  split_ifs with h
  · rfl
  · simp [recordFailure]

theorem unlinkTarget_of_not_removable {p : Paths} (ht : p.target = i.target)
    (h : i.removable = false) : i.calls.unlinkTargetBestEffort p = p := by
  rw [removable, ← ht] at h
  rw [Calls.unlinkTargetBestEffort, h]
  rfl

theorem unlinkTarget_target_of_removable {p : Paths} (ht : p.target = i.target)
    (h : i.removable = true) :
    (i.calls.unlinkTargetBestEffort p).target = none ∧ i.target.isSome := by
  rw [removable, ← ht] at h
  rw [Calls.unlinkTargetBestEffort, if_pos h]
  refine ⟨rfl, ?_⟩
  rw [← ht]
  cases hp : p.target with
  | none => simp [Calls.unlinkOk, hp] at h
  | some n => rfl

theorem unlinkTarget_of_removable {p : Paths} (ht : p.target = i.target)
    (h : i.removable = true) : (i.calls.unlinkTargetBestEffort p).touched = true := by
  rw [removable, ← ht] at h
  rw [Calls.unlinkTargetBestEffort, if_pos h]

/-- `build_one` past a `$3` that could not be created. -/
theorem placeAndRecord_refused {finalRv : ℤ} {p : Paths} (hrv : finalRv ≠ 0)
    (hp : p.touched = false ∧ p.target = i.target) :
    ((i.placeAndRecord finalRv p).Failed → (i.placeAndRecord finalRv p).LeavesTarget i) ↔
      i.removable = false := by
  simp only [placeAndRecord, hrv, false_and, if_false]
  rw [finish_failed_iff, finish_leaves_iff]
  cases hr : i.removable with
  | true =>
    rw [i.unlinkTarget_of_removable hp.2 hr]
    simp [hrv]
  | false =>
    rw [i.unlinkTarget_of_not_removable hp.2 hr]
    simp [hp]

/-- `build_one`, once the output is in place. -/
def recordPlaced (p : Paths) : Outcome :=
  if ¬i.calls.refresh then i.abort p
  else
    let sf := recordBuilt i.R (i.calls.readStamp p.target) (i.db.refresh i.R i.sf)
    i.finish 0 sf (i.db.zapDeps2 sf.id) p

theorem placeAndRecord_zero (p : Paths) : i.placeAndRecord 0 p =
    if i.calls.existsTmp p.tmp then
      match i.calls.durableRename p with
      | some p => i.recordPlaced p
      | none =>
        let sf := recordBuilt i.R (i.calls.readStamp p.target) i.sf
        i.finish 209 sf (i.db.zapDeps2 sf.id) p
    else i.recordPlaced (i.calls.unlinkTargetBestEffort p) := by
  unfold placeAndRecord recordPlaced
  cases i.calls.existsTmp p.tmp with
  | true => cases i.calls.durableRename p <;> simp
  | false => simp

theorem recordPlaced_touched {p : Paths} (hp : p.touched = true) :
    ((i.recordPlaced p).Failed → (i.recordPlaced p).LeavesTarget i) ↔
      i.calls.refresh = true ∧ i.strictRefuses (i.declared i.db) = false := by
  unfold recordPlaced
  cases hr : i.calls.refresh with
  | false => simp [abort, Outcome.Failed, Outcome.LeavesTarget, hp]
  | true =>
    simp only [not_true, if_false]
    rw [finish_failed_iff, finish_leaves_iff, i.declared_eq i.db _ (refresh_id i.db i.R i.sf)]
    simp [hp]

theorem recordPlaced_untouched {p : Paths} (hp : p.touched = false ∧ p.target = i.target) :
    (i.recordPlaced p).LeavesTarget i := by
  unfold recordPlaced
  cases i.calls.refresh with
  | false => exact hp
  | true => exact (i.finish_leaves_iff _ _ _ _).mpr hp

theorem placeAndRecord_ok {p : Paths} (hp : p.touched = false ∧ p.target = i.target) :
    ((i.placeAndRecord 0 p).Failed → (i.placeAndRecord 0 p).LeavesTarget i) ↔
      (i.displaces p.tmp = true →
        i.calls.refresh = true ∧ i.strictRefuses (i.declared i.db) = false) := by
  rw [placeAndRecord_zero, displaces]
  by_cases he : i.calls.existsTmp p.tmp = true
  · rw [if_pos he, if_pos he, Calls.durableRename, hp.2]
    cases i.calls.renameOk p.tmp i.target with
    | true => simpa using i.recordPlaced_touched rfl
    | false =>
      refine iff_of_true (fun _ => ?_) (fun h => by cases h)
      exact (i.finish_leaves_iff _ _ _ _).mpr hp
  · rw [if_neg he, if_neg he]
    cases hr : i.removable with
    | true => simpa using i.recordPlaced_touched (i.unlinkTarget_of_removable hp.2 hr)
    | false =>
      rw [i.unlinkTarget_of_not_removable hp.2 hr]
      simpa using fun _ => i.recordPlaced_untouched hp

/-- The three `stat` calls whose errors end `build_one` at once. -/
def StatsOk : Prop :=
  i.calls.lstatTarget = true ∧ i.calls.statOut = true ∧ i.calls.lstatTmp = true

/-- Completion gets as far as `$3` and the target. -/
def BuildOneAccepts : Prop :=
  i.StatsOk ∧ examine i.rv i.before i.target i.tmp i.outSize = 0

/-- The captured stdout has to be copied to `$3`. -/
def copies : Prop := i.outSize > 0 ∧ i.tmp = none

/-- The copy of stdout meets no error. -/
def copyOk : Prop := i.calls.seek = true ∧ i.calls.readErr = none ∧ i.calls.writeErr = none

/-- When `build_one` leaves the target alone unless it ends with code 0: it does not
fail to create `$3` while it can unlink the target, and if placing the output changes
the target, then neither reading the row back nor the strict check fails afterwards. -/
def BuildOneSafe : Prop :=
  i.BuildOneAccepts →
    (i.copies → i.calls.createFile i.tmp = none → i.removable = false) ∧
    (∀ newf, i.copies → i.calls.createFile i.tmp = some newf → i.copyOk →
      i.displaces (some newf) = true →
        i.calls.refresh = true ∧ i.strictRefuses (i.declared i.db) = false) ∧
    (¬i.copies → i.displaces i.tmp = true →
      i.calls.refresh = true ∧ i.strictRefuses (i.declared i.db) = false)

theorem abort_leaves {p : Paths} (hp : p.touched = false ∧ p.target = i.target) :
    (i.abort p).LeavesTarget i := hp

theorem copyStdout_none (h : i.calls.createFile i.tmp = none) :
    i.copyStdout = .ok (209, i.paths) := by
  rw [copyStdout, h]

/-- A copy that meets an error leaves at once. -/
theorem copyStdout_error {newf : Node} (h : i.calls.createFile i.tmp = some newf)
    (hc : ¬i.copyOk) : ∃ p, i.copyStdout = .error p ∧ p.touched = false ∧ p.target = i.target := by
  rw [copyStdout, h]
  rw [copyOk] at hc
  cases hs : i.calls.seek with
  | false => exact ⟨_, rfl, rfl, rfl⟩
  | true =>
    cases hr : i.calls.readErr with
    | some k => exact ⟨{ i.paths with tmp := some newf }, by simp [Calls.readToEnd, hr], rfl, rfl⟩
    | none =>
      cases hw : i.calls.writeErr with
      | some k =>
        exact ⟨{ i.paths with tmp := some { newf with content := i.stdout.take k } },
          by simp [Calls.readToEnd, hr, Calls.writeAll, hw], rfl, rfl⟩
      | none => exact absurd ⟨hs, hr, hw⟩ hc

theorem copyStdout_ok {newf : Node} (h : i.calls.createFile i.tmp = some newf) (hc : i.copyOk) :
    i.copyStdout = .ok (0, { i.paths with tmp := some { newf with content := i.stdout } }) := by
  obtain ⟨hs, hr, hw⟩ := hc
  simp [copyStdout, h, hs, Calls.readToEnd, hr, Calls.writeAll, hw]

theorem buildOne_of_not_stats (h : ¬i.StatsOk) : i.buildOne = i.abort i.paths := by
  unfold buildOne
  rw [if_pos]
  by_contra hne
  simp only [not_or, not_not] at hne
  exact h hne

theorem buildOne_of_stats (h : i.StatsOk) : i.buildOne =
    if examine i.rv i.before i.target i.tmp i.outSize = 0 then
      if i.outSize > 0 ∧ i.tmp.isNone then
        match i.copyStdout with
        | .error p => i.abort p
        | .ok (finalRv, p) => i.placeAndRecord finalRv p
      else i.placeAndRecord 0 i.paths
    else i.recordFailure (examine i.rv i.before i.target i.tmp i.outSize) i.sf i.db i.paths := by
  unfold buildOne
  rw [if_neg (by simpa [StatsOk] using h)]
  generalize examine i.rv i.before i.target i.tmp i.outSize = rv
  by_cases he : rv = 0
  · subst he
    rfl
  · simp only [he, if_false]

theorem buildOne_leaves_iff :
    (i.buildOne.Failed → i.buildOne.LeavesTarget i) ↔ i.BuildOneSafe := by
  have hpaths : i.paths.touched = false ∧ i.paths.target = i.target := ⟨rfl, rfl⟩
  by_cases hl : i.StatsOk
  · rw [i.buildOne_of_stats hl]
    by_cases he : examine i.rv i.before i.target i.tmp i.outSize = 0
    · rw [if_pos he]
      have hacc : i.BuildOneAccepts := ⟨hl, he⟩
      by_cases hc : i.copies
      · rw [if_pos ⟨hc.1, by simp [hc.2]⟩]
        cases hn : i.calls.createFile i.tmp with
        | none =>
          rw [i.copyStdout_none hn]
          refine (i.placeAndRecord_refused (by decide) hpaths).trans ⟨fun hr _ => ?_, fun hs => ?_⟩
          · refine ⟨fun _ _ => hr, fun _ _ h => ?_, fun h => absurd hc h⟩
            rw [hn] at h
            cases h
          · exact (hs hacc).1 hc hn
        | some newf =>
          by_cases hok : i.copyOk
          · rw [i.copyStdout_ok hn hok]
            refine (i.placeAndRecord_ok (p := { i.paths with
              tmp := some { newf with content := i.stdout } }) hpaths).trans
                ⟨fun hr _ => ?_, fun hs hd => ?_⟩
            · refine ⟨fun _ h => ?_, fun f _ h _ hd => ?_, fun h => absurd hc h⟩
              · rw [hn] at h
                cases h
              · rw [hn] at h
                cases h
                exact hr hd
            · exact (hs hacc).2.1 newf hc hn hok hd
          · obtain ⟨p, hp, hpp⟩ := i.copyStdout_error hn hok
            rw [hp]
            refine iff_of_true (fun _ => i.abort_leaves hpp) fun _ => ?_
            refine ⟨fun _ h => ?_, fun _ _ _ h => absurd h hok, fun h => absurd hc h⟩
            rw [hn] at h
            cases h
      · rw [if_neg (by rwa [Option.isNone_iff_eq_none]), i.placeAndRecord_ok hpaths]
        constructor
        · exact fun hr _ => ⟨fun h => absurd h hc, fun _ h => absurd h hc, fun _ => hr⟩
        · exact fun hs => (hs hacc).2.2 hc
    · rw [if_neg he]
      exact iff_of_true (fun _ => i.recordFailure_leaves rfl rfl) fun h => absurd h.2 he
  · rw [i.buildOne_of_not_stats hl]
    exact iff_of_true (fun _ => i.abort_leaves hpaths) fun h => absurd h.1 hl

def ScheduleAccepts : Prop := examine i.rv i.before i.seenTarget i.seenTmp i.seenSize = 0

def scheduleCopies : Prop := i.seenSize > 0 ∧ i.seenTmp = none

/-- Nothing fails after the output is in place. -/
def ScheduleRecords : Prop :=
  i.calls.refresh = true ∧ i.applyRemote.1 = 0 ∧
    i.strictRefuses (i.declared i.applyRemote.2) = false

theorem applyRemoteDeps_lookup (id k : FileId) (l : List (Char × Option FileId)) (db : Db) :
    (applyRemoteDeps id l db).2.lookup k = db.lookup k := by
  induction l generalizing db with
  | nil => rfl
  | cons d rest ih =>
    obtain ⟨mode, source⟩ := d
    cases source with
    | none => rfl
    | some s => exact ih (db.addDep id mode s)

/-- What a remote job has declared changes no row. -/
theorem applyRemote_lookup (k : FileId) : i.applyRemote.2.lookup k = i.db.lookup k := by
  unfold applyRemote
  split
  · rfl
  · rfl
  · exact applyRemoteDeps_lookup _ _ _ _

/-- When `schedule_build_one` leaves the target alone unless it ends with code 0. -/
def ScheduleSafe : Prop :=
  i.ScheduleAccepts →
    (∀ newf, i.scheduleCopies → i.calls.createFile i.tmp = some newf →
      i.displaces (some newf) = true → i.ScheduleRecords) ∧
    (¬i.scheduleCopies → i.displaces i.tmp = true → i.ScheduleRecords)

theorem scheduleRecord_touched {p : Paths} (hp : p.touched = true) :
    ((i.scheduleRecord p).Failed → (i.scheduleRecord p).LeavesTarget i) ↔ i.ScheduleRecords := by
  unfold scheduleRecord ScheduleRecords
  cases hr : i.calls.refresh with
  | false => simp [recordFailure, Outcome.Failed, Outcome.LeavesTarget, hp]
  | true =>
    simp only [not_true, if_false]
    rw [finish_failed_iff, finish_leaves_iff,
      i.declared_eq i.applyRemote.2 _ (refresh_id i.db i.R i.sf)]
    simp [hp, and_comm]

theorem scheduleRecord_untouched {p : Paths} (hp : p.touched = false ∧ p.target = i.target) :
    (i.scheduleRecord p).LeavesTarget i := by
  unfold scheduleRecord
  cases i.calls.refresh with
  | false => exact i.recordFailure_leaves hp.1 hp.2
  | true => exact (i.finish_leaves_iff _ _ _ _).mpr hp

theorem schedulePlace_leaves_iff {p : Paths} (hp : p.touched = false ∧ p.target = i.target) :
    ((i.schedulePlace p).Failed → (i.schedulePlace p).LeavesTarget i) ↔
      (i.displaces p.tmp = true → i.ScheduleRecords) := by
  rw [schedulePlace, displaces]
  by_cases he : i.calls.existsTmp p.tmp = true
  · rw [if_pos he, if_pos he, Calls.durableRename, hp.2]
    cases i.calls.renameOk p.tmp i.target with
    | true => simpa using i.scheduleRecord_touched rfl
    | false =>
      refine iff_of_true (fun _ => ?_) (fun h => by cases h)
      exact i.recordFailure_leaves hp.1 hp.2
  · rw [if_neg he, if_neg he]
    cases hr : i.removable with
    | true => simpa using i.scheduleRecord_touched (i.unlinkTarget_of_removable hp.2 hr)
    | false =>
      rw [i.unlinkTarget_of_not_removable hp.2 hr]
      simpa using fun _ => i.scheduleRecord_untouched hp

theorem schedule_copy (he : i.ScheduleAccepts) (hc : i.scheduleCopies) : i.schedule =
    if i.copyStdoutIgnoringErrors.1 = 0 then i.schedulePlace i.copyStdoutIgnoringErrors.2
    else i.recordFailure i.copyStdoutIgnoringErrors.1 i.sf i.db i.copyStdoutIgnoringErrors.2 := by
  have hc' : i.seenSize > 0 ∧ i.seenTmp.isNone = true := ⟨hc.1, by simp [hc.2]⟩
  rw [ScheduleAccepts] at he
  rw [schedule, if_pos he, if_pos hc']

theorem schedule_place (he : i.ScheduleAccepts) (hc : ¬i.scheduleCopies) :
    i.schedule = i.schedulePlace i.paths := by
  have hc' : ¬(i.seenSize > 0 ∧ i.seenTmp.isNone = true) := by rwa [Option.isNone_iff_eq_none]
  rw [ScheduleAccepts] at he
  rw [schedule, if_pos he, if_neg hc']
  exact if_pos rfl

theorem schedule_reject (he : ¬i.ScheduleAccepts) : i.schedule =
    i.recordFailure (examine i.rv i.before i.seenTarget i.seenTmp i.seenSize) i.sf i.db i.paths :=
  if_neg he

theorem schedule_leaves_iff :
    (i.schedule.Failed → i.schedule.LeavesTarget i) ↔ i.ScheduleSafe := by
  have hpaths : i.paths.touched = false ∧ i.paths.target = i.target := ⟨rfl, rfl⟩
  by_cases he : i.ScheduleAccepts
  · by_cases hc : i.scheduleCopies
    · rw [i.schedule_copy he hc]
      cases hn : i.calls.createFile i.tmp with
      | none =>
        have hcopy : i.copyStdoutIgnoringErrors = (209, i.paths) := by
          rw [copyStdoutIgnoringErrors, hn]
        rw [hcopy]
        rw [if_neg (show (209 : ℤ) ≠ 0 by decide)]
        refine iff_of_true (fun _ => i.recordFailure_leaves rfl rfl) fun _ => ?_
        refine ⟨fun _ _ h => ?_, fun h => absurd hc h⟩
        rw [hn] at h
        cases h
      | some newf =>
        obtain ⟨content, hcopy⟩ : ∃ content, i.copyStdoutIgnoringErrors =
            (0, { i.paths with tmp := some { newf with content } }) := by
          rw [copyStdoutIgnoringErrors, hn]
          exact ⟨_, rfl⟩
        rw [hcopy, if_pos rfl]
        have hplace := i.schedulePlace_leaves_iff
          (p := { i.paths with tmp := some { newf with content } }) hpaths
        refine hplace.trans ⟨fun hr _ => ?_, fun hs hd => ?_⟩
        · refine ⟨fun f _ h hd => ?_, fun h => absurd hc h⟩
          rw [hn] at h
          cases h
          exact hr hd
        · exact (hs he).1 newf hc hn hd
    · rw [i.schedule_place he hc, i.schedulePlace_leaves_iff hpaths]
      constructor
      · exact fun hr _ => ⟨fun _ h => absurd h hc, fun _ => hr⟩
      · exact fun hs => (hs he).2 hc
  · rw [i.schedule_reject he]
    exact iff_of_true (fun _ => i.recordFailure_leaves rfl rfl) fun h => absurd h he

end Input

/-- Exactly when a completion that does not end with code 0 has left the target as
the recipe left it. -/
theorem failed_leaves_target_iff (i : Input) :
    ((i.buildOne.Failed → i.buildOne.LeavesTarget i) ↔ i.BuildOneSafe) ∧
      ((i.schedule.Failed → i.schedule.LeavesTarget i) ↔ i.ScheduleSafe) :=
  ⟨i.buildOne_leaves_iff, i.schedule_leaves_iff⟩

/-- A target of an earlier run, as its builder holds the row. -/
def oldRow : File :=
  { id := 1, name := "out", isGenerated := true, changedRunid := some 3, stamp := some "100" }

/-- The recipe wrote to stdout, and no file can be created next to the target. -/
def fullDirectory : Input where
  R := 5
  rv := 0
  before := some { mtime := 100 }
  target := some { mtime := 100, content := [1] }
  tmp := none
  stdout := [2]
  offset := 1
  sf := oldRow
  db := { files := [oldRow] }
  calls := { create := false, created := { mtime := 200 },
             readStamp := fun n => match n with
               | none => STAMP_MISSING
               | some n => toString n.mtime }
  row := by decide

theorem not_failed_leaves_target : ¬∀ i : Input,
    (i.buildOne.Failed → i.buildOne.LeavesTarget i) ∧
      (i.schedule.Failed → i.schedule.LeavesTarget i) := by
  intro h
  have hfailed : fullDirectory.buildOne.Failed := by
    unfold Outcome.Failed
    decide
  have hleft := ((h fullDirectory).1 hfailed).1
  revert hleft
  decide

end Redo.Completion
