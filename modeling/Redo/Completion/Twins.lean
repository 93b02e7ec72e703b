import Redo.Completion.Failure

/-! # When the two completions agree

`build_one` leaves with an error where `schedule_build_one` goes on, and it records
the row of a built target before it finds out that the target was not replaced.
Away from these two places the copies do the same.
-/
namespace Redo.Completion
open State

/-- The same code, the same target and `$3`, the same row and dependency rows. -/
structure Outcome.Same (id : FileId) (a b : Outcome) : Prop where
  ended : a.ended = b.ended
  target : a.paths.target = b.paths.target
  tmp : a.paths.tmp = b.paths.tmp
  row : a.db.lookup id = b.db.lookup id
  deps : a.db.deps = b.db.deps

theorem Outcome.Same.of_eq {id : FileId} {a b : Outcome} (h : a = b) : a.Same id b := by
  subst h
  exact ⟨rfl, rfl, rfl, rfl, rfl⟩

theorem zapDeps2_deps_idem (db : Db) (id : FileId) :
    ((db.zapDeps2 id).zapDeps2 id).deps = (db.zapDeps2 id).deps := by
  simp only [Db.zapDeps2, List.filter_filter, Bool.and_self]

@[simp] theorem zapDeps2_lookup (db : Db) (id k : FileId) :
    (db.zapDeps2 id).lookup k = db.lookup k := rfl

@[simp] theorem recordBuilt_name (R : RunId) (n : Stamp) (sf : File) :
    (recordBuilt R n sf).name = sf.name := by
  simp only [recordBuilt, File.updateStamp, File.setChanged]
  split_ifs <;> rfl

/-- Checked or changed in this run by `redo-stamp`. -/
def Marked (R : RunId) (sf : File) : Prop := sf.isChecked R = true ∨ sf.isChanged R = true

/-- Recording the row as built first makes no difference to a failed row `sf` whose
target has the stamp `n`. -/
def FailureRowAgrees (R : RunId) (n : Stamp) (sf : File) : Prop :=
  (sf.stamp.getD "" = n → sf.stamp = some n ∧ Marked R sf ∧ sf.isOverride = false) ∧
    (sf.stamp.getD "" ≠ n →
      (Marked R sf → sf.changedRunid = some R) ∧ (¬Marked R sf → sf.csum = none))

theorem recordBuilt_marked {R : RunId} (n : Stamp) {sf : File} (h : Marked R sf) :
    recordBuilt R n sf = { sf with isGenerated := true, isOverride := false, stamp := some n } := by
  have h' : sf.isChecked R = true ∨ sf.isChanged R = true := h
  rw [recordBuilt, if_pos (by simpa [File.isChecked, File.isChanged] using h')]

theorem recordBuilt_unmarked {R : RunId} (n : Stamp) {sf : File} (h : ¬Marked R sf) :
    recordBuilt R n sf = { sf with
      isGenerated := true, isOverride := false, csum := none, failedRunid := none
      changedRunid := some R, stamp := if sf.stamp.getD "" ≠ n then some n else sf.stamp } := by
  have h' : ¬(sf.isChecked R = true ∨ sf.isChanged R = true) := h
  rw [recordBuilt, if_neg (by simpa [File.isChecked, File.isChanged] using h')]
  simp only [File.updateStamp, File.setChanged]
  split_ifs <;> rfl

theorem setFailed_eq (R : RunId) (n : Stamp) (f : File) : f.setFailed R n =
    if f.stamp.getD "" ≠ n then { f with
      stamp := some n, changedRunid := some R, isOverride := false, failedRunid := some R
      isGenerated := n ≠ STAMP_MISSING }
    else { f with failedRunid := some R, isGenerated := f.stamp ≠ some STAMP_MISSING } := by
  simp only [File.setFailed, File.updateStamp, File.setChanged]
  split_ifs <;> simp

/-- Compared field by field: where a recorded row differs from the prior one, in the
stamp, the changed mark, the override flag or the checksum, failing does not mend it. -/
theorem setFailed_recordBuilt_iff (R : RunId) (n : Stamp) (sf : File) :
    (recordBuilt R n sf).setFailed R n = sf.setFailed R n ↔ FailureRowAgrees R n sf := by
  unfold FailureRowAgrees
  by_cases hm : Marked R sf
  · rw [recordBuilt_marked n hm, setFailed_eq, setFailed_eq]
    by_cases hs : sf.stamp.getD "" = n
    · constructor
      · intro h
        have hst := congrArg File.stamp h
        have hov := congrArg File.isOverride h
        simp only [Option.getD_some, ne_eq, not_true, if_false, hs] at hst hov
        exact ⟨fun _ => ⟨hst.symm, hm, hov.symm⟩, fun hne => absurd hs hne⟩
      · intro h
        obtain ⟨hst, -, hov⟩ := h.1 hs
        simp [hst, hov]
    · constructor
      · intro h
        have hch := congrArg File.changedRunid h
        simp only [Option.getD_some, ne_eq, not_true, if_false, hs, not_false_iff, if_true] at hch
        exact ⟨fun he => absurd he hs, fun _ => ⟨fun _ => hch, fun hn => absurd hm hn⟩⟩
      · intro h
        simp [hs, (h.2 hs).1 hm]
  · rw [recordBuilt_unmarked n hm, setFailed_eq, setFailed_eq]
    by_cases hs : sf.stamp.getD "" = n
    · refine iff_of_false (fun h => ?_) fun h => hm (h.1 hs).2.1
      have hch := congrArg File.changedRunid h
      simp only [ne_eq, hs, not_true, if_false] at hch
      refine hm (.inr ?_)
      simp [File.isChanged, ← hch]
    · constructor
      · intro h
        have hcs := congrArg File.csum h
        simp only [ne_eq, hs, not_false_iff, if_true, Option.getD_some, not_true, if_false] at hcs
        exact ⟨fun he => absurd he hs, fun _ => ⟨fun hm' => absurd hm' hm, fun _ => hcs.symm⟩⟩
      · intro h
        simp [hs, (h.2 hs).2 hm]

namespace Input
variable (i : Input)

/-- Neither copy replaced the target. -/
def RefusedAlike : Prop :=
  i.strictRefuses (i.declared i.db) = false ∧
    FailureRowAgrees i.R (i.calls.readStamp i.target) i.sf

/-- With this at `$3`, placing and recording go alike. -/
def PlacedAlike (tmp : Option Node) : Prop :=
  if i.calls.existsTmp tmp = true ∧ i.calls.renameOk tmp i.target = false then i.RefusedAlike
  else i.calls.refresh = true

/-- When the two completions agree. -/
def TwinsAgree : Prop :=
  i.StatsOk ∧ (i.BuildOneAccepts →
    (i.copies → i.calls.createFile i.tmp = none → i.removable = false ∧ i.RefusedAlike) ∧
    (∀ newf, i.copies → i.calls.createFile i.tmp = some newf →
      i.copyOk ∧ i.PlacedAlike (some newf)) ∧
    (¬i.copies → i.PlacedAlike i.tmp))

theorem recordFailure_same_iff {p : Paths} {f g : File} {db db' : Db} (hf : f.id = i.sf.id)
    (hg : g.id = i.sf.id) (hname : f.name = g.name) (hrow : ∀ k, db.lookup k = i.db.lookup k)
    (hrow' : ∀ k, db'.lookup k = i.db.lookup k)
    (hdeps : (db.zapDeps2 f.id).deps = (db'.zapDeps2 g.id).deps) (rv : ℤ) :
    (i.recordFailure rv f db p).Same i.sf.id (i.recordFailure rv g db' p) ↔
      f.setFailed i.R (i.calls.readStamp p.target) =
        g.setFailed i.R (i.calls.readStamp p.target) := by
  obtain ⟨r, hr⟩ := Option.isSome_iff_exists.mp i.row
  have hl : ∀ (h : File) (d : Db), h.id = i.sf.id → (∀ k, d.lookup k = i.db.lookup k) →
      ((d.zapDeps2 h.id).save (h.setFailed i.R (i.calls.readStamp p.target))).lookup i.sf.id =
        some { h.setFailed i.R (i.calls.readStamp p.target) with name := r.name } :=
    fun h d hh hd => Db.lookup_save_self (by rw [File.setFailed_id, hh])
      (by rw [zapDeps2_lookup, hd, hr])
  constructor
  · intro h
    have hrows := h.row
    simp only [recordFailure] at hrows
    rw [hl f db hf hrow, hl g db' hg hrow'] at hrows
    exact File.eq_of_with_name (by rw [File.setFailed_name, File.setFailed_name, hname])
      (Option.some.inj hrows)
  · intro h
    refine ⟨rfl, rfl, rfl, ?_, hdeps⟩
    simp only [recordFailure]
    rw [hl f db hf hrow, hl g db' hg hrow', h]

/-- A target recorded as built and then failed, against one that only failed. -/
theorem finish_same_iff (p : Paths) :
    (i.finish 209 (recordBuilt i.R (i.calls.readStamp p.target) i.sf)
        (i.db.zapDeps2 (recordBuilt i.R (i.calls.readStamp p.target) i.sf).id) p).Same i.sf.id
      (i.recordFailure 209 i.sf i.db p) ↔
    i.strictRefuses (i.declared i.db) = false ∧
      FailureRowAgrees i.R (i.calls.readStamp p.target) i.sf := by
  unfold finish
  rw [i.declared_eq i.db _ rfl]
  cases i.strictRefuses (i.declared i.db) with
  | true =>
    refine iff_of_false (fun h => ?_) fun h => by cases h.1
    have he := h.ended
    simp [recordFailure] at he
  | false =>
    simp only [Bool.false_eq_true, if_false, true_and]
    rw [if_neg (show (209 : ℤ) ≠ 0 by decide)]
    refine Iff.trans (i.recordFailure_same_iff (recordBuilt_id _ _ _) rfl (recordBuilt_name _ _ _)
      (zapDeps2_lookup i.db _) (fun _ => rfl) ?_ 209) (setFailed_recordBuilt_iff _ _ _)
    rw [recordBuilt_id]
    exact zapDeps2_deps_idem i.db i.sf.id

theorem scheduleRecord_ended (p : Paths) : (i.scheduleRecord p).ended ≠ .error := by
  unfold scheduleRecord finish
  simp only
  split_ifs <;> simp [recordFailure]

theorem schedulePlace_ended (p : Paths) : (i.schedulePlace p).ended ≠ .error := by
  unfold schedulePlace
  split
  · split
    · exact i.scheduleRecord_ended _
    · simp [recordFailure]
  · exact i.scheduleRecord_ended _

/-- `schedule_build_one` always ends with a code. -/
theorem schedule_ended : i.schedule.ended ≠ .error := by
  by_cases he : i.ScheduleAccepts
  · by_cases hc : i.scheduleCopies
    · rw [i.schedule_copy he hc]
      split_ifs
      · exact i.schedulePlace_ended _
      · simp [recordFailure]
    · rw [i.schedule_place he hc]
      exact i.schedulePlace_ended _
  · rw [i.schedule_reject he]
    simp [recordFailure]

/-- With the target replaced, the two copies differ only when the row cannot be read back. -/
theorem recordPlaced_same_iff (hremote : i.remote = .off) (p : Paths) :
    (i.recordPlaced p).Same i.sf.id (i.scheduleRecord p) ↔ i.calls.refresh = true := by
  unfold recordPlaced scheduleRecord
  cases i.calls.refresh with
  | false =>
    refine iff_of_false (fun h => ?_) (by decide)
    have he := h.ended
    simp [abort, recordFailure] at he
  | true =>
    refine iff_of_true (.of_eq ?_) rfl
    simp [applyRemote, hremote]

theorem placeAndRecord_same_iff (hremote : i.remote = .off) {p : Paths}
    (hp : p.target = i.target) :
    (i.placeAndRecord 0 p).Same i.sf.id (i.schedulePlace p) ↔ i.PlacedAlike p.tmp := by
  rw [placeAndRecord_zero, schedulePlace, PlacedAlike, RefusedAlike]
  by_cases he : i.calls.existsTmp p.tmp = true
  · rw [if_pos he, if_pos he, Calls.durableRename, hp]
    cases i.calls.renameOk p.tmp i.target with
    | true => simpa [he] using i.recordPlaced_same_iff hremote _
    | false => simpa [he, hp] using i.finish_same_iff p
  · rw [if_neg he, if_neg he, if_neg (fun h => he h.1)]
    exact i.recordPlaced_same_iff hremote _

/-- `build_one` past a `$3` that could not be created. -/
theorem placeAndRecord_refused_same_iff {p : Paths} (hp : p.target = i.target) :
    (i.placeAndRecord 209 p).Same i.sf.id (i.recordFailure 209 i.sf i.db p) ↔
      i.removable = false ∧ i.RefusedAlike := by
  have hplace : i.placeAndRecord 209 p =
      i.finish 209
        (recordBuilt i.R (i.calls.readStamp (i.calls.unlinkTargetBestEffort p).target) i.sf)
        (i.db.zapDeps2 (recordBuilt i.R
          (i.calls.readStamp (i.calls.unlinkTargetBestEffort p).target) i.sf).id)
        (i.calls.unlinkTargetBestEffort p) := rfl
  rw [hplace]
  cases hr : i.removable with
  | true =>
    refine iff_of_false (fun h => ?_) (fun h => by cases h.1)
    have ht := h.target
    obtain ⟨hnone, hsome⟩ := i.unlinkTarget_target_of_removable hp hr
    rw [finish_target, recordFailure_target, hnone, hp] at ht
    rw [← ht] at hsome
    cases hsome
  | false =>
    rw [i.unlinkTarget_of_not_removable hp hr, i.finish_same_iff p, RefusedAlike, hp]
    simp

theorem scheduleAccepts_iff (h : i.StatsOk) :
    i.ScheduleAccepts ↔ examine i.rv i.before i.target i.tmp i.outSize = 0 := by
  obtain ⟨h1, h2, h3⟩ := h
  simp [ScheduleAccepts, seenTarget, seenTmp, seenSize, h1, h2, h3]

theorem scheduleCopies_iff (h : i.StatsOk) : i.scheduleCopies ↔ i.copies := by
  obtain ⟨h1, h2, h3⟩ := h
  simp [scheduleCopies, copies, seenTmp, seenSize, h2, h3]

/-- Exactly when the two completions agree, with remote execution off. -/
theorem twins_agree_iff (hremote : i.remote = .off) :
    i.buildOne.Same i.sf.id i.schedule ↔ i.TwinsAgree := by
  have herror : ∀ p, ¬(i.abort p).Same i.sf.id i.schedule :=
    fun p h => i.schedule_ended h.ended.symm
  by_cases hl : i.StatsOk
  · by_cases he : examine i.rv i.before i.target i.tmp i.outSize = 0
    · have hacc : i.BuildOneAccepts := ⟨hl, he⟩
      have hsch : i.ScheduleAccepts := (i.scheduleAccepts_iff hl).mpr he
      by_cases hc : i.copies
      · have hsc : i.scheduleCopies := (i.scheduleCopies_iff hl).mpr hc
        rw [i.buildOne_of_stats hl, if_pos he, if_pos ⟨hc.1, by simp [hc.2]⟩]
        cases hn : i.calls.createFile i.tmp with
        | none =>
          have hcopy : i.copyStdoutIgnoringErrors = (209, i.paths) := by
            rw [copyStdoutIgnoringErrors, hn]
          rw [i.copyStdout_none hn, i.schedule_copy hsch hsc, hcopy]
          rw [if_neg (show (209 : ℤ) ≠ 0 by decide)]
          refine (i.placeAndRecord_refused_same_iff rfl).trans ⟨fun h => ⟨hl, fun _ => ?_⟩, ?_⟩
          · exact ⟨fun _ _ => h, fun _ _ hs => (by rw [hn] at hs; cases hs), fun h => absurd hc h⟩
          · exact fun h => (h.2 hacc).1 hc hn
        | some newf =>
          by_cases hok : i.copyOk
          · have hcopy : i.copyStdoutIgnoringErrors =
                (0, { i.paths with tmp := some { newf with content := i.stdout } }) := by
              obtain ⟨hs, hr, hw⟩ := hok
              simp [copyStdoutIgnoringErrors, hn, hs, Calls.readToEnd, hr, Calls.writeAll, hw]
            rw [i.copyStdout_ok hn hok, i.schedule_copy hsch hsc, hcopy, if_pos rfl]
            refine (i.placeAndRecord_same_iff hremote rfl).trans ⟨fun h => ⟨hl, fun _ => ?_⟩, ?_⟩
            · refine ⟨fun _ hs => (by rw [hn] at hs; cases hs), fun f _ hf => ?_,
                fun h => absurd hc h⟩
              rw [hn] at hf
              cases hf
              exact ⟨hok, h⟩
            · exact fun h => ((h.2 hacc).2.1 newf hc hn).2
          · obtain ⟨p, hp, -⟩ := i.copyStdout_error hn hok
            rw [hp]
            exact iff_of_false (herror p) fun h => hok ((h.2 hacc).2.1 newf hc hn).1
      · have hsc : ¬i.scheduleCopies := fun h => hc ((i.scheduleCopies_iff hl).mp h)
        rw [i.buildOne_of_stats hl, if_pos he, if_neg (by rwa [Option.isNone_iff_eq_none])]
        rw [i.schedule_place hsch hsc, i.placeAndRecord_same_iff hremote rfl]
        constructor
        · exact fun h => ⟨hl, fun _ => ⟨fun h => absurd h hc, fun _ h => absurd h hc, fun _ => h⟩⟩
        · exact fun h => (h.2 hacc).2.2 hc
    · have hsch : ¬i.ScheduleAccepts := fun h => he ((i.scheduleAccepts_iff hl).mp h)
      rw [i.buildOne_of_stats hl, if_neg he, i.schedule_reject hsch]
      refine iff_of_true (.of_eq ?_) ⟨hl, fun h => absurd h.2 he⟩
      obtain ⟨h1, h2, h3⟩ := hl
      simp [seenTarget, seenTmp, seenSize, h1, h2, h3]
  · rw [i.buildOne_of_not_stats hl]
    exact iff_of_false (herror _) fun h => hl h.1

end Input

/-- The recipe's stdout cannot be read back: an error in one copy, an empty target
and code 0 in the other. -/
def unreadableStdout : Input :=
  { fullDirectory with calls := { fullDirectory.calls with create := true, readErr := some 0 } }

theorem twins_differ : ¬∀ i : Input, i.remote = .off → i.buildOne.Same i.sf.id i.schedule := by
  intro h
  have hended := (h unreadableStdout rfl).ended
  revert hended
  decide

theorem twins_agree_iff_unreadable :
    unreadableStdout.buildOne.Same unreadableStdout.sf.id unreadableStdout.schedule ↔
      unreadableStdout.TwinsAgree :=
  unreadableStdout.twins_agree_iff rfl

end Redo.Completion
