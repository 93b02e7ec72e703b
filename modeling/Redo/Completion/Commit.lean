import Redo.Completion.Output

/-! # What completion commits

Whatever happens to the files, both completions end in the same two writes: the dependencies that
the recipe has not declared again are dropped, and one row is saved.
-/
namespace Redo.Completion
open State

namespace Input
variable (i : Input)

/-- The rows that a failure may be recorded on. -/
inductive Held : File → Prop where
  | snapshot : Held i.sf
  | built (n : Stamp) : Held (recordBuilt i.R n i.sf)
  | refreshed (n : Stamp) : Held (recordBuilt i.R n (i.db.refresh i.R i.sf))

/-- The row that is saved. -/
inductive Written (o : Outcome) : File → Prop where
  | built (h : o.ended = .code 0) :
      Written o (recordBuilt i.R (i.calls.readStamp o.paths.target) (i.db.refresh i.R i.sf))
  | failed {rv : ℤ} {sf : File} (h : o.ended = .code rv) (hrv : rv ≠ 0) (hsf : i.Held sf) :
      Written o (sf.setFailed i.R (i.calls.readStamp o.paths.target))

/-- The tables that the writes start from. -/
inductive Base : Db → Prop where
  | tables : Base i.db
  | remote : Base i.applyRemote.2

/-- The two writes. -/
def Commits (o : Outcome) : Prop :=
  ∃ db r, i.Base db ∧ i.Written o r ∧ o.db = (db.zapDeps2 i.sf.id).save r

variable {i}

theorem Held.id_eq {sf : File} (h : i.Held sf) : sf.id = i.sf.id := by
  cases h with
  | snapshot => rfl
  | built n => exact recordBuilt_id i.R n i.sf
  | refreshed n => rw [recordBuilt_id, refresh_id]

theorem Written.id_eq {o : Outcome} {r : File} (h : i.Written o r) : r.id = i.sf.id := by
  cases h with
  | built => rw [recordBuilt_id, refresh_id]
  | failed _ _ hsf => rw [File.setFailed_id, hsf.id_eq]

theorem Base.lookup {db : Db} (h : i.Base db) (k : FileId) : db.lookup k = i.db.lookup k := by
  cases h with
  | tables => rfl
  | remote => exact i.applyRemote_lookup k

theorem zapDeps2_idem (db : Db) (id : FileId) :
    (db.zapDeps2 id).zapDeps2 id = db.zapDeps2 id := by
  simp only [Db.zapDeps2, List.filter_filter, Bool.and_self]

theorem recordFailure_commits {rv : ℤ} {sf : File} {db db₀ : Db} (hrv : rv ≠ 0)
    (hsf : i.Held sf) (hbase : i.Base db₀) (hdb : db = db₀ ∨ db = db₀.zapDeps2 i.sf.id)
    (p : Paths) : i.Commits (i.recordFailure rv sf db p) := by
  refine ⟨db₀, sf.setFailed i.R (i.calls.readStamp p.target), hbase, ?_, ?_⟩
  · have hw : i.Written (i.recordFailure rv sf db p) (sf.setFailed i.R
        (i.calls.readStamp (i.recordFailure rv sf db p).paths.target)) := .failed rfl hrv hsf
    rwa [recordFailure_target] at hw
  · rw [recordFailure, hsf.id_eq]
    rcases hdb with rfl | rfl
    · rfl
    · rw [zapDeps2_idem]

/-- The end of both completions. With code 0 the row has to be the refreshed one. -/
theorem finish_commits {rv : ℤ} {sf : File} {db : Db} {p : Paths} (hsf : i.Held sf)
    (hbuilt : rv = 0 → sf = recordBuilt i.R (i.calls.readStamp p.target) (i.db.refresh i.R i.sf))
    (hbase : i.Base db) : i.Commits (i.finish rv sf (db.zapDeps2 sf.id) p) := by
  rw [hsf.id_eq]
  unfold finish
  by_cases hs : i.strictRefuses ((db.zapDeps2 i.sf.id).depsOf i.R sf) = true
  · simp only [hs, if_true]
    exact recordFailure_commits (by decide) hsf hbase (Or.inr rfl) p
  · simp only [hs, if_false, Bool.false_eq_true]
    by_cases hrv : rv = 0
    · rw [if_pos hrv]
      obtain rfl := hbuilt hrv
      exact ⟨db, _, hbase, .built rfl, rfl⟩
    · rw [if_neg hrv]
      exact recordFailure_commits hrv hsf hbase (Or.inr rfl) p

theorem recordPlaced_commits {p : Paths} (h : (i.recordPlaced p).ended ≠ .error) :
    i.Commits (i.recordPlaced p) := by
  unfold recordPlaced at h ⊢
  cases hr : i.calls.refresh with
  | false => simp [hr, abort] at h
  | true => exact finish_commits (.refreshed _) (fun _ => rfl) .tables

/-- A build that is not renamed into place is recorded on the snapshot. -/
theorem finish_refused {rv : ℤ} (hrv : rv ≠ 0) (p : Paths) :
    i.Commits (i.finish rv (recordBuilt i.R (i.calls.readStamp p.target) i.sf)
      (i.db.zapDeps2 (recordBuilt i.R (i.calls.readStamp p.target) i.sf).id) p) :=
  finish_commits (.built _) (fun h => absurd h hrv) .tables

theorem placeAndRecord_commits {rv : ℤ} {p : Paths} (h : (i.placeAndRecord rv p).ended ≠ .error) :
    i.Commits (i.placeAndRecord rv p) := by
  by_cases hrv : rv = 0
  · subst hrv
    rw [i.placeAndRecord_zero] at h ⊢
    split_ifs at h ⊢ with he
    · cases hd : i.calls.durableRename p with
      | none => exact finish_refused (by decide) p
      | some p' =>
        rw [hd] at h
        exact recordPlaced_commits h
    · exact recordPlaced_commits h
  · have hplace : i.placeAndRecord rv p = i.finish rv
        (recordBuilt i.R (i.calls.readStamp (i.calls.unlinkTargetBestEffort p).target) i.sf)
        (i.db.zapDeps2 (recordBuilt i.R
          (i.calls.readStamp (i.calls.unlinkTargetBestEffort p).target) i.sf).id)
        (i.calls.unlinkTargetBestEffort p) := by
      simp [placeAndRecord, hrv]
    rw [hplace]
    exact finish_refused hrv _

theorem buildOne_commits (h : i.buildOne.ended ≠ .error) : i.Commits i.buildOne := by
  by_cases hs : i.StatsOk
  · rw [i.buildOne_of_stats hs] at h ⊢
    split_ifs at h ⊢ with he hc
    · cases hcopy : i.copyStdout with
      | error p =>
        rw [hcopy] at h
        exact absurd rfl h
      | ok q =>
        rw [hcopy] at h
        exact placeAndRecord_commits h
    · exact placeAndRecord_commits h
    · exact recordFailure_commits he .snapshot .tables (Or.inl rfl) i.paths
  · rw [i.buildOne_of_not_stats hs] at h
    exact absurd rfl h

theorem scheduleRecord_commits (p : Paths) : i.Commits (i.scheduleRecord p) := by
  unfold scheduleRecord
  cases i.calls.refresh with
  | false => exact recordFailure_commits (by decide) .snapshot .tables (Or.inl rfl) p
  | true => exact finish_commits (.refreshed _) (fun _ => rfl) .remote

theorem schedulePlace_commits (p : Paths) : i.Commits (i.schedulePlace p) := by
  unfold schedulePlace
  split
  · split
    · exact scheduleRecord_commits _
    · exact recordFailure_commits (by decide) .snapshot .tables (Or.inl rfl) p
  · exact scheduleRecord_commits _

theorem schedule_commits : i.Commits i.schedule := by
  by_cases he : i.ScheduleAccepts
  · by_cases hc : i.scheduleCopies
    · rw [i.schedule_copy he hc]
      split_ifs with hrv
      · exact schedulePlace_commits _
      · exact recordFailure_commits hrv .snapshot .tables (Or.inl rfl) _
    · rw [i.schedule_place he hc]
      exact schedulePlace_commits _
  · rw [i.schedule_reject he]
    exact recordFailure_commits he .snapshot .tables (Or.inl rfl) _

end Input
end Redo.Completion
