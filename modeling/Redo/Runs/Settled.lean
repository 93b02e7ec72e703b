import Redo.Runs.Executions

/-! # What is settled

A settled file is clean for every walk of the run. What others do to its row, and to the rows below
it, makes no difference.
-/
namespace Redo.Runs
open State Dirtiness Override Completion

variable {p p' : Work} {x : FileId} {f r : File}

/-- Two snapshots of a row that make no difference to those who depend on it. -/
structure Alike (R : RunId) (f f' : File) : Prop where
  changed : f'.changedRunid = f.changedRunid
  checked : f'.checkedRunid = f.checkedRunid ∨ f'.isChecked R = true
  deps : HasDeps f' → HasDeps f

namespace Settled

theorem quiet (h : Settled p x) : ∃ f, Quiet p x f := by
  cases h with
  | checked quiet _ => exact ⟨_, quiet⟩
  | walked quiet _ _ _ => exact ⟨_, quiet⟩

/-- A source or an override needs nothing but its own row. -/
theorem of_source (h : Quiet p x f) (hdeps : ¬HasDeps f) : Settled p x :=
  .walked h (fun hd => absurd hd hdeps) (fun hd => absurd hd hdeps) fun hd => absurd hd hdeps

theorem fresh (h : Settled p x) (hf : p.db.byId p.R x = some f) {mx : RunId}
    (hmx : f.changedRunid.getD 0 ≤ mx) : Fresh p.disk p.R p.db mx f := by
  induction h generalizing f mx with
  | @checked x f' quiet mark =>
    rw [quiet.row] at hf
    cases hf
    exact .checked quiet.notFailed quiet.changed hmx mark
  | @walked x f' quiet absent notAfter deps ih =>
    rw [quiet.row] at hf
    cases hf
    have hid : f'.id = x := Db.byId_id quiet.row
    refine .walked quiet.notFailed quiet.changed hmx quiet.stamp (fun g hg => ?_) fun g hg => ?_
    · obtain ⟨hov, hgen, d, hd, ht, hm, hs⟩ := Db.mem_depsOf.mp hg
      obtain ⟨r, hr, hpath⟩ := absent ⟨hov, hgen⟩ d hd (ht.trans hid) hm
      rw [Db.byId, hr] at hs
      rw [← Option.some.inj hs, File.fromRow_name]
      exact hpath
    · obtain ⟨hov, hgen, d, hd, ht, hm, hs⟩ := Db.mem_depsOf.mp hg
      have htarget := ht.trans hid
      exact ih ⟨hov, hgen⟩ d hd htarget hm hs (notAfter ⟨hov, hgen⟩ d hd htarget hm g hs)

/-- Nobody finds anything to do for what is settled. -/
theorem not_dirty (h : Settled p x) (hf : p.db.byId p.R f.id = some f) (hid : f.id = x) :
    p.dirty f = false := by
  obtain ⟨g, hg⟩ := h.quiet
  subst hid
  have hrow := hg.row
  rw [hf] at hrow
  cases hrow
  rw [Project.dirty, (h.fresh hf hg.notAfter).clean hf]

theorem kept (h : Settled p x) (hR : p'.R = p.R) (hdisk : p'.disk = p.disk)
    (hnames : ∀ y r, p.db.lookup y = some r → ∃ r', p'.db.lookup y = some r' ∧ r'.name = r.name)
    (hrow : ∀ z f, Settled p z → Quiet p z f → ∃ f', Quiet p' z f' ∧ Alike p.R f f')
    (hdeps : ∀ z, Settled p z → SameDeps z p.db p'.db) : Settled p' x := by
  induction h with
  | @checked x f quiet mark =>
    obtain ⟨f', hquiet, halike⟩ := hrow x f (.checked quiet mark) quiet
    refine .checked hquiet ?_
    rw [hR]
    rcases halike.checked with hc | hc
    · rwa [File.isChecked, hc]
    · exact hc
  | @walked x f quiet absent notAfter deps ih =>
    have hsettled : Settled p x := .walked quiet absent notAfter deps
    obtain ⟨f', hquiet, halike⟩ := hrow x f hsettled quiet
    rcases halike.checked with hc | hc
    swap
    · exact .checked hquiet (by rwa [hR])
    have hmem := (hdeps x hsettled).deps
    have hseen : f'.lastSeen = f.lastSeen := by rw [File.lastSeen, File.lastSeen, halike.changed, hc]
    refine .walked hquiet (fun hd d hmem' ht hm => ?_) (fun hd d hmem' ht hm g' hg' => ?_)
      fun hd d hmem' ht hm => ?_
    · obtain ⟨r, hr, hpath⟩ := absent (halike.deps hd) d ((hmem d ht).mp hmem') ht hm
      obtain ⟨r', hr', hname⟩ := hnames _ _ hr
      exact ⟨r', hr', by rwa [hname, hdisk]⟩
    · have hd' := (hmem d ht).mp hmem'
      have hsource := deps (halike.deps hd) d hd' ht hm
      obtain ⟨g, hg⟩ := hsource.quiet
      obtain ⟨g₁, hg₁, hgalike⟩ := hrow _ _ hsource hg
      have hrow₁ := hg₁.row
      rw [hR] at hrow₁ hg'
      rw [hg'] at hrow₁
      cases hrow₁
      rw [hgalike.changed, hseen]
      exact notAfter (halike.deps hd) d hd' ht hm g hg.row
    · exact ih (halike.deps hd) d ((hmem d ht).mp hmem') ht hm

end Settled

/-- `//ALWAYS` counts as changed now. -/
theorem changed_of_always {R : RunId} (hname : r.name = ALWAYS)
    (hle : (r.fromRow R).changedRunid.getD 0 ≤ R) : (r.fromRow R).changedRunid = some R := by
  unfold File.fromRow at hle ⊢
  split at hle
  · rename_i hold
    rw [if_pos hold]
  · rename_i hnot
    rw [if_neg hnot]
    cases hc : r.changedRunid with
    | none => simp [hname, hc] at hnot
    | some k =>
      simp only [hname, hc, Option.all_some, true_and, decide_eq_true_eq, not_lt] at hnot
      rw [hc] at hle
      exact congrArg some (le_antisymm hle hnot)

/-- What an event about another target makes of a quiet row. -/
theorem Quiet.beside (h : Quiet p x f) (hinv : Inv p.toContext p.db) (hr : p.db.lookup x = some r)
    {r' : File} (hbeside : Beside p.toProject x r r') (hr' : p'.db.lookup x = some r')
    (hR : p'.R = p.R) (hdisk : p'.disk = p.disk) (hidle : p'.building x = none)
    (hfree : p'.claimed x = none) : ∃ f', Quiet p' x f' ∧ Alike p.R f f' := by
  have hsnap : f = r.fromRow p.R := by
    have hrow := h.row
    rw [Db.byId, hr] at hrow
    exact (Option.some.inj hrow).symm
  have hname : f.name = r.name := by rw [hsnap, File.fromRow_name]
  -- it is enough to know the snapshot
  have hquiet : ∀ f', r'.fromRow p.R = f' → f'.failedRunid = none →
      f'.changedRunid = f.changedRunid → f'.stamp = some (p.disk.readStamp f'.name) →
        Quiet p' x f' := by
    intro f' hf' hfailed hchanged hstamp
    refine ⟨?_, hidle, hfree, hfailed, ?_, ?_, ?_⟩
    · rw [Db.byId, hr', hR, Option.map_some, hf']
    · rw [hchanged]
      exact h.changed
    · rw [hchanged, hR]
      exact h.notAfter
    · rw [hdisk]
      exact hstamp
  cases hbeside with
  | same =>
    refine ⟨f, hquiet f hsnap.symm h.notFailed rfl h.stamp, rfl, .inl rfl, id⟩
  | walked ht =>
    have hchanged : (r'.fromRow p.R).changedRunid = f.changedRunid := by
      rw [ht.fromRow_changed, hsnap]
    refine ⟨r'.fromRow p.R, hquiet _ rfl ?_ hchanged ?_, hchanged, ?_, ?_⟩
    · rw [fromRow_failedRunid, ht.failed, ← fromRow_failedRunid p.R r, ← hsnap]
      exact h.notFailed
    · rw [File.fromRow_stamp, ht.stamp, File.fromRow_name, ht.name, ← hname,
        ← File.fromRow_stamp p.R r, ← hsnap]
      exact h.stamp
    · rcases ht.checked with hc | ⟨hc, -, -⟩
      · left
        rw [File.fromRow_checkedRunid, hc, hsnap, File.fromRow_checkedRunid]
      · right
        rw [File.isChecked, File.fromRow_checkedRunid, hc]
        simp
    · rintro ⟨hov, hgen⟩
      rw [File.fromRow_isOverride, ht.override, ← File.fromRow_isOverride p.R r, ← hsnap] at hov
      rw [File.fromRow_isGenerated] at hgen
      rcases ht.generated with hg | ⟨hg, -⟩
      · rw [hg, ← File.fromRow_isGenerated p.R r, ← hsnap] at hgen
        exact ⟨hov, hgen⟩
      · rw [hg] at hgen
        cases hgen
  | chosen =>
    have hkeep : f.updateStamp p.R (p.disk.readStamp r.name) = f := by
      rw [File.updateStamp, h.stamp, hname]
      simp
    rw [← hsnap] at hr' hquiet
    have hstatic : f.setStatic p.R (p.disk.readStamp r.name) =
        { f with failedRunid := none, isOverride := false, isGenerated := false } := by
      rw [File.setStatic, hkeep]
    rw [hstatic] at hquiet
    refine ⟨_, hquiet { f with failedRunid := none, isOverride := false, isGenerated := false }
      (File.fromRow_with p.R r _ hname (by rw [hsnap])) rfl rfl h.stamp, rfl, .inl rfl, ?_⟩
    exact fun hd => absurd hd.2 Bool.false_ne_true
  | always hid =>
    have hrname : r.name = ALWAYS := (hinv.rows hr).name.mpr hid
    have hchanged : f.changedRunid = some p.R := by
      have hle := h.notAfter
      rw [hsnap] at hle ⊢
      exact changed_of_always hrname hle
    rw [← hsnap] at hr' hquiet
    refine ⟨_, hquiet (redoAlways p.R f) (File.fromRow_with p.R r _ hname ?_) rfl hchanged.symm ?_,
      hchanged.symm, .inl rfl, fun hd => absurd hd.2 Bool.false_ne_true⟩
    · rw [← hsnap, hchanged]
      rfl
    · change some STAMP_MISSING = some (p.disk.readStamp f.name)
      rw [hname, hrname, hinv.absent]

end Redo.Runs
