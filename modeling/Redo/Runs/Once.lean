import Redo.Runs.Settled

/-! # Once in every run

As long as all acts are considerate, a target whose recipe has been executed in the run has failed
in it or is settled, and no process decides to build it again.
-/
namespace Redo.Runs
open State Dirtiness Override Completion

variable {p p' : Work} {s : Project} {e : Event} {x : FileId} {f r : File}

theorem of_update_none {α : Type*} {p : FileId → Option α} {x y : FileId}
    (h : Function.update p x none y ≠ none) : y ≠ x ∧ p y ≠ none := by
  by_cases hx : y = x
  · subst hx
    exact absurd (Function.update_self _ _ _) h
  · rw [Function.update_of_ne hx] at h
    exact ⟨hx, h⟩

theorem update_none {α : Type*} {p : FileId → Option α} {x y : FileId} (h : p y = none) :
    Function.update p x none y = none := by
  by_contra hne
  exact (of_update_none hne).2 h

/-- The target has failed in this run. -/
def HasFailed (p : Work) (x : FileId) : Prop := ∃ r, p.db.lookup x = some r ∧ r.isFailed p.R = true

structure Once (p : Work) : Prop where
  inv : Inv p.toContext p.db
  stamps : ∀ name, p.disk.readStamp name ≠ ""
  stamped : ∀ {x f}, Copy p.toProject x f → f.stamp.isSome = true → f.changedRunid.isSome = true
  free : ∀ {x}, (p.building x).isSome = true → p.claimed x = none
  first : ∀ {x}, p.claimed x ≠ none → p.executions x = 0
  begun : ∀ {x}, (p.building x).isSome = true → p.executions x = if p.started x then 1 else 0
  done : ∀ {x}, 0 < p.executions x → p.building x = none →
    p.executions x = 1 ∧ (HasFailed p x ∨ Settled p x)

theorem Inv.tidy (h : Inv s.toContext s.db) : Tidy s where
  ids _ _ hsf := (h.held hsf).id
  rows hsf := (h.held hsf).row

theorem Inv.marks (h : Inv s.toContext s.db) (hf : Copy s x f) : Marks s.toContext x f := by
  rcases hf with hf | hf
  · exact (h.rows hf).toMarks
  · exact (h.held hf).toMarks

/-- A stamp comes with a changed mark. -/
theorem stamped_next (hinv : Inv s.toContext s.db)
    (hstamped : ∀ {x f}, Copy s x f → f.stamp.isSome = true → f.changedRunid.isSome = true)
    (hfits : e.Fits s) (hf : Copy (e.apply s) x f) (hstamp : f.stamp.isSome = true) :
    f.changedRunid.isSome = true := by
  cases hfits.copies hinv.tidy hf with
  | @later _ g hcopy hlater =>
    rcases hlater.changed with hc | ⟨hc, hsame⟩
    · rw [hc]
      rfl
    · rw [hc]
      rcases hsame with hsame | hmarked
      · rw [hsame] at hstamp
        exact hstamped hcopy hstamp
      · exact (hinv.marks hcopy).changed_of_marked hmarked
  | inserted _ hrow =>
    subst hrow
    cases hstamp
  | walked htraced =>
    obtain ⟨r, hr, ht⟩ := htraced (fun _ => False) fun _ _ hN => hN.elim
    rw [ht.stamp] at hstamp
    exact ht.changed_isSome (hstamped (.inl hr) hstamp)
  | stamped hrow hsame _ _ hchanged =>
    rcases hchanged with hc | hc
    · rw [hc]
      apply (hinv.rows hrow).known
      right
      rw [hsame]
      rfl
    · rw [hc]
      rfl

/-- What another target's event makes of a row that has failed in the run. -/
theorem Once.failed_beside (h : Once p) (hr : p.db.lookup x = some r) (hfailed : r.isFailed p.R = true)
    {r' : File} (hbeside : Beside p.toProject x r r') (hr' : p'.db.lookup x = some r')
    (hR : p'.R = p.R) (hdisk : p'.disk = p.disk) (hidle : p'.building x = none)
    (hfree : p'.claimed x = none) : HasFailed p' x ∨ Settled p' x := by
  have hrow := h.inv.rows hr
  have hsome : r.failedRunid ≠ none := by
    intro hnone
    rw [File.isFailed, hnone] at hfailed
    cases hfailed
  have hx : x ≠ ALWAYS_ID := fun hA => hsome (hrow.always hA).1
  have hname : r.name ≠ ALWAYS := fun hA => hx (hrow.name.mp hA)
  have hstill : r'.failedRunid = r.failedRunid → HasFailed p' x := by
    intro hsame
    refine ⟨r', hr', ?_⟩
    rw [File.isFailed, hsame, hR]
    exact hfailed
  cases hbeside with
  | same => exact .inl (hstill rfl)
  | walked ht => exact .inl (hstill ht.failed)
  | always hA => exact absurd hA hx
  | chosen =>
    right
    rw [File.fromRow_of_ne p.R r hname] at hr'
    have hmarks := hrow.toMarks.setStatic (p.disk.readStamp r.name)
    have hstamp : (r.setStatic p.R (p.disk.readStamp r.name)).stamp =
        some (p.disk.readStamp r.name) := File.updateStamp_stamp (h.stamps _) p.R r
    have hchanged : (r.setStatic p.R (p.disk.readStamp r.name)).changedRunid.isSome = true := by
      change (r.updateStamp p.R (p.disk.readStamp r.name)).changedRunid.isSome = true
      unfold File.updateStamp
      split
      · rfl
      · rename_i hsame
        rw [not_not] at hsame
        apply h.stamped (.inl hr)
        cases hs : r.stamp with
        | none =>
          rw [hs] at hsame
          exact absurd hsame.symm (h.stamps _)
        | some n => rfl
    have hsname := setStatic_name p.R (p.disk.readStamp r.name) r
    refine .of_source (f := r.setStatic p.R (p.disk.readStamp r.name))
      ⟨?_, hidle, hfree, rfl, hchanged, ?_, ?_⟩ fun hd => absurd hd.2 Bool.false_ne_true
    · rw [Db.byId, hr', Option.map_some, File.fromRow_of_ne _ _ (by rwa [hsname])]
    · rw [hR]
      exact hmarks.changed
    · rw [hdisk, hsname]
      exact hstamp

variable {a : Act}

theorem Act.Considerate.plain (h : a.Considerate p) (hinv : Inv p.toContext p.db) :
    (a.event p).Plain p.toProject := by
  cases a with
  | enter entry oob f =>
    rw [Act.event]
    split
    · trivial
    · exact ⟨hinv.absent, keepsRebuilt_refl _⟩
  | giveBack | start => exact ⟨hinv.absent, keepsRebuilt_refl _⟩
  | attempt q => exact h
  | other e => exact h.1
  | newRun R => trivial

namespace Once

theorem not_claimed (h : Once p) (hpos : 0 < p.executions x) : p.claimed x = none := by
  by_contra hx
  rw [h.first (by simpa using hx)] at hpos
  exact lt_irrefl 0 hpos

theorem inv_next (h : Once p) (hfits : a.Fits p) (hcons : a.Considerate p) :
    Inv (a.apply p).toContext (a.apply p).db := by
  have hstep : RunStep p.toProject (a.apply p).toProject :=
    ⟨a.event p, hfits.event, hcons.plain h.inv, a.apply_toProject p⟩
  exact hstep.inv h.inv

theorem stamped_next (h : Once p) (hfits : a.Fits p) {x : FileId} {f : File}
    (hf : Copy (a.apply p).toProject x f) (hstamp : f.stamp.isSome = true) :
    f.changedRunid.isSome = true := by
  rw [a.apply_toProject p] at hf
  exact Runs.stamped_next h.inv h.stamped hfits.event hf hstamp

/-- An act about other targets leaves settled what it leaves alone. -/
theorem settled_next (h : Once p) (hfits : a.Fits p) (hR : (a.apply p).R = p.R)
    (hdisk : (a.apply p).disk = p.disk) (hother : ∀ z, Settled p z →
      (a.event p).target ≠ some z ∧ (a.apply p).claimed z = none) (hx : Settled p x) :
    Settled (a.apply p) x := by
  have hevent := hfits.event
  have htidy := h.inv.tidy
  have hproject := a.apply_toProject p
  refine hx.kept hR hdisk (fun y r hr => ?_) (fun z f hz hquiet => ?_) fun z hz => ?_
  · rw [hproject]
    exact hevent.row_name htidy hr
  · obtain ⟨htarget, hfree⟩ := hother z hz
    obtain ⟨r, hr, -⟩ := Option.map_eq_some_iff.mp hquiet.row
    obtain ⟨r', hr', hbeside⟩ := hevent.beside htidy htarget hr
    rw [← hproject] at hr'
    refine hquiet.beside h.inv hr hbeside hr' hR hdisk ?_ hfree
    rw [hproject]
    exact building_of_target_ne hevent htarget hquiet.idle
  · obtain ⟨htarget, -⟩ := hother z hz
    rw [hproject]
    exact hevent.sameDeps htidy.ids (fun hs => htarget (target_of_sorts hs))
      fun hd => htarget (target_of_declares hd)

theorem done_next (h : Once p) (hfits : a.Fits p) (hR : (a.apply p).R = p.R)
    (hdisk : (a.apply p).disk = p.disk) (hother : ∀ z, Settled p z →
      (a.event p).target ≠ some z ∧ (a.apply p).claimed z = none)
    (hidle : p.building x = none) (htarget : (a.event p).target ≠ some x)
    (hfree : (a.apply p).claimed x = none) (hdone : HasFailed p x ∨ Settled p x) :
    HasFailed (a.apply p) x ∨ Settled (a.apply p) x := by
  rcases hdone with ⟨r, hr, hfailed⟩ | hx
  · have hproject := a.apply_toProject p
    obtain ⟨r', hr', hbeside⟩ := hfits.event.beside h.inv.tidy htarget hr
    rw [← hproject] at hr'
    refine h.failed_beside hr hfailed hbeside hr' hR hdisk ?_ hfree
    rw [hproject]
    exact building_of_target_ne hfits.event htarget hidle
  · exact .inr (h.settled_next hfits hR hdisk hother hx)

/-- Nobody decides to build what has been executed, or what is settled. -/
theorem enter_builds (h : Once p) {entry : Entry} {oob : Bool} (hfits : (Act.enter entry oob f).Fits p)
    (hcons : (Act.enter entry oob f).Considerate p)
    (hverdict : entry.verdict oob p.toProject f ≠ none) :
    p.executions f.id = 0 ∧ ¬Settled p f.id := by
  obtain ⟨hrow, hidle, -⟩ := hfits
  obtain ⟨hasks, hwalks⟩ := hcons
  obtain ⟨haway, hlooks⟩ := Entry.of_verdict hverdict
  have hdirty : p.dirty f = true := hlooks.elim hwalks id
  have hunsettled : ¬Settled p f.id := by
    intro hx
    rw [hx.not_dirty hrow rfl] at hdirty
    cases hdirty
  refine ⟨?_, hunsettled⟩
  by_contra hpos
  obtain ⟨-, ⟨r, hr, hfailed⟩ | hx⟩ := h.done (Nat.pos_of_ne_zero hpos) hidle
  · rw [Db.byId, hr] at hrow
    have hffailed : f.isFailed p.R = true := by
      rw [← Option.some.inj hrow, File.isFailed, fromRow_failedRunid]
      exact hfailed
    rw [Entry.turnsAway, hffailed, Bool.and_true] at haway
    rw [hasks haway] at hffailed
    cases hffailed
  · exact hunsettled hx

theorem enter (h : Once p) {entry : Entry} {oob : Bool} (hfits : (Act.enter entry oob f).Fits p)
    (hcons : (Act.enter entry oob f).Considerate p) : Once ((Act.enter entry oob f).apply p) := by
  have hR : ((Act.enter entry oob f).apply p).R = p.R := by
    rw [Act.apply, Entry.look]
    split <;> rfl
  have hdisk : ((Act.enter entry oob f).apply p).disk = p.disk := by
    rw [Act.apply, Entry.look]
    split <;> rfl
  have hbuilding : ((Act.enter entry oob f).apply p).building = p.building := by
    rw [Act.apply, Entry.look]
    split <;> rfl
  have htarget : ∀ z, ((Act.enter entry oob f).event p).target ≠ some z := by
    intro z
    rw [Act.event]
    split <;> simp [Event.target]
  have hclaimed : ∀ {z}, p.claimed z = none → (z = f.id → entry.verdict oob p.toProject f = none) →
      ((Act.enter entry oob f).apply p).claimed z = none := by
    intro z hz hf
    by_cases hx : z = f.id
    · subst hx
      exact (Function.update_self _ _ _).trans (hf rfl)
    · exact (Function.update_of_ne hx _ _).trans hz
  have hother : ∀ z, Settled p z → ((Act.enter entry oob f).event p).target ≠ some z ∧
      ((Act.enter entry oob f).apply p).claimed z = none := by
    intro z hz
    obtain ⟨g, hg⟩ := hz.quiet
    refine ⟨htarget z, hclaimed hg.free ?_⟩
    rintro rfl
    by_contra hverdict
    exact (h.enter_builds hfits hcons hverdict).2 hz
  exact
    { inv := h.inv_next hfits hcons
      stamps := by
        rw [hdisk]
        exact h.stamps
      stamped := h.stamped_next hfits
      free := fun {z} hb => by
        rw [hbuilding] at hb
        refine hclaimed (h.free hb) ?_
        rintro rfl
        rw [hfits.2.1] at hb
        cases hb
      first := fun {z} hz => by
        change p.executions z = 0
        by_cases hx : z = f.id
        · subst hx
          refine (h.enter_builds hfits hcons fun hnone => hz ?_).1
          exact (Function.update_self _ _ _).trans hnone
        · exact h.first fun hnone => hz ((Function.update_of_ne hx _ _).trans hnone)
      begun := fun {z} hb => by
        rw [hbuilding] at hb
        exact h.begun hb
      done := fun {z} hpos hb => by
        rw [hbuilding] at hb
        obtain ⟨hone, hdone⟩ := h.done hpos hb
        refine ⟨hone, h.done_next hfits hR hdisk hother hb (htarget z) (hclaimed (h.not_claimed hpos) ?_) hdone⟩
        rintro rfl
        by_contra hverdict
        rw [(h.enter_builds hfits hcons hverdict).1] at hone
        cases hone }

theorem giveBack (h : Once p) {id : FileId} (hfits : (Act.giveBack id).Fits p) :
    Once ((Act.giveBack id).apply p) := by
  have hclaimed : ∀ {z}, p.claimed z = none → ((Act.giveBack id).apply p).claimed z = none :=
    update_none
  have hother : ∀ z, Settled p z → ((Act.giveBack id).event p).target ≠ some z ∧
      ((Act.giveBack id).apply p).claimed z = none := by
    intro z hz
    obtain ⟨g, hg⟩ := hz.quiet
    exact ⟨nofun, hclaimed hg.free⟩
  exact
    { inv := h.inv
      stamps := h.stamps
      stamped := h.stamped
      free := fun hb => hclaimed (h.free hb)
      first := fun hz => h.first (of_update_none hz).2
      begun := h.begun
      done := fun {z} hpos hb => by
        obtain ⟨hone, hdone⟩ := h.done hpos hb
        exact ⟨hone, h.done_next hfits rfl rfl hother hb nofun (hclaimed (h.not_claimed hpos)) hdone⟩ }

theorem start (h : Once p) {id : FileId} (hfits : (Act.start id).Fits p) :
    Once ((Act.start id).apply p) := by
  obtain ⟨hheld, hnot⟩ := hfits
  have hzero : p.executions id = 0 := by
    rw [h.begun hheld, hnot]
    rfl
  have hfree : p.claimed id = none := h.free hheld
  have hexec : ∀ {z}, z ≠ id → ((Act.start id).apply p).executions z = p.executions z := fun hx =>
    Function.update_of_ne hx _ _
  have hother : ∀ z, Settled p z → ((Act.start id).event p).target ≠ some z ∧
      ((Act.start id).apply p).claimed z = none := by
    intro z hz
    obtain ⟨g, hg⟩ := hz.quiet
    exact ⟨nofun, hg.free⟩
  exact
    { inv := h.inv
      stamps := h.stamps
      stamped := h.stamped
      free := h.free
      first := fun {z} hz => by
        have hx : z ≠ id := by
          rintro rfl
          exact hz hfree
        rw [hexec hx]
        exact h.first hz
      begun := fun {z} hb => by
        by_cases hx : z = id
        · subst hx
          change Function.update p.executions z (p.executions z + 1) z =
            if Function.update p.started z true z = true then 1 else 0
          rw [Function.update_self, Function.update_self, hzero]
          rfl
        · rw [hexec hx, h.begun hb]
          change _ = if Function.update p.started id true z = true then 1 else 0
          rw [Function.update_of_ne hx]
      done := fun {z} hpos hb => by
        have hx : z ≠ id := by
          rintro rfl
          rw [show p.building z = none from hb] at hheld
          cases hheld
        rw [hexec hx] at hpos ⊢
        obtain ⟨hone, hdone⟩ := h.done hpos hb
        exact ⟨hone, h.done_next ⟨hheld, hnot⟩ rfl rfl hother hb nofun (h.not_claimed hpos)
          hdone⟩ }

theorem attempt (h : Once p) {q : Cache.Request} (hfits : (Act.attempt q).Fits p)
    (hcons : (Act.attempt q).Considerate p) : Once ((Act.attempt q).apply p) := by
  have hevent : (Event.attempt q).Fits p.toProject := hfits.2
  have hzero : p.executions q.sf.id = 0 := h.first (by simp [hfits.1])
  have hclaimed : ∀ {z}, p.claimed z = none → ((Act.attempt q).apply p).claimed z = none :=
    update_none
  have hheld : ∀ {z}, z ≠ q.sf.id → ((((Act.attempt q).apply p).building z).isSome = true ↔
      (p.building z).isSome = true) := by
    intro z hx
    refine (building_iff hevent).trans ⟨?_, fun hb => .inr ⟨hb, nofun⟩⟩
    rintro (⟨q', hq', hid⟩ | ⟨hb, -⟩)
    · obtain ⟨heq, -⟩ := starts_eq hq'
      cases heq
      exact absurd hid.symm hx
    · exact hb
  have hother : ∀ z, Settled p z → ((Act.attempt q).event p).target ≠ some z ∧
      ((Act.attempt q).apply p).claimed z = none := by
    intro z hz
    obtain ⟨g, hg⟩ := hz.quiet
    refine ⟨fun htarget => ?_, hclaimed hg.free⟩
    have hid : q.sf.id = z := Option.some.inj htarget
    have hfree := hg.free
    rw [← hid, hfits.1] at hfree
    cases hfree
  have hdisk : ((Act.attempt q).apply p).disk = p.disk := apply_disk rfl
  exact
    { inv := h.inv_next hfits hcons
      stamps := by
        rw [hdisk]
        exact h.stamps
      stamped := h.stamped_next hfits
      free := fun {z} hb => by
        by_cases hx : z = q.sf.id
        · subst hx
          exact Function.update_self _ _ _
        · exact hclaimed (h.free ((hheld hx).mp hb))
      first := fun hz => h.first (of_update_none hz).2
      begun := fun {z} hb => by
        change p.executions z = if Function.update p.started q.sf.id false z = true then 1 else 0
        by_cases hx : z = q.sf.id
        · subst hx
          rw [hzero, Function.update_self]
          rfl
        · rw [Function.update_of_ne hx]
          exact h.begun ((hheld hx).mp hb)
      done := fun {z} hpos hb => by
        have hx : z ≠ q.sf.id := by
          rintro rfl
          exact absurd hzero (Nat.pos_iff_ne_zero.mp hpos)
        have hidle : p.building z = none := by
          rw [← Option.not_isSome_iff_eq_none, ← hheld hx, hb]
          exact Bool.false_ne_true
        obtain ⟨hone, hdone⟩ := h.done hpos hidle
        exact ⟨hone, h.done_next hfits (apply_R nofun) hdisk hother hidle
          (fun htarget => hx (Option.some.inj htarget).symm) (hclaimed (h.not_claimed hpos)) hdone⟩ }

theorem newRun (h : Once p) {R : RunId} (hfits : (Act.newRun R).Fits p) :
    Once ((Act.newRun R).apply p) where
  inv := h.inv_next hfits trivial
  stamps := h.stamps
  stamped := h.stamped
  free := h.free
  first _ := rfl
  begun {z} hb := by
    rw [show ((Act.newRun R).apply p).building z = none from hfits.1.1 z] at hb
    cases hb
  done hpos := absurd hpos (lt_irrefl 0)

theorem edit (h : Once p) {disk : Disk} (hfits : (Act.other (.edit disk)).Fits p)
    (hcons : (Act.other (.edit disk)).Considerate p) :
    Once ((Act.other (.edit disk)).apply p) where
  inv := h.inv_next hfits hcons
  stamps := hfits.2
  stamped := h.stamped
  free := h.free
  first := h.first
  begun := h.begun
  done {z} hpos hb := by
    obtain ⟨hone, hdone⟩ := h.done hpos hb
    exact ⟨hone, hdone.imp_right (hcons.2 z hpos)⟩

/-- An event that changes no files. A build that ends so has not started its recipe. -/
theorem other (h : Once p) (hfits : (Act.other e).Fits p) (hcons : (Act.other e).Considerate p)
    (hfiles : e.movesFiles = false) : Once ((Act.other e).apply p) := by
  have hevent : e.Fits p.toProject := hfits.1
  have horder : e.InOrder p := hfits.2
  have hrun : ∀ R, e ≠ .newRun R := by
    rintro R rfl
    exact horder
  have hattempt : ∀ q, e ≠ .attempt q := by
    rintro q rfl
    exact horder
  have hdisk : ((Act.other e).apply p).disk = p.disk := apply_disk hfiles
  have hheld : ∀ {z}, (((Act.other e).apply p).building z).isSome = true ↔
      (p.building z).isSome = true ∧ e.releases ≠ some z := by
    intro z
    refine (building_iff hevent).trans ⟨?_, .inr⟩
    rintro (⟨q, hq, -⟩ | hb)
    · exact absurd (starts_eq hq).1 (hattempt q)
    · exact hb
  have htarget : ∀ {z}, p.building z = none → e.target ≠ some z := by
    intro z hz ht
    have hsome := hevent.held_target hattempt ht
    rw [hz] at hsome
    cases hsome
  have hother : ∀ z, Settled p z → ((Act.other e).event p).target ≠ some z ∧
      ((Act.other e).apply p).claimed z = none := by
    intro z hz
    obtain ⟨g, hg⟩ := hz.quiet
    exact ⟨htarget hg.idle, hg.free⟩
  have hreleased : ∀ {z}, e.releases = some z → p.started z = false := by
    intro z hz
    cases e with
    | finish => cases hfiles
    | cacheHit id | giveUp id =>
      cases hz
      exact horder
    | die id =>
      cases hz
      exact hcons.2
    | _ => cases hz
  exact
    { inv := h.inv_next hfits hcons
      stamps := by
        rw [hdisk]
        exact h.stamps
      stamped := h.stamped_next hfits
      free := fun hb => h.free (hheld.mp hb).1
      first := h.first
      begun := fun hb => h.begun (hheld.mp hb).1
      done := fun {z} hpos hb => by
        have hidle : p.building z = none := by
          by_contra hz
          have hsome := Option.isSome_iff_ne_none.mpr hz
          have hreleases : e.releases = some z := by
            by_contra hr
            have hstill := hheld.mpr ⟨hsome, hr⟩
            rw [hb] at hstill
            cases hstill
          have hzero := h.begun hsome
          rw [hreleased hreleases] at hzero
          exact absurd hzero (Nat.pos_iff_ne_zero.mp hpos)
        obtain ⟨hone, hdone⟩ := h.done hpos hidle
        exact ⟨hone, h.done_next hfits (apply_R hrun) hdisk hother hidle (htarget hidle)
          (h.not_claimed hpos) hdone⟩ }

end Once

section Finish
variable {i : Input} {scheduled : Bool} {disk : Disk}

/-- What is settled with the new files is settled after the completion. -/
theorem Settled.finish (hx : Settled { p with disk } x)
    (hfits : (Act.other (.finish i scheduled disk)).Fits p) (htidy : Tidy p.toProject) :
    Settled ((Act.other (.finish i scheduled disk)).apply p) x := by
  have hevent : (Event.finish i scheduled disk).Fits p.toProject := hfits.1
  have hne : ∀ {z f}, Quiet { p with disk } z f → z ≠ i.sf.id := by
    rintro z f hquiet rfl
    have hidle : p.building i.sf.id = none := hquiet.idle
    rw [hevent.1] at hidle
    cases hidle
  refine hx.kept rfl rfl (fun y r hr => ?_) (fun z f hz hquiet => ?_) fun z hz => ?_
  · exact hevent.row_name htidy hr
  · refine ⟨f, ⟨?_, ?_, hquiet.free, hquiet.notFailed, hquiet.changed, hquiet.notAfter, hquiet.stamp⟩,
      rfl, .inl rfl, id⟩
    · have hrow := hquiet.row
      rw [Db.byId] at hrow ⊢
      rw [← hrow]
      exact congrArg _ (lookup_outcome (s := p.toProject) hevent (hne hquiet))
    · exact (Function.update_of_ne (hne hquiet) _ _).trans hquiet.idle
  · obtain ⟨f, hquiet⟩ := hz.quiet
    exact hevent.sameDeps htidy.ids (fun hs => hne hquiet (Option.some.inj hs).symm)
      fun hd => by cases hd

theorem le_of_isChecked {R : RunId} (h : f.isChecked R = true) : R ≤ f.checkedRunid.getD 0 := by
  rw [File.isChecked] at h
  cases hc : f.checkedRunid with
  | none => simp [hc] at h
  | some k => simpa [hc] using h

namespace Once

/-- A recipe that has ended with code 0 leaves its target settled. -/
theorem finish_settled (h : Once p) (hfits : (Act.other (.finish i scheduled disk)).Fits p)
    (hcons : (Act.other (.finish i scheduled disk)).Considerate p)
    (hcode : (outcome i scheduled).ended = .code 0) :
    Settled ((Act.other (.finish i scheduled disk)).apply p) i.sf.id := by
  have hevent : (Event.finish i scheduled disk).Fits p.toProject := hfits.1
  have hinv := h.inv_next hfits hcons
  have hheld := h.inv.held hevent.1
  obtain ⟨r₀, hr₀, -⟩ := hheld.row
  obtain ⟨r, hr, hname⟩ := hevent.row_name h.inv.tidy hr₀
  have hrow := hinv.rows hr
  have hne : r.name ≠ ALWAYS := fun hA => hheld.notAlways (hrow.name.mp hA)
  have hbuilt := hrow.rebuilt ((Function.update_self _ _ _).trans (decide_eq_true hcode))
  have hquiet : Quiet ((Act.other (.finish i scheduled disk)).apply p) i.sf.id r := by
    refine ⟨?_, Function.update_self _ _ _, h.free (by rw [hevent.1]; rfl), hbuilt.notFailed,
      hbuilt.changed, hrow.changed, hbuilt.stamp⟩
    rw [Db.byId, show ((Act.other (.finish i scheduled disk)).apply p).db.lookup i.sf.id = some r
      from hr, Option.map_some, File.fromRow_of_ne _ _ hne]
  have hseen : p.R ≤ r.lastSeen := by
    rcases hbuilt.mark with hc | hc
    · exact (le_of_isChecked hc).trans (le_max_right _ _)
    · exact (le_of_isChanged hc).trans (le_max_left _ _)
  obtain ⟨db, r', hbase, -, hsaved⟩ := outcome_commits hevent.2.2.2.1
  have hkept : ∀ d ∈ ((Act.other (.finish i scheduled disk)).apply p).db.deps,
      d.target = i.sf.id → d ∈ db.deps ∧ d.deleteMe = false := by
    intro d hd ht
    have hmem : d ∈ ((db.zapDeps2 i.sf.id).save r').deps := by
      rw [← hsaved]
      exact hd
    simpa [Db.zapDeps2, ht] using hmem
  have hdeps := hcons.2.2 hcode db hbase
  have hsettled : ∀ d ∈ ((Act.other (.finish i scheduled disk)).apply p).db.deps,
      d.target = i.sf.id → d.mode = 'm' →
        Settled ((Act.other (.finish i scheduled disk)).apply p) d.source := by
    intro d hd ht hm
    obtain ⟨hmem, hdelete⟩ := hkept d hd ht
    exact ((hdeps d hmem ht hdelete).1 hm).finish hfits h.inv.tidy
  refine .walked hquiet (fun _ d hd ht hm => ?_) (fun _ d hd ht hm g hg => ?_)
    fun _ d hd ht hm => hsettled d hd ht hm
  · obtain ⟨hmem, hdelete⟩ := hkept d hd ht
    obtain ⟨r₁, hr₁, hpath⟩ := (hdeps d hmem ht hdelete).2 hm
    obtain ⟨r₂, hr₂, hname₂⟩ := hevent.row_name h.inv.tidy hr₁
    refine ⟨r₂, hr₂, ?_⟩
    rw [hname₂]
    exact hpath
  · obtain ⟨g', hg'⟩ := (hsettled d hd ht hm).quiet
    have hsame := hg'.row
    rw [hg] at hsame
    cases hsame
    exact hg'.notAfter.trans hseen

/-- One that has not leaves it failed. -/
theorem finish_failed (h : Once p) (hfits : (Act.other (.finish i scheduled disk)).Fits p)
    (hcode : (outcome i scheduled).ended ≠ .code 0) :
    HasFailed ((Act.other (.finish i scheduled disk)).apply p) i.sf.id := by
  have hevent : (Event.finish i scheduled disk).Fits p.toProject := hfits.1
  obtain ⟨hheld, hR, hdb, hend, -⟩ := hevent
  obtain ⟨r₀, hr₀, -⟩ := (h.inv.held hheld).row
  obtain ⟨db, r, hbase, hw, hsaved⟩ := outcome_commits hend
  have hlookup : (db.zapDeps2 i.sf.id).lookup i.sf.id = some r₀ := by
    rw [← hr₀, ← hdb]
    exact hbase.lookup i.sf.id
  refine ⟨{ r with name := r₀.name }, ?_, ?_⟩
  · change (outcome i scheduled).db.lookup i.sf.id = _
    rw [hsaved]
    exact Db.lookup_save_self hw.id_eq hlookup
  · cases hw with
    | built hzero => exact absurd hzero hcode
    | failed =>
      simp only [File.isFailed, File.setFailed, hR, Option.any_some, decide_eq_true_eq]
      exact le_refl p.R

theorem finish (h : Once p) (hfits : (Act.other (.finish i scheduled disk)).Fits p)
    (hcons : (Act.other (.finish i scheduled disk)).Considerate p) :
    Once ((Act.other (.finish i scheduled disk)).apply p) := by
  have hevent : (Event.finish i scheduled disk).Fits p.toProject := hfits.1
  have hstill : ∀ {z}, (((Act.other (.finish i scheduled disk)).apply p).building z).isSome = true →
      (p.building z).isSome = true := by
    intro z hb
    rcases (building_iff hevent).mp hb with ⟨q, hq, -⟩ | ⟨hheld, -⟩
    · cases (starts_eq hq).1
    · exact hheld
  exact
    { inv := h.inv_next hfits hcons
      stamps := hfits.2.2
      stamped := h.stamped_next hfits
      free := fun hb => h.free (hstill hb)
      first := h.first
      begun := fun hb => h.begun (hstill hb)
      done := fun {z} hpos hb => by
        by_cases hx : z = i.sf.id
        · subst hx
          have hone := h.begun (by rw [hevent.1]; rfl : (p.building i.sf.id).isSome = true)
          rw [show p.started i.sf.id = true from hfits.2.1] at hone
          refine ⟨hone, ?_⟩
          by_cases hcode : (outcome i scheduled).ended = .code 0
          · exact .inr (h.finish_settled hfits hcons hcode)
          · exact .inl (h.finish_failed hfits hcode)
        · have hidle : p.building z = none := (Function.update_of_ne hx _ _).symm.trans hb
          obtain ⟨hone, ⟨r, hr, hfailed⟩ | hsettled⟩ := h.done hpos hidle
          · exact ⟨hone, .inl ⟨r, (lookup_outcome hevent hx).trans hr, hfailed⟩⟩
          · exact ⟨hone, .inr ((hcons.2.1 z hpos hsettled).finish hfits h.inv.tidy)⟩ }

theorem step (h : Once p) (hfits : a.Fits p) (hcons : a.Considerate p) : Once (a.apply p) := by
  cases a with
  | enter entry oob f => exact h.enter hfits hcons
  | giveBack id => exact h.giveBack hfits
  | attempt q => exact h.attempt hfits hcons
  | start id => exact h.start hfits
  | newRun R => exact h.newRun hfits
  | other e =>
    cases hfiles : e.movesFiles with
    | false => exact h.other hfits hcons hfiles
    | true =>
      cases e with
      | edit disk => exact h.edit hfits hcons
      | finish i scheduled disk => exact h.finish hfits hcons
      | _ => cases hfiles

end Once

end Finish

theorem Work.Begun.once (h : p.Begun) : Once p where
  inv := h.inv h.absent
  stamps := h.stamps
  stamped {x f} hf hstamp := by
    rcases hf with hf | hf
    · rw [h.db] at hf
      by_cases hx : x = ALWAYS_ID
      · subst hx
        cases hf
        cases hstamp
      · simp [Db.lookup, Ne.symm hx] at hf
    · rw [h.building] at hf
      cases hf
  free _ := by rw [h.claimed]
  first _ := by rw [h.executions]
  begun hb := by
    rw [h.building] at hb
    cases hb
  done hpos := by
    rw [h.executions] at hpos
    cases hpos

section Again
/-! The recipe of `f` is run by `f.do`, as before. -/

namespace Work

def empty : Work := { toProject := emptyProject }

def heard : Work := (Act.other (.insert 3 "f")).apply ((Act.other (.insert 2 "f.do")).apply empty)

variable (p : Work)

def enterF : Act := .enter .firstPass true (rowOf p.toProject 3 "f")

/-- `redo-ifchange f` comes to `f`. -/
def decided : Work := p.enterF.apply p

def attemptF : Act :=
  .attempt
    { R := p.R
      sf := rowOf p.toProject 3 "f"
      candidates := [rowOf p.toProject 2 "f.do"]
      poolFree := true }

def attempted : Work := p.decided.attemptF.apply p.decided

/-- The recipe is started. -/
def running : Work := (Act.start 3).apply p.attempted

def ending (rv : ℤ) (tmp : Option Node) (stamp : Stamp)
    (hrow : (p.db.lookup (builderRow p.toProject).id).isSome) : Act :=
  .other (.finish (endOfF p.toProject rv tmp hrow) true (diskWith stamp))

/-- The recipe has failed. -/
def failedOnce : Work :=
  (heard.running.ending 1 none STAMP_MISSING (by decide)).apply heard.running

/-- The recipe has got through. -/
def builtOnce : Work :=
  (heard.running.ending 0 (some { mtime := 9 }) "9.0-1" (by decide)).apply heard.running

theorem diskWith_stamps {stamp : Stamp} (hstamp : stamp ≠ "") (name : String) :
    (diskWith stamp).readStamp name ≠ "" := by
  rw [diskWith]
  simp only
  split_ifs
  · exact hstamp
  · decide
  · decide

theorem empty_begun : empty.Begun where
  toStarted := emptyProject_started
  claimed := rfl
  started := rfl
  executions := rfl
  stamps := diskWith_stamps (by decide)
  absent := rfl

variable {p}

theorem insert_step {id : FileId} {name : String} (h : ∀ r ∈ p.db.files, r.id ≠ id ∧ r.name ≠ name) :
    ConsiderateStep p ((Act.other (.insert id name)).apply p) :=
  ⟨.other (.insert id name), ⟨h, trivial⟩, ⟨trivial, trivial⟩, rfl⟩

theorem running_run : Relation.ReflTransGen ConsiderateStep empty heard.running := by
  have hrule : ConsiderateStep empty ((Act.other (.insert 2 "f.do")).apply empty) :=
    insert_step (by decide)
  have hf : ConsiderateStep ((Act.other (.insert 2 "f.do")).apply empty) heard :=
    insert_step (by decide)
  have henter : heard.enterF.Fits heard := by
    rw [enterF, Act.Fits]
    decide
  have hasks : heard.enterF.Considerate heard := by
    rw [enterF, Act.Considerate]
    decide
  have hattempt : heard.decided.attemptF.Fits heard.decided := by
    rw [attemptF, Act.Fits, Event.Fits]
    decide
  have hplain : heard.decided.attemptF.Considerate heard.decided := by
    rw [attemptF, Act.Considerate, Event.Plain]
    decide
  have hstart : (Act.start 3).Fits heard.attempted := by
    rw [Act.Fits]
    decide
  exact ((((Relation.ReflTransGen.single hrule).tail hf).tail ⟨_, henter, hasks, rfl⟩).tail
    ⟨_, hattempt, hplain, rfl⟩).tail ⟨_, hstart, trivial, rfl⟩

theorem running_rebuilt {x : FileId} (hx : x ≠ 3) : heard.running.rebuilt x = false :=
  (Function.update_of_ne hx _ _).trans rfl

theorem running_executions {x : FileId} (hx : 0 < heard.running.executions x) : x = 3 := by
  by_contra hne
  have hzero : heard.running.executions x = 0 := (Function.update_of_ne hne _ _).trans rfl
  rw [hzero] at hx
  exact lt_irrefl 0 hx

theorem failedOnce_step : WorkStep heard.running failedOnce := by
  have hfits : (Act.other (.finish (endOfF heard.running.toProject 1 none (by decide)) true
      (diskWith STAMP_MISSING))).Fits heard.running :=
    ⟨by rw [Event.Fits]; decide, by decide, diskWith_stamps (by decide)⟩
  exact ⟨_, hfits, rfl⟩

/-- A second `redo-ifchange f` in the run starts the recipe again. -/
theorem failedOnce_running : Relation.ReflTransGen WorkStep failedOnce failedOnce.running := by
  have henter : failedOnce.enterF.Fits failedOnce := by
    rw [enterF, Act.Fits]
    decide
  have hattempt : failedOnce.decided.attemptF.Fits failedOnce.decided := by
    rw [attemptF, Act.Fits, Event.Fits]
    decide
  have hstart : (Act.start 3).Fits failedOnce.attempted := by
    rw [Act.Fits]
    decide
  exact ((Relation.ReflTransGen.single ⟨_, henter, rfl⟩).tail ⟨_, hattempt, rfl⟩).tail
    ⟨_, hstart, rfl⟩

theorem builtOnce_step : ConsiderateStep heard.running builtOnce := by
  have hkeeps : KeepsSettled heard.running (diskWith "9.0-1") := by
    intro x hx hsettled
    obtain rfl := running_executions hx
    obtain ⟨f, hf⟩ := hsettled.quiet
    cases hf.idle
  have hclean : (heard.running.db.lookup 3).all (·.failedRunid = none) = true := by decide
  have hfits : (Act.other (.finish (endOfF heard.running.toProject 0 (some { mtime := 9 })
      (by decide)) true (diskWith "9.0-1"))).Fits heard.running :=
    ⟨by rw [Event.Fits]; decide, by decide, diskWith_stamps (by decide)⟩
  refine ⟨_, hfits, ⟨⟨rfl, keepsRebuilt_of_none (fun x hx => running_rebuilt hx) _, trivial,
    fun _ r hr => ?_⟩, hkeeps, fun _ db hbase d hd ht hdelete => ?_⟩, rfl⟩
  · rw [show heard.running.db.lookup 3 = some r from hr] at hclean
    exact Or.inl (by simpa using hclean)
  · have hdeps : db.deps = [{ target := 3, source := 2, mode := 'm' }] := by
      cases hbase <;> decide
    rw [hdeps] at hd
    obtain rfl := List.mem_singleton.mp hd
    refine ⟨fun _ => ?_, fun hm => absurd hm (by decide)⟩
    exact .of_source (f := rowOf heard.running.toProject 2 "f.do")
      ⟨by decide, rfl, rfl, by decide, by decide, by decide, by decide⟩ (by rw [HasDeps]; decide)

end Work

theorem ConsiderateStep.step (h : ConsiderateStep p p') : WorkStep p p' := by
  obtain ⟨a, hfits, -, hp⟩ := h
  exact ⟨a, hfits, hp⟩

end Again
end Redo.Runs
