import Redo.Runs.Waiting

/-! # Attempts to build

An attempt ends with a row saved, or with the recipe about to start and the dependencies of the
last build marked for deletion.
-/
namespace Redo.Cache.Request
open State Override

variable {q : Request} {w w' : World} {calls : Calls} {o : Outcome}

@[simp] theorem target_id : (q.target w).id = q.sf.id := persistNewTargetIntent_id _ _

@[simp] theorem target_name : (q.target w).name = q.sf.name := by
  unfold target persistNewTargetIntent
  split <;> rfl

/-- What an attempt leaves in the tables. -/
inductive Ends (q : Request) (w : World) : Outcome → Db → Prop where
  | skipped : Ends q w .accepted w.db
  | kept {f : File} (hf : f = q.sf.setOverride q.R (w.disk.readStamp q.sf.name) ∨
      f = q.sf.setStatic q.R (w.disk.readStamp q.sf.name)) : Ends q w .accepted (w.db.save f)
  | unruled {o : Outcome} {f : File} (ho : o ≠ .recipe)
      (hf : f = (q.target w).setStatic q.R (w.disk.readStamp q.sf.name) ∨
        f = (q.target w).setFailed q.R (w.disk.readStamp q.sf.name)) :
      Ends q w o ((q.prepare w).2.db.save f)
  | recipe : Ends q w .recipe (q.prepare w).2.db

theorem scheduleBuildOne_ends (hpool : q.poolFree = true)
    (h : q.scheduleBuildOne false calls w = some (o, w')) : Ends q w o w'.db := by
  unfold scheduleBuildOne at h
  by_cases hover : overridden (w.disk.readStamp q.sf.name) q.sf = true
  · simp only [hover, if_true, Option.some.injEq, Prod.mk.injEq] at h
    obtain ⟨rfl, rfl⟩ := h
    by_cases hov : q.sf.isOverride = true
    · rw [if_pos hov]
      exact .skipped
    · rw [if_neg hov]
      exact .kept (Or.inl rfl)
  by_cases hstatic : (w.disk.pathExists q.sf.name && !q.sf.isGenerated) = true
  · simp only [hover, hstatic, if_true, if_false, Bool.false_eq_true, Option.some.injEq,
      Prod.mk.injEq] at h
    obtain ⟨rfl, rfl⟩ := h
    exact .kept (Or.inr rfl)
  simp only [hover, hstatic, hpool, Bool.not_true, Bool.and_false, Bool.false_and, if_false,
    Bool.false_eq_true] at h
  cases hfound : (q.prepare w).1 with
  | true =>
    simp only [hfound, Bool.not_true, Bool.false_eq_true, if_false, Option.some.injEq,
      Prod.mk.injEq] at h
    obtain ⟨rfl, rfl⟩ := h
    exact .recipe
  | false =>
    simp only [hfound, Bool.not_false, if_true] at h
    split_ifs at h
    · cases h
      exact .unruled (by decide) (Or.inl rfl)
    · cases h
      exact .unruled (by decide) (Or.inr rfl)

end Redo.Cache.Request

namespace Redo.Runs
open State Dirtiness Override Completion

variable {c : Context} {db : Db} {x : FileId} {f : File}

/-- The target has no build to be proud of, until the attempt has come to something. -/
def Context.attempting (c : Context) (x : FileId) : Context :=
  { c with
    calledAlways := Function.update c.calledAlways x false
    rebuilt := Function.update c.rebuilt x false }

theorem of_update_false {p : FileId → Bool} {x y : FileId}
    (h : Function.update p x false y = true) : y ≠ x ∧ p y = true := by
  by_cases hy : y = x
  · subst hy
    simp at h
  · exact ⟨hy, by rwa [Function.update_of_ne hy] at h⟩

theorem update_false {p : FileId → Bool} {x y : FileId} (h : p y = false) :
    Function.update p x false y = false := by
  by_cases hy : y = x
  · subst hy
    simp
  · rwa [Function.update_of_ne hy]

namespace Inv

/-- Less is claimed of the last build of one target. -/
theorem forget (h : Inv c db) (x : FileId) :
    Inv { c with rebuilt := Function.update c.rebuilt x false } db :=
  { h with
    rows := fun hr =>
      have hrow := h.rows hr
      ⟨⟨hrow.changed, hrow.checked, hrow.known, hrow.first⟩, hrow.name, hrow.always, hrow.pending,
        fun hb => hrow.rebuilt (of_update_false hb).2⟩
    held := fun hb =>
      have hheld := h.held hb
      ⟨⟨hheld.changed, hheld.checked, hheld.known, hheld.first⟩, hheld.id, hheld.notAlways,
        hheld.row, update_false hheld.notRebuilt⟩
    known := fun hb => h.known (of_update_false hb).2 }

theorem attempting (h : Inv c db) (x : FileId) : Inv (c.attempting x) db :=
  { h.forget x with
    rows := fun hr =>
      have hrow := (h.forget x).rows hr
      ⟨⟨hrow.changed, hrow.checked, hrow.known, hrow.first⟩, hrow.name, hrow.always,
        fun hc => hrow.pending (of_update_false hc).2, hrow.rebuilt⟩
    held := fun hb =>
      have hheld := (h.forget x).held hb
      ⟨⟨hheld.changed, hheld.checked, hheld.known, hheld.first⟩, hheld.id, hheld.notAlways,
        hheld.row, hheld.notRebuilt⟩
    declared := fun hc => h.declared (of_update_false hc).2 }

/-- The row of a target that has called `redo-always` in an earlier run. -/
def Owes (c : Context) (x : FileId) (r : File) : Prop :=
  c.recorded x < c.R → r.isGenerated = true → r.isOverride = false →
    r.failedRunid.isSome = true ∨ r.lastSeen < c.R

/-- The call of `redo-always` in the last build counts again. -/
theorem recount (h : Inv (c.attempting x) db) {called : Bool}
    (hcalled : called = true → Declares db x (fun _ => True) ∧
      ∀ r, db.lookup x = some r → Owes c x r) :
    Inv { c with
      calledAlways := Function.update c.calledAlways x called
      rebuilt := Function.update c.rebuilt x false } db :=
  { h with
    rows := fun {y r} hr =>
      have hold := h.rows hr
      { changed := hold.changed
        checked := hold.checked
        known := hold.known
        first := hold.first
        name := hold.name
        always := hold.always
        rebuilt := hold.rebuilt
        pending := fun hc hb hgen hov => by
          by_cases hy : y = x
          · subst hy
            exact (hcalled (by simpa using hc)).2 r hr hb hgen hov
          · refine hold.pending ?_ hb hgen hov
            simpa [Context.attempting, Function.update_of_ne hy] using hc }
    held := fun hb =>
      have hheld := h.held hb
      ⟨⟨hheld.changed, hheld.checked, hheld.known, hheld.first⟩, hheld.id, hheld.notAlways,
        hheld.row, hheld.notRebuilt⟩
    declared := fun {y} hc => by
      by_cases hy : y = x
      · subst hy
        exact (hcalled (by simpa using hc)).1
      · refine h.declared ?_
        simpa [Context.attempting, Function.update_of_ne hy] using hc }

/-- The builder takes the target. -/
theorem hold {sf : File} (h : Inv c db) (hne : sf.id ≠ ALWAYS_ID) (hmarks : Marks c sf.id sf)
    (hrow : ∃ r, db.lookup sf.id = some r ∧ r.name = sf.name)
    (hrebuilt : c.rebuilt sf.id = false) :
    Inv { c with building := Function.update c.building sf.id (some sf) } db :=
  { h with
    rows := fun hr =>
      have hold := h.rows hr
      ⟨⟨hold.changed, hold.checked, hold.known, hold.first⟩, hold.name, hold.always, hold.pending,
        hold.rebuilt⟩
    held := fun {y g} hb => by
      by_cases hy : y = sf.id
      · subst hy
        obtain rfl : sf = g := by simpa using hb
        exact ⟨⟨hmarks.changed, hmarks.checked, hmarks.known, hmarks.first⟩, rfl, hne, hrow,
          hrebuilt⟩
      · have hother : c.building y = some g := by simpa [Function.update_of_ne hy] using hb
        have hheld := h.held hother
        exact ⟨⟨hheld.changed, hheld.checked, hheld.known, hheld.first⟩, hheld.id, hheld.notAlways,
          hheld.row, hheld.notRebuilt⟩
    idle := fun {y} hb => by
      by_cases hy : y = sf.id
      · subst hy
        simp at hb
      · exact h.idle (by simpa [Function.update_of_ne hy] using hb) }

/-- The rows that an attempt starts from. -/
structure Reads (c : Context) (db : Db) (q : Cache.Request) : Prop where
  R : q.R = c.R
  sf : db.byId c.R q.sf.id = some q.sf
  name : q.sf.name ≠ ALWAYS
  idle : c.building q.sf.id = none
  candidates : ∀ cand ∈ q.candidates, db.byId c.R cand.id = some cand ∧ cand.name ≠ ALWAYS

end Inv

theorem Named.findDo {disk : Disk} {R : RunId} {sf : File} {candidates : List File}
    (h : Named db f) : Named (Cache.findDo disk R sf candidates db).2 f := by
  induction candidates generalizing db with
  | nil => exact h
  | cons cand rest ih =>
    have hadd : ∀ mode, Named (db.addDep sf.id mode cand.id) f := fun _ => h
    rw [Cache.findDo]
    split
    · exact (hadd 'm').save _
    · exact ih (hadd 'c')

theorem Named.prepare (q : Cache.Request) (w : Cache.World) (h : Named w.db f) :
    Named (q.prepare w).2.db f := by
  have hsave : Named (if w.disk.pathExists q.sf.name || q.sf.isGenerated then w.db
      else w.db.save (q.target w)) f := by
    split
    · exact h
    · exact h.save _
  have hzapped : Named (Db.zapDeps1 _ q.sf.id) f := hsave
  exact hzapped.findDo

theorem isSome_save (db : Db) (f : File) (x : FileId) :
    ((db.save f).lookup x).isSome = (db.lookup x).isSome := by
  rw [Db.lookup_save]
  split <;> simp

theorem isSome_findDo (disk : Disk) (R : RunId) (sf : File) (candidates : List File) (db : Db)
    (x : FileId) :
    ((Cache.findDo disk R sf candidates db).2.lookup x).isSome = (db.lookup x).isSome := by
  induction candidates generalizing db with
  | nil => rfl
  | cons cand rest ih =>
    rw [Cache.findDo]
    split
    · exact isSome_save _ _ x
    · exact ih (db.addDep sf.id 'c' cand.id)

theorem isSome_prepare (q : Cache.Request) (w : Cache.World) (x : FileId) :
    ((q.prepare w).2.db.lookup x).isSome = (w.db.lookup x).isSome := by
  refine (isSome_findDo _ _ _ _ (Db.zapDeps1 _ q.sf.id) x).trans ?_
  change ((if w.disk.pathExists q.sf.name || q.sf.isGenerated then w.db
    else w.db.save (q.target w)).lookup x).isSome = _
  split
  · rfl
  · exact isSome_save _ _ x

/-- The search for a `.do` file changes the rows of the candidates only. -/
theorem lookup_findDo {disk : Disk} {R : RunId} {sf : File} {candidates : List File} {r : File}
    (hr : (Cache.findDo disk R sf candidates db).2.lookup x = some r) :
    db.lookup x = some r ∨ r.isGenerated = false := by
  induction candidates generalizing db with
  | nil => exact Or.inl hr
  | cons cand rest ih =>
    rw [Cache.findDo] at hr
    split at hr
    · rw [Db.lookup_save] at hr
      split at hr
      · obtain ⟨r', -, rfl⟩ := Option.map_eq_some_iff.mp hr
        exact Or.inr rfl
      · exact Or.inl hr
    · have hrest := ih hr
      exact hrest

theorem lookup_prepare {q : Cache.Request} {w : Cache.World} {r : File}
    (hold : (w.disk.pathExists q.sf.name || q.sf.isGenerated) = true)
    (hr : (q.prepare w).2.db.lookup x = some r) :
    w.db.lookup x = some r ∨ r.isGenerated = false := by
  unfold Cache.Request.prepare at hr
  simp only [hold, if_true] at hr
  have hfound := lookup_findDo hr
  exact hfound

namespace Inv
variable {q : Cache.Request}

theorem Reads.ne (h : Inv c db) (hq : Reads c db q) : q.sf.id ≠ ALWAYS_ID :=
  fun hA => hq.name ((h.byId hq.sf).name.mpr hA)

theorem Reads.target_marks (h : Inv c db) (hq : Reads c db q) :
    Marks c q.sf.id (q.target ⟨db, c.disk⟩) :=
  (h.byId hq.sf).toMarks.persist _

theorem Reads.target_named (hq : Reads c db q) : Named db (q.target ⟨db, c.disk⟩) := by
  intro r hr
  rw [Cache.Request.target_id] at hr
  rw [Cache.Request.target_name]
  exact Named.of_byId hq.sf r hr

theorem prepare (h : Inv (c.attempting q.sf.id) db) (hq : Reads c db q) :
    Inv (c.attempting q.sf.id) (q.prepare ⟨db, c.disk⟩).2.db := by
  have hne : q.sf.id ≠ ALWAYS_ID := fun hA => hq.name ((h.byId hq.sf).name.mpr hA)
  have hmarks : Marks (c.attempting q.sf.id) q.sf.id (q.target ⟨db, c.disk⟩) :=
    (h.byId hq.sf).toMarks.persist _
  have hrow : RowInv (c.attempting q.sf.id) q.sf.id (q.target ⟨db, c.disk⟩) := by
    refine .of_marks hmarks (by simpa using hq.name) hne (fun hc => ?_) (Function.update_self _ _ _)
    exact absurd rfl (of_update_false hc).1
  have hcand : ∀ cand ∈ q.candidates, RowInv (c.attempting q.sf.id) cand.id cand ∧
      Named db cand ∧ cand.name ≠ ALWAYS := fun cand hmem =>
    have hread := hq.candidates cand hmem
    ⟨h.byId hread.1, Named.of_byId hread.1, hread.2⟩
  unfold Cache.Request.prepare
  rw [hq.R]
  simp only
  split
  · exact (h.zapDeps1 hq.idle).findDo hcand
  · have hsaved : Inv (c.attempting q.sf.id) (db.save (q.target ⟨db, c.disk⟩)) := by
      refine h.save hq.target_named ?_ ?_
      · rw [Cache.Request.target_id]
        exact hrow
      · rw [Cache.Request.target_id]
        exact fun hA => absurd hA hne
    exact (hsaved.zapDeps1 hq.idle).findDo fun cand hmem =>
      ⟨(hcand cand hmem).1, (hcand cand hmem).2.1.save _, (hcand cand hmem).2.2⟩

theorem prepare_declares (h : Inv c db) (hq : Reads c db q) (hc : c.calledAlways x = true) :
    Declares (q.prepare ⟨db, c.disk⟩).2.db x fun _ => True := by
  have hcand : ∀ cand ∈ q.candidates, cand.id ≠ ALWAYS_ID := by
    intro cand hmem hA
    obtain ⟨hread, hne⟩ := hq.candidates cand hmem
    exact hne ((h.byId hread).name.mpr hA)
  have hdecl : Declares db x fun _ => True := by
    obtain ⟨d, hd, ht, hs, hm, -⟩ := h.declared hc
    exact ⟨d, hd, ht, hs, hm, trivial⟩
  unfold Cache.Request.prepare
  simp only
  split
  · exact (hdecl.zapDeps1 _ (fun _ _ _ => trivial) fun _ _ => trivial).findDo hcand
  · have hsaved : Declares (db.save (q.target ⟨db, c.disk⟩)) x fun _ => True := hdecl
    exact (hsaved.zapDeps1 _ (fun _ _ _ => trivial) fun _ _ => trivial).findDo hcand

/-- The row that a refused attempt saves. -/
theorem save_unruled (h : Inv c db) (hq : Reads c db q) {f : File}
    (hf : f = (q.target ⟨db, c.disk⟩).setStatic q.R (c.disk.readStamp q.sf.name) ∨
      f = (q.target ⟨db, c.disk⟩).setFailed q.R (c.disk.readStamp q.sf.name)) :
    Inv { c with rebuilt := Function.update c.rebuilt q.sf.id false }
      ((q.prepare ⟨db, c.disk⟩).2.db.save f) := by
  have hid : f.id = q.sf.id := by
    rcases hf with rfl | rfl
    · rw [setStatic_id, Cache.Request.target_id]
    · rw [File.setFailed_id, Cache.Request.target_id]
  have hfname : f.name = q.sf.name := by
    rcases hf with rfl | rfl
    · rw [setStatic_name, Cache.Request.target_name]
    · rw [File.setFailed_name, Cache.Request.target_name]
  have hdone : f.isGenerated = true → f.failedRunid.isSome = true := by
    rcases hf with rfl | rfl
    · exact fun hgen => nomatch hgen
    · exact fun _ => rfl
  have hmarks : Marks c q.sf.id f := by
    rw [hq.R] at hf
    rcases hf with rfl | rfl
    · exact (hq.target_marks h).setStatic _
    · exact (hq.target_marks h).setFailed _
  have hnamed : Named (q.prepare ⟨db, c.disk⟩).2.db f := by
    have hsf : Named (q.prepare ⟨db, c.disk⟩).2.db q.sf :=
      Named.prepare q ⟨db, c.disk⟩ (Named.of_byId hq.sf)
    intro r hr
    rw [hid] at hr
    rw [hfname]
    exact hsf r hr
  have hsaved : Inv (c.attempting q.sf.id) ((q.prepare ⟨db, c.disk⟩).2.db.save f) := by
    refine ((h.attempting q.sf.id).prepare hq).save hnamed ?_ fun hA => ?_
    · rw [hid]
      refine .of_marks ⟨hmarks.changed, hmarks.checked, hmarks.known, hmarks.first⟩
        (by rw [hfname]; exact hq.name) (hq.ne h) (fun hc => ?_) (Function.update_self _ _ _)
      exact absurd rfl (of_update_false hc).1
    · rw [hid] at hA
      exact absurd hA (hq.ne h)
  have howes : ∀ r, ((q.prepare ⟨db, c.disk⟩).2.db.save f).lookup q.sf.id = some r →
      Owes c q.sf.id r := by
    intro r hr _ hgen _
    rw [← hid, hnamed.lookup_save, if_pos rfl] at hr
    obtain ⟨-, -, rfl⟩ := Option.map_eq_some_iff.mp hr
    exact Or.inl (hdone hgen)
  have hback := hsaved.recount fun hc => ⟨h.prepare_declares hq hc, howes⟩
  rwa [Function.update_eq_self] at hback

/-- The row that an accepted file keeps, overridden or static. -/
theorem save_kept (h : Inv c db) (hq : Reads c db q) {f : File}
    (hf : f = q.sf.setOverride q.R (c.disk.readStamp q.sf.name) ∨
      f = q.sf.setStatic q.R (c.disk.readStamp q.sf.name)) :
    Inv { c with rebuilt := Function.update c.rebuilt q.sf.id false } (db.save f) := by
  have hid : f.id = q.sf.id := by
    rcases hf with rfl | rfl
    · exact q.sf.updateStamp_id _ _
    · exact setStatic_id _ _ _
  have hfname : f.name = q.sf.name := by
    rcases hf with rfl | rfl
    · exact q.sf.updateStamp_name _ _
    · exact setStatic_name _ _ _
  have hmarks : Marks c q.sf.id f := by
    rw [hq.R] at hf
    rcases hf with rfl | rfl
    · exact (h.byId hq.sf).toMarks.setOverride _
    · exact (h.byId hq.sf).toMarks.setStatic _
  have hsource : f.isGenerated = true → f.isOverride = true := by
    rcases hf with rfl | rfl
    · exact fun _ => rfl
    · exact fun hgen => nomatch hgen
  have hnamed : Named db f := by
    intro r hr
    rw [hid] at hr
    rw [hfname]
    exact Named.of_byId hq.sf r hr
  refine (h.forget q.sf.id).save hnamed ?_ fun hA => ?_
  · rw [hid]
    refine .of_marks ⟨hmarks.changed, hmarks.checked, hmarks.known, hmarks.first⟩
      (by rw [hfname]; exact hq.name) (hq.ne h) (fun _ _ hgen hov => ?_)
      (Function.update_self _ _ _)
    rw [hsource hgen] at hov
    cases hov
  · rw [hid] at hA
    exact absurd hA (hq.ne h)

/-- The recipe is about to start. What the last build called counts for an old target. -/
theorem start (h : Inv c db) (hq : Reads c db q) :
    Inv { c with
      building := Function.update c.building q.sf.id (some (q.target ⟨db, c.disk⟩))
      calledAlways := Function.update c.calledAlways q.sf.id
        (c.calledAlways q.sf.id && (c.disk.pathExists q.sf.name || q.sf.isGenerated))
      rebuilt := Function.update c.rebuilt q.sf.id false } (q.prepare ⟨db, c.disk⟩).2.db := by
  have hid : (q.target ⟨db, c.disk⟩).id = q.sf.id := Cache.Request.target_id
  have hprep := (h.attempting q.sf.id).prepare hq
  have hback : Inv { c with
      calledAlways := Function.update c.calledAlways q.sf.id
        (c.calledAlways q.sf.id && (c.disk.pathExists q.sf.name || q.sf.isGenerated))
      rebuilt := Function.update c.rebuilt q.sf.id false } _ := hprep.recount fun hc => by
    rw [Bool.and_eq_true] at hc
    refine ⟨h.prepare_declares hq hc.1, fun r hr hlt hgen hov => ?_⟩
    rcases lookup_prepare hc.2 hr with hr | hsource
    · exact (h.rows hr).pending hc.1 hlt hgen hov
    · rw [hsource] at hgen
      cases hgen
  have hrow : ∃ r, (q.prepare ⟨db, c.disk⟩).2.db.lookup q.sf.id = some r ∧
      r.name = (q.target ⟨db, c.disk⟩).name := by
    have hsome : ((q.prepare ⟨db, c.disk⟩).2.db.lookup q.sf.id).isSome = true := by
      rw [isSome_prepare]
      obtain ⟨r, hr, -⟩ := Option.map_eq_some_iff.mp hq.sf
      exact Option.isSome_iff_exists.mpr ⟨r, hr⟩
    obtain ⟨r, hr⟩ := Option.isSome_iff_exists.mp hsome
    refine ⟨r, hr, Named.prepare q ⟨db, c.disk⟩ hq.target_named r ?_⟩
    rw [hid]
    exact hr
  have hmarks := hq.target_marks h
  rw [← hid] at hback hmarks hrow ⊢
  refine hback.hold ?_ ⟨hmarks.changed, hmarks.checked, hmarks.known, hmarks.first⟩ hrow
    (Function.update_self _ _ _)
  rw [hid]
  exact hq.ne h

end Inv
end Redo.Runs
