import Redo.Runs.GeneratedRules

/-! # What an event makes of a row

Every command writes rows from copies of them: from the row itself, or from what the builder of a
target has held since the attempt. But for the marks of walks and of `redo-stamp`, what is written
has the marks of the copy or counts as changed in the run.
-/
namespace Redo.Runs
open State Dirtiness Override Completion

/-- What is written, against the copy that it is written from. The stamp alone changes only where
the copy is marked in the run. -/
structure Later (R : RunId) (f g : File) : Prop where
  name : g.name = f.name
  checked : g.checkedRunid = f.checkedRunid
  changed : g.changedRunid = some R ∨
    g.changedRunid = f.changedRunid ∧ (g.stamp = f.stamp ∨ Marked R f)

namespace Later
variable {R : RunId} {f g h : File}

theorem refl (R : RunId) (f : File) : Later R f f := ⟨rfl, rfl, .inr ⟨rfl, .inl rfl⟩⟩

theorem trans (hfg : Later R f g) (hgh : Later R g h) : Later R f h where
  name := hgh.name.trans hfg.name
  checked := hgh.checked.trans hfg.checked
  changed := by
    rcases hgh.changed with hR | ⟨hch, hst⟩
    · exact .inl hR
    rcases hfg.changed with hR | ⟨hcg, hsg⟩
    · exact .inl (hch.trans hR)
    refine .inr ⟨hch.trans hcg, ?_⟩
    rcases hst with hst | hmarked
    · exact hsg.imp_left hst.trans
    · right
      simpa only [Marked, File.isChecked, File.isChanged, hfg.checked, hcg] using hmarked

theorem fromRow (R : RunId) (f : File) : Later R f (f.fromRow R) := by
  refine ⟨f.fromRow_name R, f.fromRow_checkedRunid R, ?_⟩
  unfold File.fromRow
  split
  · exact .inl rfl
  · exact .inr ⟨rfl, .inl rfl⟩

theorem setChanged (R : RunId) (f : File) : Later R f (f.setChanged R) := ⟨rfl, rfl, .inl rfl⟩

theorem updateStamp (R : RunId) (n : Stamp) (f : File) : Later R f (f.updateStamp R n) := by
  unfold File.updateStamp
  split
  · exact ⟨rfl, rfl, .inl rfl⟩
  · exact refl R f

theorem setFailed (R : RunId) (n : Stamp) (f : File) : Later R f (f.setFailed R n) :=
  have hu := updateStamp R n f
  ⟨hu.name, hu.checked, hu.changed⟩

theorem setStatic (R : RunId) (n : Stamp) (f : File) : Later R f (f.setStatic R n) :=
  have hu := updateStamp R n f
  ⟨hu.name, hu.checked, hu.changed⟩

theorem setOverride (R : RunId) (n : Stamp) (f : File) : Later R f (f.setOverride R n) :=
  have hu := updateStamp R n f
  ⟨hu.name, hu.checked, hu.changed⟩

theorem persist (R : RunId) (present : Bool) (f : File) :
    Later R f (persistNewTargetIntent present f) := by
  unfold persistNewTargetIntent
  split
  · exact refl R f
  · exact ⟨rfl, rfl, .inr ⟨rfl, .inl rfl⟩⟩

theorem redoAlways (R : RunId) (f : File) : Later R f (redoAlways R f) := ⟨rfl, rfl, .inl rfl⟩

theorem recordBuilt (R : RunId) (n : Stamp) (f : File) : Later R f (recordBuilt R n f) := by
  by_cases hm : Marked R f
  · rw [recordBuilt_marked n hm]
    exact ⟨rfl, rfl, .inr ⟨rfl, .inr hm⟩⟩
  · rw [recordBuilt_unmarked n hm]
    exact ⟨rfl, rfl, .inl rfl⟩

theorem cacheHitRow (R : RunId) (n : Stamp) (f : File) : Later R f (cacheHitRow R n f) := by
  have hflags : Later R f { f with
      isGenerated := true, isOverride := false, failedRunid := none, csum := none } :=
    ⟨rfl, rfl, .inr ⟨rfl, .inl rfl⟩⟩
  exact hflags.trans (updateStamp R n _)

theorem redoStamp {csum : String} (hf : f.csum ≠ some csum) : Later R f (redoStamp R csum f) := by
  rw [Runs.redoStamp, if_pos hf]
  exact ⟨rfl, rfl, .inl rfl⟩

end Later

/-- The row in the tables, or what the builder holds of it. -/
def Copy (s : Project) (x : FileId) (f : File) : Prop :=
  s.db.lookup x = some f ∨ s.building x = some f

/-- Builders hold rows of what they build, under their names. -/
structure Tidy (s : Project) : Prop where
  ids : HoldsOwn s
  rows : ∀ {x sf}, s.building x = some sf → ∃ r, s.db.lookup x = some r ∧ r.name = sf.name

theorem Tidy.names {s : Project} (h : Tidy s) {x : FileId} {sf r : File}
    (hsf : s.building x = some sf) (hr : s.db.lookup x = some r) : r.name = sf.name := by
  obtain ⟨r', hr', hname⟩ := h.rows hsf
  rw [hr] at hr'
  cases hr'
  exact hname

theorem Tidy.copies {s : Project} (h : Tidy s) {x : FileId} {f g : File} (hf : Copy s x f)
    (hg : Copy s x g) : f.name = g.name := by
  rcases hf with hf | hf <;> rcases hg with hg | hg
  · rw [hf] at hg
    cases hg
    rfl
  · exact h.names hg hf
  · exact (h.names hf hg).symm
  · rw [hf] at hg
    cases hg
    rfl

/-- The rows of `db` have been written from copies of `s`. -/
def Since (s : Project) (db : Db) : Prop :=
  ∀ x r, db.lookup x = some r → ∃ f, Copy s x f ∧ Later s.R f r

namespace Since
variable {s : Project} {db : Db}

theorem refl (s : Project) : Since s s.db := fun _ r hr => ⟨r, .inl hr, .refl s.R r⟩

theorem save (h : Since s db) (htidy : Tidy s) {f g : File} (hg : Copy s f.id g)
    (hgf : Later s.R g f) : Since s (db.save f) := by
  intro x r hr
  by_cases hx : x = f.id
  · subst hx
    rw [Db.lookup_save, if_pos rfl] at hr
    obtain ⟨r', hr', rfl⟩ := Option.map_eq_some_iff.mp hr
    obtain ⟨f', hf', hlater⟩ := h f.id r' hr'
    have hname : r'.name = g.name := hlater.name.trans (htidy.copies hf' hg)
    exact ⟨g, hg, hname, hgf.checked, hgf.changed⟩
  · rw [Db.lookup_save_of_ne hx] at hr
    exact h x r hr

/-- A row is read and saved again. -/
theorem save_row (h : Since s db) (htidy : Tidy s) {f g : File} (hg : s.db.byId s.R g.id = some g)
    (hid : f.id = g.id) (hgf : Later s.R g f) : Since s (db.save f) := by
  obtain ⟨r, hr, rfl⟩ := Option.map_eq_some_iff.mp hg
  rw [← hid] at hr
  exact h.save htidy (.inl hr) ((Later.fromRow s.R r).trans hgf)

theorem findDo (h : Since s db) (htidy : Tidy s) (sf : File) {candidates : List File}
    (hcand : ∀ c ∈ candidates, s.db.byId s.R c.id = some c) :
    Since s (Cache.findDo s.disk s.R sf candidates db).2 := by
  induction candidates generalizing db with
  | nil => exact h
  | cons c rest ih =>
    have hadd : ∀ mode, Since s (db.addDep sf.id mode c.id) := fun _ => h
    rw [Cache.findDo]
    split
    · exact (hadd 'm').save_row htidy (hcand c List.mem_cons_self) (setStatic_id _ _ _)
        (.setStatic s.R _ c)
    · exact ih (hadd 'c') fun c' hmem => hcand c' (List.mem_cons_of_mem c hmem)

end Since

variable {s : Project} {x : FileId} {r : File}

theorem since_prepare (htidy : Tidy s) {q : Cache.Request} (hfits : (Event.attempt q).Fits s) :
    Since s (q.prepare s.world).2.db := by
  obtain ⟨hR, hsf, -, -, hcand⟩ := hfits
  have hsaved : Since s (if s.disk.pathExists q.sf.name || q.sf.isGenerated then s.db
      else s.db.save (q.target s.world)) := by
    split
    · exact .refl s
    · exact (Since.refl s).save_row htidy hsf Cache.Request.target_id (.persist s.R _ q.sf)
  have hzapped : Since s (Db.zapDeps1 _ q.sf.id) := hsaved
  unfold Cache.Request.prepare
  rw [hR]
  exact hzapped.findDo htidy (q.target s.world) fun c hmem => (hcand c hmem).1

theorem since_attempt (htidy : Tidy s) {q : Cache.Request} (hfits : (Event.attempt q).Fits s) :
    Since s ((Event.attempt q).apply s).db := by
  have hprepared := since_prepare htidy hfits
  obtain ⟨hR, hsf, -, hpool, -⟩ := hfits
  have htarget : Later s.R q.sf (q.target s.world) := .persist s.R _ q.sf
  rw [Event.apply]
  cases hout : q.scheduleBuildOne false noCalls s.world with
  | none => exact .refl s
  | some out =>
    obtain ⟨o, db, disk⟩ := out
    have hends : q.Ends s.world o db := Cache.Request.scheduleBuildOne_ends hpool hout
    have hsince : Since s db := by
      cases hends with
      | skipped => exact .refl s
      | kept hf =>
        rw [hR] at hf
        rcases hf with rfl | rfl
        · exact (Since.refl s).save_row htidy hsf (q.sf.updateStamp_id _ _) (.setOverride s.R _ _)
        · exact (Since.refl s).save_row htidy hsf (setStatic_id _ _ _) (.setStatic s.R _ _)
      | unruled _ hf =>
        rw [hR] at hf
        rcases hf with rfl | rfl
        · exact hprepared.save_row htidy hsf
            ((setStatic_id _ _ _).trans Cache.Request.target_id) (htarget.trans (.setStatic s.R _ _))
        · exact hprepared.save_row htidy hsf
            ((File.setFailed_id _ _ _).trans Cache.Request.target_id)
            (htarget.trans (.setFailed s.R _ _))
      | recipe => exact hprepared
    cases o <;> exact hsince

theorem Copy.held (htidy : Tidy s) {sf : File} (h : s.building x = some sf) : Copy s sf.id sf := by
  rw [htidy.ids x sf h]
  exact .inr h

theorem Tidy.refresh (htidy : Tidy s) {sf : File} (h : s.building x = some sf) :
    ∃ f, Copy s x f ∧ Later s.R f (s.db.refresh s.R sf) := by
  have hid := htidy.ids x sf h
  unfold Db.refresh
  cases hr : s.db.byId s.R sf.id with
  | none => exact ⟨sf, .inr h, .refl s.R sf⟩
  | some f =>
    obtain ⟨r, hlookup, rfl⟩ := Option.map_eq_some_iff.mp hr
    rw [hid] at hlookup
    exact ⟨r, .inl hlookup, .fromRow s.R r⟩

/-- What is recorded at the end of a recipe. -/
theorem since_finish (htidy : Tidy s) {i : Input} {scheduled : Bool} {disk : Disk}
    (hfits : (Event.finish i scheduled disk).Fits s) : Since s (outcome i scheduled).db := by
  obtain ⟨hheld, hR, hdb, hend, -⟩ := hfits
  obtain ⟨db, r, hbase, hw, hsaved⟩ := outcome_commits hend
  have hcopy : ∃ f, Copy s i.sf.id f ∧ Later s.R f r := by
    obtain ⟨f, hf, hlater⟩ := htidy.refresh hheld
    rw [← hdb, ← hR] at hlater
    rw [← hR]
    cases hw with
    | built => exact ⟨f, hf, hlater.trans (.recordBuilt i.R _ _)⟩
    | failed _ _ hsf =>
      cases hsf with
      | snapshot => exact ⟨i.sf, .inr hheld, .setFailed i.R _ _⟩
      | built n => exact ⟨i.sf, .inr hheld, (Later.recordBuilt i.R n _).trans (.setFailed i.R _ _)⟩
      | refreshed n =>
        exact ⟨f, hf, hlater.trans ((Later.recordBuilt i.R n _).trans (.setFailed i.R _ _))⟩
  have hbased : Since s (db.zapDeps2 i.sf.id) := by
    intro x r hr
    have hold : s.db.lookup x = some r := by
      rw [← hdb, ← hbase.lookup x]
      exact hr
    exact ⟨r, .inl hold, .refl s.R r⟩
  obtain ⟨f, hf, hlater⟩ := hcopy
  rw [← hw.id_eq] at hf
  rw [hsaved]
  exact hbased.save htidy hf hlater

/-- What an event makes of a row. -/
inductive Rewritten (s : Project) (x : FileId) (r : File) : Event → Prop where
  | later {e : Event} {f : File} (copy : Copy s x f) (later : Later s.R f r) : Rewritten s x r e
  | inserted {name : String} (new : s.db.lookup x = none) (row : r = { id := x, name }) :
      Rewritten s x r (.insert x name)
  | walked {f : File} {mx : RunId}
      (traced : ∀ N, Blocked s.disk s.R s.db N → Traced s.disk s.R s.db N x r) :
      Rewritten s x r (.isdirty f mx)
  /-- `redo-stamp` with the checksum that the file had before. -/
  | stamped {f : File} {csum : String} (row : s.db.lookup x = some f) (same : f.csum = some csum)
      (name : r.name = f.name) (checked : r.checkedRunid = some s.R)
      (changed : r.changedRunid = f.changedRunid ∨ r.changedRunid = some s.R) :
      Rewritten s x r (.stamp x csum)

theorem Since.rewritten {db : Db} (h : Since s db) (e : Event) (hr : db.lookup x = some r) :
    Rewritten s x r e := by
  obtain ⟨f, hf, hlater⟩ := h x r hr
  exact .later hf hlater

theorem Event.Fits.rewritten {e : Event} (hfits : e.Fits s) (htidy : Tidy s)
    (hr : (e.apply s).db.lookup x = some r) : Rewritten s x r e := by
  have hsame : ∀ {e}, s.db.lookup x = some r → Rewritten s x r e := fun {e} h =>
    (Since.refl s).rewritten e h
  cases e with
  | newRun | edit | ifcreate | die => exact hsame hr
  | insert id name =>
    rw [Event.apply, Inv.lookup_insert name fun r hr => (hfits r hr).1] at hr
    split at hr
    · rename_i hx
      subst hx
      cases hr
      refine .inserted ?_ rfl
      rw [Db.lookup, List.find?_eq_none]
      intro r hr
      simpa using (hfits r hr).1
    · exact hsame hr
  | isdirty f mx =>
    refine .walked fun N hN => ?_
    have hpre : ∀ x ∈ ([] : List FileId), ¬N x := by simp
    exact (hN.walk hpre hfits mx).along.rows x r hr
  | attempt q => exact (since_attempt htidy hfits).rewritten _ hr
  | cacheHit id =>
    obtain ⟨sf, hb, -⟩ := hfits
    obtain ⟨f, hf, hlater⟩ := htidy.refresh hb
    rw [Event.apply, hb] at hr
    have hdeps : Since s (((s.db.depsOf s.R sf).foldl
        (fun db p => db.addDep sf.id p.1 p.2.id) s.db).zapDeps2 sf.id) := by
      intro y r hr
      have hold : s.db.lookup y = some r := (Inv.foldl_lookup sf.id y _ s.db).symm.trans hr
      exact ⟨r, .inl hold, .refl s.R r⟩
    refine (hdeps.save htidy ?_ (hlater.trans (.cacheHitRow s.R _ _))).rewritten _ hr
    rw [cacheHitRow, File.updateStamp_id, refresh_id, htidy.ids id sf hb]
    exact hf
  | giveUp id =>
    obtain ⟨sf, hb⟩ := Option.isSome_iff_exists.mp hfits
    rw [Event.apply, hb] at hr
    refine ((Since.refl s).save htidy ?_ (.setFailed s.R _ sf)).rewritten _ hr
    rw [File.setFailed_id]
    exact .held htidy hb
  | ifchange id source =>
    rw [Event.apply] at hr
    cases hf : s.db.byId s.R id with
    | none =>
      rw [hf] at hr
      exact hsame hr
    | some f =>
      rw [hf] at hr
      have hadd : Since s (s.db.addDep id 'm' source) := Since.refl s
      have hrow : s.db.byId s.R f.id = some f := by rwa [Db.byId_id hf]
      exact (hadd.save_row htidy hrow rfl (.refl s.R f)).rewritten _ hr
  | always id =>
    rw [Event.apply] at hr
    cases hf : s.db.byId s.R id with
    | none =>
      simp only [hf] at hr
      exact hsame hr
    | some f =>
      cases ha : s.db.byId s.R ALWAYS_ID with
      | none =>
        simp only [hf, ha] at hr
        exact hsame hr
      | some a =>
        simp only [hf, ha] at hr
        have hadd : Since s (s.db.addDep id 'm' ALWAYS_ID) := Since.refl s
        have hrow : s.db.byId s.R f.id = some f := by rwa [Db.byId_id hf]
        have harow : s.db.byId s.R a.id = some a := by rwa [Db.byId_id ha]
        have hid : (redoAlways s.R a).id = a.id := rfl
        exact ((hadd.save_row htidy hrow rfl (.refl s.R f)).save_row htidy harow hid
          (.redoAlways s.R a)).rewritten _ hr
  | stamp id csum =>
    rw [Event.apply] at hr
    cases hf : s.db.byId s.R id with
    | none =>
      rw [hf] at hr
      exact hsame hr
    | some f =>
      rw [hf] at hr
      have hid : f.id = id := Db.byId_id hf
      have hrow : s.db.byId s.R f.id = some f := by rwa [hid]
      by_cases hcsum : f.csum = some csum
      · by_cases hx : x = id
        · subst hx
          obtain ⟨r₀, hr₀, rfl⟩ := Option.map_eq_some_iff.mp hf
          simp only at hr
          rw [Db.lookup_save_self ((redoStamp_id _ _ _).trans hid) hr₀] at hr
          cases hr
          have hlater := Later.fromRow s.R r₀
          have hcsum₀ : r₀.csum = some csum := by
            rw [← hcsum, File.fromRow]
            split <;> rfl
          refine .stamped hr₀ hcsum₀ rfl ?_ ?_
          · simp [redoStamp, hcsum, File.setChecked]
          · simp only [redoStamp, hcsum, ne_eq, not_true_eq_false, if_false, File.setChecked]
            exact hlater.changed.symm.imp_left And.left
        · have hne : x ≠ (redoStamp s.R csum f).id := by rwa [redoStamp_id, hid]
          simp only at hr
          rw [Db.lookup_save_of_ne hne] at hr
          exact hsame hr
      · exact ((Since.refl s).save_row htidy hrow (redoStamp_id _ _ _)
          (.redoStamp hcsum)).rewritten _ hr
  | finish i scheduled disk => exact (since_finish htidy hfits).rewritten _ hr

/-- Rows are never dropped. -/
theorem Event.Fits.known {e : Event} (hfits : e.Fits s) (h : (s.db.lookup x).isSome = true) :
    ((e.apply s).db.lookup x).isSome = true := by
  cases e with
  | newRun | edit | ifcreate | die => exact h
  | insert id name =>
    rw [Event.apply, Inv.lookup_insert name fun r hr => (hfits r hr).1]
    split
    · rfl
    · exact h
  | isdirty f mx =>
    exact ((isdirtyDefault_along hfits mx).known x).trans h
  | attempt q =>
    rw [Event.apply]
    cases hout : q.scheduleBuildOne false noCalls s.world with
    | none => exact h
    | some out =>
      obtain ⟨o, db, disk⟩ := out
      have hsome : (db.lookup x).isSome = true := by
        cases Cache.Request.scheduleBuildOne_ends hfits.2.2.2.1 hout with
        | skipped => exact h
        | kept => exact (isSome_save _ _ x).trans h
        | unruled => exact (isSome_save _ _ x).trans ((isSome_prepare q s.world x).trans h)
        | recipe => exact (isSome_prepare q s.world x).trans h
      cases o <;> exact hsome
  | cacheHit id =>
    rw [Event.apply]
    split
    · exact h
    · rename_i sf _
      refine (isSome_save _ _ x).trans ?_
      rw [show Db.lookup (Db.zapDeps2 _ sf.id) x = s.db.lookup x from
        Inv.foldl_lookup sf.id x _ s.db]
      exact h
  | giveUp id =>
    rw [Event.apply]
    split
    · exact h
    · exact (isSome_save _ _ x).trans h
  | ifchange id source =>
    rw [Event.apply]
    split
    · exact h
    · exact (isSome_save _ _ x).trans h
  | always id =>
    rw [Event.apply]
    split
    · exact (isSome_save _ _ x).trans ((isSome_save _ _ x).trans h)
    · exact h
  | stamp id csum =>
    rw [Event.apply]
    split
    · exact h
    · exact (isSome_save _ _ x).trans h
  | finish i scheduled disk =>
    obtain ⟨-, -, hdb, hend, -⟩ := hfits
    obtain ⟨db, r, hbase, -, hsaved⟩ := outcome_commits hend
    rw [Event.apply, hsaved]
    refine (isSome_save _ _ x).trans ?_
    rw [show (db.zapDeps2 i.sf.id).lookup x = s.db.lookup x from hdb ▸ hbase.lookup x]
    exact h

/-- What a builder holds it has held before, or it has just read it. -/
theorem Event.Fits.held {e : Event} {sf : File} (hfits : e.Fits s)
    (hsf : (e.apply s).building x = some sf) :
    s.building x = some sf ∨ ∃ f, s.db.lookup x = some f ∧ Later s.R f sf := by
  have hrelease : ∀ {y}, Function.update s.building y none x = some sf →
      s.building x = some sf := by
    intro y h
    by_cases hx : x = y
    · subst hx
      simp at h
    · rwa [Function.update_of_ne hx] at h
  cases e with
  | newRun | edit | insert | isdirty | ifcreate => exact .inl hsf
  | attempt q =>
    rw [Event.apply] at hsf
    cases hout : q.scheduleBuildOne false noCalls s.world with
    | none =>
      rw [hout] at hsf
      exact .inl hsf
    | some out =>
      obtain ⟨o, w⟩ := out
      simp only [hout] at hsf
      cases o with
      | recipe =>
        by_cases hx : x = q.sf.id
        · subst hx
          simp only [Project.attemptedBy, Function.update_self, Option.some.injEq] at hsf
          obtain ⟨r, hr, hrow⟩ := Option.map_eq_some_iff.mp hfits.2.1
          refine .inr ⟨r, hr, ?_⟩
          rw [← hsf]
          have hread := Later.fromRow s.R r
          rw [hrow] at hread
          exact hread.trans (.persist s.R _ q.sf)
        · simp only [Project.attemptedBy, Function.update_of_ne hx] at hsf
          exact .inl hsf
      | _ => exact .inl hsf
  | cacheHit id =>
    rw [Event.apply] at hsf
    split at hsf
    · exact .inl hsf
    · exact .inl (hrelease hsf)
  | giveUp id =>
    rw [Event.apply] at hsf
    split at hsf
    · exact .inl hsf
    · exact .inl (hrelease hsf)
  | ifchange id source =>
    rw [Event.apply] at hsf
    split at hsf <;> exact .inl hsf
  | always id =>
    rw [Event.apply] at hsf
    split at hsf <;> exact .inl hsf
  | stamp id csum =>
    rw [Event.apply] at hsf
    split at hsf <;> exact .inl hsf
  | finish i scheduled disk => exact .inl (hrelease hsf)
  | die id => exact .inl (hrelease hsf)

/-- Every copy of a row has been written from one, or by a walk or `redo-stamp`. -/
theorem Event.Fits.copies {e : Event} {f : File} (hfits : e.Fits s) (htidy : Tidy s)
    (hf : Copy (e.apply s) x f) : Rewritten s x f e := by
  rcases hf with hf | hf
  · exact hfits.rewritten htidy hf
  · rcases hfits.held hf with hheld | ⟨g, hg, hlater⟩
    · exact .later (.inr hheld) (.refl s.R f)
    · exact .later (.inl hg) hlater

/-- The name is that of every copy before. -/
theorem Rewritten.name {e : Event} {f : File} (h : Rewritten s x r e) (htidy : Tidy s)
    (hf : Copy s x f) (hknown : (s.db.lookup x).isSome = true) : r.name = f.name := by
  cases h with
  | later hg hlater => exact hlater.name.trans (htidy.copies hg hf)
  | inserted hnone =>
    rw [hnone] at hknown
    cases hknown
  | walked htraced =>
    obtain ⟨r₀, hr₀, ht⟩ := htraced (fun _ => False) fun _ _ hN => hN.elim
    exact ht.name.trans (htidy.copies (.inl hr₀) hf)
  | stamped hg _ hname => exact hname.trans (htidy.copies (.inl hg) hf)

theorem Event.Fits.tidy {e : Event} (hfits : e.Fits s) (htidy : Tidy s) : Tidy (e.apply s) where
  ids := htidy.ids.apply e
  rows {x sf} hsf := by
    have hcopy : ∃ f, Copy s x f ∧ sf.name = f.name ∧ (s.db.lookup x).isSome = true := by
      rcases hfits.held hsf with hheld | ⟨f, hf, hlater⟩
      · obtain ⟨r, hr, -⟩ := htidy.rows hheld
        exact ⟨sf, .inr hheld, rfl, by rw [hr]; rfl⟩
      · exact ⟨f, .inl hf, hlater.name, by rw [hf]; rfl⟩
    obtain ⟨f, hf, hname, hknown⟩ := hcopy
    obtain ⟨r, hr⟩ := Option.isSome_iff_exists.mp (hfits.known hknown)
    exact ⟨r, hr, ((hfits.rewritten htidy hr).name htidy hf hknown).trans hname.symm⟩

end Redo.Runs
