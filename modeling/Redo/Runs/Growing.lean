import Redo.Runs.Bystanders

/-! # Changed marks do not go back

A build that fails writes what the builder has held since its start. Everything else keeps the
changed mark of a row or moves it to the run that is under way.
-/
namespace Redo.Runs
open State Dirtiness Override Completion

/-- The target whose build an event records as failed. -/
def Event.fails : Event → Option FileId
  | .giveUp id => some id
  | .finish i scheduled _ => if (outcome i scheduled).ended = .code 0 then none else some i.sf.id
  | _ => none

/-- A row and what it becomes. -/
structure Grown (R : RunId) (r r' : File) : Prop where
  name : r'.name = r.name
  changed : r'.changedRunid = r.changedRunid ∨ r'.changedRunid = some R

/-- No mark is from a later run. -/
structure Dated (s : Project) : Prop where
  positive : 0 < s.R
  changed : ∀ {x f}, Copy s x f → f.changedRunid.getD 0 ≤ s.R
  checked : ∀ {x f}, Copy s x f → f.checkedRunid.getD 0 ≤ s.R

variable {s : Project} {e : Event} {x : FileId} {r f g : File} {R : RunId} {db : Db}

theorem fromRow_changed (R : RunId) (r : File) :
    (r.fromRow R).changedRunid = r.changedRunid ∨ (r.fromRow R).changedRunid = some R := by
  unfold File.fromRow
  split
  · exact .inr rfl
  · exact .inl rfl

theorem Later.grown (h : Later R r f) : Grown R r f := ⟨h.name, h.changed.symm.imp_left And.left⟩

theorem Grown.refl (R : RunId) (r : File) : Grown R r r := ⟨rfl, .inl rfl⟩

theorem Beside.grown {r' : File} (h : Beside s x r r') : Grown s.R r r' := by
  cases h with
  | same => exact .refl s.R r
  | walked ht =>
    refine ⟨ht.name, ?_⟩
    rcases ht.changed with hc | hc
    · exact .inl hc
    · exact (fromRow_changed s.R r).imp hc.trans hc.trans
  | chosen => exact ((Later.fromRow s.R r).trans (.setStatic s.R _ _)).grown
  | always => exact ((Later.fromRow s.R r).trans (.redoAlways s.R _)).grown

theorem Grown.save (h : Grown R r f) (hid : f.id = x)
    (hr : ∃ r₁, db.lookup x = some r₁ ∧ r₁.name = r.name) :
    ∃ r', (db.save f).lookup x = some r' ∧ Grown R r r' := by
  obtain ⟨r₁, hr₁, hname⟩ := hr
  exact ⟨{ f with name := r₁.name }, Db.lookup_save_self hid hr₁, hname, h.changed⟩

theorem grown_stamp {id : FileId} {csum : String} (hr : s.db.lookup id = some r) :
    ∃ r', ((Event.stamp id csum).apply s).db.lookup id = some r' ∧ Grown s.R r r' := by
  have hread : s.db.byId s.R id = some (r.fromRow s.R) := by
    rw [Db.byId, hr]
    rfl
  have hstamped : Grown s.R r (redoStamp s.R csum (r.fromRow s.R)) := by
    refine ⟨(redoStamp_name _ _ _).trans (File.fromRow_name s.R r), ?_⟩
    unfold redoStamp
    split
    · exact .inr rfl
    · exact fromRow_changed s.R r
  rw [Event.apply, hread]
  exact hstamped.save ((redoStamp_id _ _ _).trans (Db.byId_id hread)) ⟨r, hr, rfl⟩

/-- Where no build fails the row that is written is that of the tables. -/
theorem Event.Fits.grown (hfits : e.Fits s) (htidy : Tidy s) (hok : e.fails ≠ some x)
    (hr : s.db.lookup x = some r) : ∃ r', (e.apply s).db.lookup x = some r' ∧ Grown s.R r r' := by
  by_cases htarget : e.target = some x
  swap
  · obtain ⟨r', hr', hbeside⟩ := hfits.beside htidy htarget hr
    exact ⟨r', hr', hbeside.grown⟩
  have hread : s.db.byId s.R x = some (r.fromRow s.R) := by
    rw [Db.byId, hr]
    rfl
  have hself : Grown s.R r (r.fromRow s.R) := (Later.fromRow s.R r).grown
  have hid : (r.fromRow s.R).id = x := Db.byId_id hread
  have hrefresh : ∀ {sf}, s.building x = some sf → s.db.refresh s.R sf = r.fromRow s.R := by
    intro sf hsf
    rw [Db.refresh, htidy.ids x sf hsf, hread]
    rfl
  cases e with
  | newRun | edit | insert | isdirty => cases htarget
  | attempt q =>
    cases htarget
    have hknown : (((Event.attempt q).apply s).db.lookup q.sf.id).isSome = true := by
      apply hfits.known
      rw [hr]
      rfl
    obtain ⟨r', hr'⟩ := Option.isSome_iff_exists.mp hknown
    obtain ⟨f, hf | hf, hlater⟩ := since_attempt htidy hfits _ r' hr'
    · rw [hr] at hf
      cases hf
      exact ⟨r', hr', hlater.grown⟩
    · rw [hfits.2.2.1] at hf
      cases hf
  | cacheHit id =>
    cases htarget
    obtain ⟨sf, hb, -⟩ := hfits
    rw [Event.apply, hb]
    have hrow : Grown s.R r (cacheHitRow s.R (s.disk.readStamp sf.name) (s.db.refresh s.R sf)) := by
      rw [hrefresh hb]
      exact ((Later.fromRow s.R r).trans (.cacheHitRow s.R _ _)).grown
    refine hrow.save ?_ ⟨r, (Inv.foldl_lookup sf.id _ _ s.db).trans hr, rfl⟩
    rw [cacheHitRow, File.updateStamp_id, refresh_id, htidy.ids _ sf hb]
  | giveUp id => exact absurd htarget hok
  | ifchange id source =>
    cases htarget
    rw [Event.apply, hread]
    exact hself.save hid ⟨r, hr, rfl⟩
  | ifcreate | die => exact ⟨r, hr, .refl s.R r⟩
  | always id =>
    cases htarget
    rw [Event.apply, hread]
    have hsaved : ∃ r₁, ((s.db.addDep x 'm' ALWAYS_ID).save (r.fromRow s.R)).lookup x = some r₁ ∧
        Grown s.R r r₁ := hself.save hid ⟨r, hr, rfl⟩
    obtain ⟨r₁, hr₁, hgrown⟩ := hsaved
    cases ha : s.db.byId s.R ALWAYS_ID with
    | none => exact ⟨r, hr, .refl s.R r⟩
    | some a =>
      by_cases hA : x = ALWAYS_ID
      · subst hA
        rw [hread] at ha
        obtain rfl := Option.some.inj ha
        have halways : Grown s.R r (redoAlways s.R (r.fromRow s.R)) :=
          ((Later.fromRow s.R r).trans (.redoAlways s.R _)).grown
        exact halways.save hid ⟨r₁, hr₁, hgrown.name⟩
      · have haid : x ≠ (redoAlways s.R a).id := by
          rw [show (redoAlways s.R a).id = a.id from rfl, Db.byId_id ha]
          exact hA
        exact ⟨r₁, (Db.lookup_save_of_ne haid).trans hr₁, hgrown⟩
  | stamp id csum =>
    cases htarget
    exact grown_stamp hr
  | finish i scheduled disk =>
    cases htarget
    obtain ⟨hheld, hR, hdb, hend, -⟩ := hfits
    obtain ⟨db, r', hbase, hw, hsaved⟩ := outcome_commits hend
    have hrow : Grown s.R r r' := by
      cases hw with
      | built =>
        rw [hR, hdb, hrefresh hheld]
        exact ((Later.fromRow s.R r).trans (.recordBuilt s.R _ _)).grown
      | failed hcode hrv =>
        have hnot : (outcome i scheduled).ended ≠ .code 0 := by
          rw [hcode]
          simpa using hrv
        rw [Event.fails, if_neg hnot] at hok
        exact absurd rfl hok
    rw [Event.apply, hsaved]
    refine hrow.save hw.id_eq ⟨r, ?_, rfl⟩
    rw [← hr, ← hdb]
    exact hbase.lookup _

/-- In an empty project there is one row to copy. -/
theorem Started.copy (h : Started s) (hf : Copy s x f) : f = { id := ALWAYS_ID, name := ALWAYS } := by
  rcases hf with hf | hf
  · rw [h.db] at hf
    exact (List.mem_singleton.mp (List.mem_of_find?_eq_some hf))
  · rw [h.building] at hf
    cases hf

theorem Started.tidy (h : Started s) : Tidy s where
  ids x sf hsf := by
    rw [h.building] at hsf
    cases hsf
  rows hsf := by
    rw [h.building] at hsf
    cases hsf

theorem Started.dated (h : Started s) : Dated s where
  positive := h.positive
  changed hf := by
    rw [h.copy hf]
    exact le_of_lt h.positive
  checked hf := by
    rw [h.copy hf]
    exact le_of_lt h.positive

/-- The copies of a row keep their dates. -/
theorem Event.Fits.dated (hfits : e.Fits s) (htidy : Tidy s) (h : Dated s) : Dated (e.apply s) := by
  have hR : s.R ≤ (e.apply s).R := by
    cases e with
    | newRun R => exact le_of_lt hfits.2
    | _ => exact le_of_eq (apply_R (fun R => by simp)).symm
  have hpositive : 0 < (e.apply s).R := lt_of_lt_of_le h.positive hR
  have hmarks : ∀ {x f}, Copy (e.apply s) x f →
      f.changedRunid.getD 0 ≤ s.R ∧ f.checkedRunid.getD 0 ≤ s.R := by
    intro x f hf
    cases hfits.copies htidy hf with
    | later hg hlater =>
      rw [hlater.checked]
      refine ⟨?_, h.checked hg⟩
      rcases hlater.changed with hc | ⟨hc, -⟩
      · rw [hc]
        exact le_refl s.R
      · rw [hc]
        exact h.changed hg
    | inserted _ hrow =>
      subst hrow
      exact ⟨le_of_lt h.positive, le_of_lt h.positive⟩
    | walked htraced =>
      obtain ⟨r, hr, ht⟩ := htraced (fun _ => False) fun _ _ hN => hN.elim
      refine ⟨?_, ?_⟩
      · rcases (Beside.walked ht).grown.changed with hc | hc
        · rw [hc]
          exact h.changed (.inl hr)
        · rw [hc]
          exact le_refl s.R
      · rcases ht.checked with hc | ⟨hc, -⟩
        · rw [hc]
          exact h.checked (.inl hr)
        · rw [hc]
          exact le_refl s.R
    | stamped hr _ _ hchecked hchanged =>
      rw [hchecked]
      refine ⟨?_, le_refl s.R⟩
      rcases hchanged with hc | hc
      · rw [hc]
        exact h.changed (.inl hr)
      · rw [hc]
        exact le_refl s.R
  exact ⟨hpositive, fun hf => (hmarks hf).1.trans hR, fun hf => (hmarks hf).2.trans hR⟩

end Redo.Runs
