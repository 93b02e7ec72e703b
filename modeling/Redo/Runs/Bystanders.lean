import Redo.Runs.Declarations
import Redo.Runs.HonestRules

/-! # Rows that an event is not about

A builder writes the row of its target. Of other rows, a walk marks some, the chosen `.do` file
becomes a source, and `redo-always` writes that of `//ALWAYS`.
-/
namespace Redo.Runs
open State Dirtiness Override Completion

/-- The target that an event is about. -/
def Event.target : Event → Option FileId
  | .attempt q => some q.sf.id
  | .cacheHit id | .giveUp id | .ifchange id _ | .ifcreate id _ | .always id | .stamp id _
  | .die id => some id
  | .finish i _ _ => some i.sf.id
  | _ => none

/-- What becomes of the row `r` of another file. -/
inductive Beside (s : Project) (x : FileId) (r : File) : File → Prop where
  | same : Beside s x r r
  | walked {r' : File} (touched : Touched s.disk s.R (fun _ => False) x r r') : Beside s x r r'
  | chosen : Beside s x r ((r.fromRow s.R).setStatic s.R (s.disk.readStamp r.name))
  | always (id : x = ALWAYS_ID) : Beside s x r (redoAlways s.R (r.fromRow s.R))

variable {s : Project} {e : Event} {x : FileId} {r : File} {db : Db}

theorem fromRow_failedRunid (R : RunId) (r : File) : (r.fromRow R).failedRunid = r.failedRunid := by
  unfold File.fromRow
  split <;> rfl

theorem eq_of_same_name {f : File} {name : String} (h : f.name = name) : { f with name } = f := by
  subst h
  rfl

/-- The search for a `.do` file makes a source of the one that it comes to. -/
theorem lookup_findDo_of_row (disk : Disk) {R : RunId} (sf : File) {candidates : List File}
    (hcand : ∀ c ∈ candidates, c.id = x → c = r.fromRow R) (hr : db.lookup x = some r) :
    ∃ r', (Cache.findDo disk R sf candidates db).2.lookup x = some r' ∧
      (r' = r ∨ r' = (r.fromRow R).setStatic R (disk.readStamp r.name)) := by
  induction candidates generalizing db with
  | nil => exact ⟨r, hr, .inl rfl⟩
  | cons c rest ih =>
    rw [Cache.findDo]
    split
    · by_cases hx : c.id = x
      · obtain rfl := hcand c List.mem_cons_self hx
        have hid : ((r.fromRow R).setStatic R (disk.readStamp (r.fromRow R).name)).id = x := by
          rw [setStatic_id, hx]
        have hadd : (db.addDep sf.id 'm' (r.fromRow R).id).lookup x = some r := hr
        refine ⟨_, Db.lookup_save_self hid hadd, .inr ?_⟩
        rw [eq_of_same_name (by rw [setStatic_name, File.fromRow_name]), File.fromRow_name]
      · have hid : x ≠ (c.setStatic R (disk.readStamp c.name)).id := by
          rw [setStatic_id]
          exact Ne.symm hx
        exact ⟨r, (Db.lookup_save_of_ne hid).trans hr, .inl rfl⟩
    · exact ih (fun c' hmem => hcand c' (List.mem_cons_of_mem c hmem)) hr

theorem beside_prepare {q : Cache.Request} (hfits : (Event.attempt q).Fits s) (hx : x ≠ q.sf.id)
    (hr : s.db.lookup x = some r) :
    ∃ r', (q.prepare s.world).2.db.lookup x = some r' ∧ Beside s x r r' := by
  obtain ⟨hR, -, -, -, hcand⟩ := hfits
  have hrow : ∀ c ∈ q.candidates, c.id = x → c = r.fromRow s.R := by
    intro c hmem hc
    have hread := (hcand c hmem).1
    rw [hc, Db.byId, hr] at hread
    exact (Option.some.inj hread).symm
  have hsaved : (if s.disk.pathExists q.sf.name || q.sf.isGenerated then s.db
      else s.db.save (q.target s.world)).lookup x = some r := by
    split
    · exact hr
    · rwa [Db.lookup_save_of_ne (by rwa [Cache.Request.target_id])]
  have hzapped : (Db.zapDeps1 (if s.disk.pathExists q.sf.name || q.sf.isGenerated then s.db
      else s.db.save (q.target s.world)) q.sf.id).lookup x = some r := hsaved
  obtain ⟨r', hr', hor⟩ := lookup_findDo_of_row s.disk (q.target s.world) hrow hzapped
  have hbeside : Beside s x r r' := by
    rcases hor with rfl | rfl
    · exact .same
    · exact .chosen
  refine ⟨r', ?_, hbeside⟩
  unfold Cache.Request.prepare
  rw [hR]
  exact hr'

theorem beside_attempt {q : Cache.Request} (hfits : (Event.attempt q).Fits s) (hx : x ≠ q.sf.id)
    (hr : s.db.lookup x = some r) :
    ∃ r', ((Event.attempt q).apply s).db.lookup x = some r' ∧ Beside s x r r' := by
  have hprepared := beside_prepare hfits hx hr
  rw [Event.apply]
  cases hout : q.scheduleBuildOne false noCalls s.world with
  | none => exact ⟨r, hr, .same⟩
  | some out =>
    obtain ⟨o, db, disk⟩ := out
    have hbeside : ∃ r', db.lookup x = some r' ∧ Beside s x r r' := by
      have hends := Cache.Request.scheduleBuildOne_ends hfits.2.2.2.1 hout
      cases hends with
      | skipped => exact ⟨r, hr, .same⟩
      | @kept f hf =>
        have hid : f.id = q.sf.id := by
          rcases hf with rfl | rfl
          · exact q.sf.updateStamp_id _ _
          · exact setStatic_id _ _ _
        exact ⟨r, (Db.lookup_save_of_ne (by rwa [hid])).trans hr, .same⟩
      | @unruled o f _ hf =>
        have hid : f.id = q.sf.id := by
          rcases hf with rfl | rfl
          · exact (setStatic_id _ _ _).trans Cache.Request.target_id
          · exact (File.setFailed_id _ _ _).trans Cache.Request.target_id
        obtain ⟨r', hr', hbeside⟩ := hprepared
        exact ⟨r', (Db.lookup_save_of_ne (by rwa [hid])).trans hr', hbeside⟩
      | recipe => exact hprepared
    cases o <;> exact hbeside

theorem beside_always {id : FileId} (hx : x ≠ id) (hr : s.db.lookup x = some r) :
    ∃ r', ((Event.always id).apply s).db.lookup x = some r' ∧ Beside s x r r' := by
  rw [Event.apply]
  cases hf : s.db.byId s.R id with
  | none => exact ⟨r, hr, .same⟩
  | some f =>
    cases ha : s.db.byId s.R ALWAYS_ID with
    | none => exact ⟨r, hr, .same⟩
    | some a =>
      have hfid : x ≠ f.id := by rwa [Db.byId_id hf]
      have hsaved : ((s.db.addDep id 'm' ALWAYS_ID).save f).lookup x = some r :=
        (Db.lookup_save_of_ne hfid).trans hr
      have haid : (redoAlways s.R a).id = ALWAYS_ID := (rfl : _ = a.id).trans (Db.byId_id ha)
      by_cases hA : x = ALWAYS_ID
      · subst hA
        rw [Db.byId, hr] at ha
        obtain rfl := Option.some.inj ha
        refine ⟨_, Db.lookup_save_self haid hsaved, ?_⟩
        rw [eq_of_same_name (f := redoAlways s.R (r.fromRow s.R)) (File.fromRow_name s.R r)]
        exact .always rfl
      · exact ⟨r, (Db.lookup_save_of_ne (by rwa [haid])).trans hsaved, .same⟩

/-- What an event makes of the row of another file. -/
theorem Event.Fits.beside (hfits : e.Fits s) (htidy : Tidy s) (htarget : e.target ≠ some x)
    (hr : s.db.lookup x = some r) :
    ∃ r', (e.apply s).db.lookup x = some r' ∧ Beside s x r r' := by
  have hsave : ∀ {db : Db} {f : File}, db.lookup x = some r → x ≠ f.id →
      ∃ r', (db.save f).lookup x = some r' ∧ Beside s x r r' := by
    intro db f hold hne
    exact ⟨r, (Db.lookup_save_of_ne hne).trans hold, .same⟩
  have hother : ∀ {id : FileId}, some id ≠ some x → x ≠ id := by
    rintro id hne rfl
    exact hne rfl
  cases e with
  | newRun | edit | ifcreate | die => exact ⟨r, hr, .same⟩
  | insert id name =>
    have hx : x ≠ id := by
      rintro rfl
      exact (hfits r (List.mem_of_find?_eq_some hr)).1 (Db.lookup_id hr)
    refine ⟨r, ?_, .same⟩
    rw [Event.apply, Inv.lookup_insert name fun r hr => (hfits r hr).1, if_neg hx]
    exact hr
  | isdirty f mx =>
    have hknown : (((Event.isdirty f mx).apply s).db.lookup x).isSome = true := by
      apply hfits.known
      rw [hr]
      rfl
    obtain ⟨r', hr'⟩ := Option.isSome_iff_exists.mp hknown
    have hblocked : Blocked s.disk s.R s.db fun _ => False := fun _ _ hN => hN.elim
    obtain ⟨r₀, hr₀, ht⟩ := (hblocked.walk (by simp) hfits mx).along.rows x r' hr'
    rw [hr] at hr₀
    cases hr₀
    exact ⟨r', hr', .walked ht⟩
  | attempt q => exact beside_attempt hfits (hother htarget) hr
  | cacheHit id =>
    obtain ⟨sf, hb, -⟩ := hfits
    rw [Event.apply, hb]
    refine hsave ((Inv.foldl_lookup sf.id x _ s.db).trans hr) ?_
    rw [cacheHitRow, File.updateStamp_id, refresh_id, htidy.ids id sf hb]
    exact hother htarget
  | giveUp id =>
    obtain ⟨sf, hb⟩ := Option.isSome_iff_exists.mp hfits
    rw [Event.apply, hb]
    apply hsave hr
    rw [File.setFailed_id, htidy.ids id sf hb]
    exact hother htarget
  | ifchange id source =>
    rw [Event.apply]
    cases hf : s.db.byId s.R id with
    | none => exact ⟨r, hr, .same⟩
    | some f =>
      have hadd : (s.db.addDep id 'm' source).lookup x = some r := hr
      refine hsave hadd ?_
      rw [Db.byId_id hf]
      exact hother htarget
  | always id => exact beside_always (hother htarget) hr
  | stamp id csum =>
    rw [Event.apply]
    cases hf : s.db.byId s.R id with
    | none => exact ⟨r, hr, .same⟩
    | some f =>
      apply hsave hr
      rw [redoStamp_id, Db.byId_id hf]
      exact hother htarget
  | finish i scheduled disk =>
    obtain ⟨-, -, hdb, hend, -⟩ := hfits
    obtain ⟨db, r', hbase, hw, hsaved⟩ := outcome_commits hend
    rw [Event.apply, hsaved]
    have hzapped : (db.zapDeps2 i.sf.id).lookup x = some r := by
      rw [← hr, ← hdb]
      exact hbase.lookup x
    apply hsave hzapped
    rw [hw.id_eq]
    exact hother htarget

/-- A completion writes one row. -/
theorem lookup_outcome {i : Input} {scheduled : Bool} {disk : Disk}
    (hfits : (Event.finish i scheduled disk).Fits s) (hx : x ≠ i.sf.id) :
    (outcome i scheduled).db.lookup x = s.db.lookup x := by
  obtain ⟨-, -, hdb, hend, -⟩ := hfits
  obtain ⟨db, r, hbase, hw, hsaved⟩ := outcome_commits hend
  have hid : x ≠ r.id := by rwa [hw.id_eq]
  rw [hsaved, Db.lookup_save_of_ne hid, ← hdb]
  exact hbase.lookup x

theorem building_of_target_ne (hfits : e.Fits s) (htarget : e.target ≠ some x)
    (hidle : s.building x = none) : (e.apply s).building x = none := by
  by_contra hb
  rcases (building_iff hfits).mp (Option.isSome_iff_ne_none.mpr hb) with ⟨q, hq, rfl⟩ | ⟨hheld, -⟩
  · obtain ⟨rfl, -⟩ := starts_eq hq
    exact htarget rfl
  · rw [hidle] at hheld
    cases hheld

/-- Does the event come with new files? -/
def Event.movesFiles : Event → Bool
  | .edit _ | .finish .. => true
  | _ => false

theorem apply_disk (h : e.movesFiles = false) : (e.apply s).disk = s.disk := by
  cases e with
  | edit | finish => cases h
  | attempt q =>
    rw [Event.apply]
    split
    · rfl
    · rename_i out _
      obtain ⟨o, w⟩ := out
      cases o <;> rfl
  | cacheHit | giveUp | ifchange | always | stamp =>
    rw [Event.apply]
    split <;> rfl
  | _ => rfl

theorem target_of_sorts (h : e.sorts = some x) : e.target = some x := by
  cases e with
  | attempt | cacheHit | finish => exact h
  | _ => cases h

theorem target_of_declares (h : e.declares = some x) : e.target = some x := by
  cases e with
  | ifchange | ifcreate | always => exact h
  | _ => cases h

/-- But for attempts, events are about targets that are being built. -/
theorem Event.Fits.held_target (hfits : e.Fits s) (hattempt : ∀ q, e ≠ .attempt q)
    (htarget : e.target = some x) : (s.building x).isSome = true := by
  cases e with
  | attempt q => exact absurd rfl (hattempt q)
  | cacheHit id =>
    cases htarget
    obtain ⟨sf, hb, -⟩ := hfits
    rw [hb]
    rfl
  | finish i scheduled disk =>
    cases htarget
    rw [hfits.1]
    rfl
  | ifchange id source | ifcreate id source =>
    cases htarget
    exact hfits.1
  | giveUp id | always id | stamp id csum | die id =>
    cases htarget
    exact hfits
  | _ => cases htarget

end Redo.Runs
