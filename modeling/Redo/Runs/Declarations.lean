import Redo.Completion.Visible
import Redo.Runs.Selection

/-! # What a recipe declares

A declaration stays in the tables until the recipe ends, whatever the others do, and is one of the
dependencies that the completion leaves.
-/
namespace Redo.Runs
open State Override Completion

/-- There is a row for this name, and the target depends on it. -/
def Noted (db : Db) (x : FileId) (name : String) : Prop :=
  ∃ y r, db.lookup y = some r ∧ r.name = name ∧
    ∃ d ∈ db.deps, d.target = x ∧ d.source = y ∧ d.deleteMe = false

/-- The job on the server has reported the name. -/
def Reported (i : Input) (scheduled : Bool) (name : String) : Prop :=
  scheduled = true ∧ ∃ l, i.remote = .deps l ∧
    ∃ p ∈ l, ∃ y r, p.2 = some y ∧ i.db.lookup y = some r ∧ r.name = name

variable {s : Project} {e : Event} {db : Db} {x y : FileId} {name : String}

/-- Rows keep their names. -/
theorem Event.Fits.row_name (hfits : e.Fits s) (htidy : Tidy s) {r : File}
    (hr : s.db.lookup y = some r) : ∃ r', (e.apply s).db.lookup y = some r' ∧ r'.name = r.name := by
  have hknown : (s.db.lookup y).isSome = true := by
    rw [hr]
    rfl
  obtain ⟨r', hr'⟩ := Option.isSome_iff_exists.mp (hfits.known hknown)
  exact ⟨r', hr', (hfits.rewritten htidy hr').name htidy (.inl hr) hknown⟩

/-- A builder keeps what it holds until it is done. -/
theorem Event.Fits.held_kept (hfits : e.Fits s) {sf : File} (hsf : s.building x = some sf)
    (hreleases : e.releases ≠ some x) : (e.apply s).building x = some sf := by
  have hrelease : ∀ {b : FileId → Option File} {id : FileId}, b x = some sf → some id ≠ some x →
      Function.update b id none x = some sf := by
    intro b id hb hid
    rwa [Function.update_of_ne fun heq => hid (congrArg some heq.symm)]
  cases e with
  | newRun | edit | insert | isdirty | ifcreate => exact hsf
  | attempt q =>
    have hx : x ≠ q.sf.id := by
      rintro rfl
      rw [hfits.2.2.1] at hsf
      cases hsf
    rw [Event.apply]
    split
    · exact hsf
    · rename_i out _
      obtain ⟨o, w⟩ := out
      cases o <;> simp [Project.attemptedBy, Function.update_of_ne hx, hsf]
  | cacheHit id =>
    rw [Event.apply]
    split
    · exact hsf
    · exact hrelease hsf hreleases
  | giveUp id =>
    rw [Event.apply]
    split
    · exact hsf
    · exact hrelease hsf hreleases
  | ifchange | always | stamp =>
    rw [Event.apply]
    split <;> exact hsf
  | finish i scheduled disk => exact hrelease hsf hreleases
  | die id => exact hrelease hsf hreleases

/-- A declaration replaces the one before for the same two files. -/
theorem Noted.addDep (h : Noted db x name) (id : FileId) (mode : Char) (source : FileId) :
    Noted (db.addDep id mode source) x name := by
  obtain ⟨y, r, hr, hname, d, hd, rfl, rfl, hkept⟩ := h
  refine ⟨_, r, hr, hname, ?_⟩
  by_cases hkey : d.target = id ∧ d.source = source
  · obtain ⟨rfl, rfl⟩ := hkey
    exact ⟨_, List.mem_append_right _ (List.mem_singleton.mpr rfl), rfl, rfl, rfl⟩
  · exact ⟨d, List.mem_append_left _ (List.mem_filter.mpr ⟨hd, decide_eq_true hkey⟩), rfl, rfl, hkept⟩

theorem Noted.save (h : Noted db x name) {f : File} : Noted (db.save f) x name := by
  obtain ⟨y, r, hr, rfl, hd⟩ := h
  have hsaved : ∃ r', (db.save f).lookup y = some r' ∧ r'.name = r.name := by
    rw [Db.lookup_save, hr]
    split
    · exact ⟨_, rfl, rfl⟩
    · exact ⟨r, rfl, rfl⟩
  obtain ⟨r', hr', hname⟩ := hsaved
  exact ⟨y, r', hr', hname, hd⟩

theorem Noted.zapDeps2 (h : Noted db x name) (id : FileId) : Noted (db.zapDeps2 id) x name := by
  obtain ⟨y, r, hr, hname, d, hd, ht, hs, hkept⟩ := h
  refine ⟨y, r, hr, hname, d, List.mem_filter.mpr ⟨hd, ?_⟩, ht, hs, hkept⟩
  simp [hkept]

/-- What a recipe has declared stays declared until the recipe ends. -/
theorem Noted.apply (h : Noted s.db x name) (hfits : e.Fits s) (htidy : Tidy s)
    (hsorts : e.sorts ≠ some x) : Noted (e.apply s).db x name := by
  by_cases hdeclares : e.declares = some x
  · cases e with
    | ifchange id source =>
      rw [Event.apply]
      split
      · exact h
      · exact (h.addDep id 'm' source).save
    | ifcreate id source => exact h.addDep id 'c' source
    | always id =>
      rw [Event.apply]
      split
      · exact (h.addDep id 'm' ALWAYS_ID).save.save
      · exact h
    | _ => cases hdeclares
  · obtain ⟨y, r, hr, hname, d, hd, ht, hkept⟩ := h
    obtain ⟨r', hr', hname'⟩ := hfits.row_name htidy hr
    have hsame := hfits.sameDeps htidy.ids hsorts hdeclares
    exact ⟨y, r', hr', hname'.trans hname, d, (hsame.deps d ht).mpr hd, ht, hkept⟩

/-- The list of a job on a server. -/
theorem Noted.applyRemoteDeps (id : FileId) {l : List (Char × Option FileId)}
    (h : Noted db id name ∨ ∃ p ∈ l, ∃ y r, p.2 = some y ∧ db.lookup y = some r ∧ r.name = name)
    (hdone : (Input.applyRemoteDeps id l db).1 = 0) :
    Noted (Input.applyRemoteDeps id l db).2 id name := by
  induction l generalizing db with
  | nil =>
    rcases h with h | ⟨p, hp, -⟩
    · exact h
    · cases hp
  | cons p rest ih =>
    obtain ⟨mode, source⟩ := p
    cases source with
    | none => cases hdone
    | some source =>
      apply ih _ hdone
      rcases h with h | ⟨p, hp, y, r, hy, hr, hname⟩
      · exact .inl (h.addDep id mode source)
      · rcases List.mem_cons.mp hp with rfl | hp
        · cases hy
          exact .inl ⟨source, r, hr, hname, _, List.mem_append_right _ (List.mem_singleton.mpr rfl),
            rfl, rfl, rfl⟩
        · exact .inr ⟨p, hp, y, r, hy, hr, hname⟩

/-- A completion with code 0 keeps what has been declared, in the tables and on the list. -/
theorem Noted.finish {i : Input} {scheduled : Bool} (hcode : (outcome i scheduled).ended = .code 0)
    (h : Noted i.db i.sf.id name ∨ Reported i scheduled name) :
    Noted (outcome i scheduled).db i.sf.id name := by
  cases scheduled with
  | false =>
    rw [outcome, if_neg Bool.false_ne_true] at hcode ⊢
    obtain ⟨p, hp⟩ := i.buildOne_code_zero hcode
    rw [hp] at hcode ⊢
    rw [i.recordPlaced_code_zero hcode]
    rcases h with h | ⟨h, -⟩
    · exact (h.zapDeps2 _).save
    · cases h
  | true =>
    rw [outcome, if_pos rfl] at hcode ⊢
    obtain ⟨p, hp⟩ := i.schedule_code_zero hcode
    rw [hp] at hcode ⊢
    have hdone := ((i.scheduleRecord_code_iff p).mp hcode).2.1
    rw [i.scheduleRecord_code_zero hcode]
    have hremote : Noted i.applyRemote.2 i.sf.id name := by
      rw [Input.applyRemote] at hdone ⊢
      cases hl : i.remote with
      | off =>
        rcases h with h | ⟨-, l, hsome, -⟩
        · exact h
        · rw [hl] at hsome
          cases hsome
      | unreadable =>
        rw [hl] at hdone
        cases hdone
      | deps l =>
        rw [hl] at hdone
        refine Noted.applyRemoteDeps i.sf.id (h.imp_right ?_) hdone
        rintro ⟨-, l', hl', hp⟩
        rw [hl] at hl'
        cases hl'
        exact hp
    exact (hremote.zapDeps2 _).save

/-- What has been declared is among the dependencies that make the key. -/
theorem Noted.mem_depsOf {R : RunId} {sf : File} (h : Noted db x name) (hsf : db.byId R x = some sf)
    (hgen : sf.isGenerated = true) (hov : sf.isOverride = false) :
    ∃ p ∈ db.depsOf R sf, p.2.name = name := by
  obtain ⟨y, r, hr, rfl, d, hd, ht, rfl, -⟩ := h
  have hsource : db.byId R d.source = some (r.fromRow R) := by
    rw [Db.byId, hr]
    rfl
  have hid : d.target = sf.id := ht.trans (Db.byId_id hsf).symm
  exact ⟨(d.mode, r.fromRow R), Db.mem_depsOf.mpr ⟨hov, hgen, d, hd, hid, rfl, hsource⟩,
    File.fromRow_name R r⟩

/-- The row of a target just built. -/
theorem built_row {i : Input} {scheduled : Bool} (hcode : (outcome i scheduled).ended = .code 0)
    {r : File} (hr : i.db.lookup i.sf.id = some r) :
    ∃ sf, (outcome i scheduled).db.byId i.R i.sf.id = some sf ∧ sf.name = r.name ∧
      sf.isGenerated = true ∧ sf.isOverride = false := by
  have hsaves : i.SavesBuilt (outcome i scheduled) := by
    cases scheduled with
    | false => exact i.buildOne_saves hcode
    | true => exact i.schedule_saves hcode
  obtain ⟨db, hlookup, hdb⟩ := hsaves
  rw [hdb, Db.byId, Db.lookup_save, recordBuilt_id, refresh_id, if_pos rfl, hlookup, hr]
  refine ⟨_, rfl, ?_, ?_, ?_⟩
  · rw [File.fromRow_name]
  · rw [File.fromRow_isGenerated]
    exact recordBuilt_isGenerated _ _ _
  · rw [File.fromRow_isOverride]
    exact recordBuilt_isOverride _ _ _

end Redo.Runs
