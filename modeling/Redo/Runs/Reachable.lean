import Redo.Runs.Attempts

/-! # The invariant over whole runs

Every event keeps the invariant, as long as `//ALWAYS` is left to `redo-always` and no build
succeeds on top of a failure that its row will not forget.
-/
namespace Redo.Runs
open State Dirtiness Override Completion

/-- The dependencies of a remote job name other files than `//ALWAYS`. -/
def OrdinaryRemote : Remote → Prop
  | .deps l => ∀ p ∈ l, p.2 ≠ some ALWAYS_ID
  | _ => True

/-- The row of a target whose build is about to be recorded: without a failure, or such that the
build clears it. -/
def ClearsFailure (R : RunId) (r : File) : Prop := r.failedRunid = none ∨ ¬Marked R r

/-- What has been rebuilt in this run is not modified. -/
def KeepsRebuilt (s : Project) (except : FileId → Prop) (disk : Disk) : Prop :=
  ∀ x r, s.rebuilt x = true → ¬except x → s.db.lookup x = some r →
    disk.readStamp r.name = s.disk.readStamp r.name

/-- Nothing is at the path of `//ALWAYS`, only `redo-always` names it, what has been rebuilt in the run
is not modified, and a build with code 0 leaves no failed mark. -/
def Event.Plain (s : Project) : Event → Prop
  | .edit disk => disk.readStamp ALWAYS = STAMP_MISSING ∧ KeepsRebuilt s (fun _ => False) disk
  | .attempt q => q.sf.name ≠ ALWAYS
  | .ifchange _ source => source ≠ ALWAYS_ID
  | .ifcreate _ source => source ≠ ALWAYS_ID
  | .finish i scheduled disk => disk.readStamp ALWAYS = STAMP_MISSING ∧
      KeepsRebuilt s (· = i.sf.id) disk ∧ OrdinaryRemote i.remote ∧
      ((outcome i scheduled).ended = .code 0 →
        ∀ r, s.db.lookup i.sf.id = some r → ClearsFailure s.R r)
  | _ => True

theorem keepsRebuilt_refl (s : Project) {except : FileId → Prop} : KeepsRebuilt s except s.disk :=
  fun _ _ _ _ _ => rfl

/-- When nothing else has been rebuilt in the run. -/
theorem keepsRebuilt_of_none {s : Project} {except : FileId → Prop}
    (h : ∀ x, ¬except x → s.rebuilt x = false) (disk : Disk) : KeepsRebuilt s except disk := by
  intro x r hb hx _
  rw [h x hx] at hb
  cases hb

def RunStep (s s' : Project) : Prop := ∃ e : Event, e.Fits s ∧ e.Plain s ∧ s' = e.apply s

variable {c : Context} {db : Db} {x : FileId} {f : File}

namespace Inv

theorem newRun (h : Inv c db) (hidle : ∀ x, c.building x = none) {R : RunId} (hR : c.R < R) :
    Inv { c with R, rebuilt := fun _ => false, foundClean := fun _ => false } db where
  positive := lt_trans h.positive hR
  absent := h.absent
  always := h.always
  rows {y r} hr := by
    have hrow := h.rows hr
    exact
      { changed := le_trans hrow.changed (le_of_lt hR)
        checked := le_trans hrow.checked (le_of_lt hR)
        known := hrow.known
        first := fun _ hc => by
          have hold : r.lastSeen < R := lt_of_le_of_lt hrow.lastSeen hR
          rw [isChecked_of_lastSeen_lt hold] at hc
          cases hc
        name := hrow.name
        always := hrow.always
        pending := fun _ _ _ _ => Or.inr (lt_of_le_of_lt hrow.lastSeen hR)
        rebuilt := nofun }
  held {y sf} hb := by
    rw [show c.building y = none from hidle y] at hb
    cases hb
  known := nofun
  idle := h.idle
  declared := h.declared
  current := h.current
  stamped := h.stamped

theorem edit (h : Inv c db) {disk : Disk} (habsent : disk.readStamp ALWAYS = STAMP_MISSING)
    (hkept : ∀ x r, c.rebuilt x = true → db.lookup x = some r →
      disk.readStamp r.name = c.disk.readStamp r.name) : Inv { c with disk } db :=
  { h with
    absent := habsent
    rows := fun {y r} hr =>
      have hrow := h.rows hr
      { changed := hrow.changed
        checked := hrow.checked
        known := hrow.known
        first := hrow.first
        name := hrow.name
        always := hrow.always
        pending := hrow.pending
        rebuilt := fun hb =>
          have hbuilt := hrow.rebuilt hb
          { hbuilt with stamp := by rw [hbuilt.stamp, ← hkept y r hb hr] } }
    held := fun hb =>
      have hheld := h.held hb
      ⟨⟨hheld.changed, hheld.checked, hheld.known, hheld.first⟩, hheld.id, hheld.notAlways,
        hheld.row, hheld.notRebuilt⟩ }

theorem lookup_insert {id : FileId} (name : String) (hnew : ∀ r ∈ db.files, r.id ≠ id)
    (x : FileId) : ({ db with files := db.files ++ [{ id, name }] } : Db).lookup x =
      if x = id then some { id, name } else db.lookup x := by
  rw [Db.lookup, List.find?_append]
  by_cases hx : x = id
  · subst hx
    have hnone : db.files.find? (·.id = x) = none := by
      rw [List.find?_eq_none]
      intro r hr
      simpa using hnew r hr
    simp [hnone]
  · have hsingle : [({ id, name } : File)].find? (·.id = x) = none := by
      simp [Ne.symm hx]
    rw [hsingle, Option.or_none, if_neg hx]
    rfl

theorem insert (h : Inv c db) {id : FileId} {name : String}
    (hnew : ∀ r ∈ db.files, r.id ≠ id ∧ r.name ≠ name) :
    Inv c { db with files := db.files ++ [{ id, name }] } := by
  have hlookup := lookup_insert name (fun r hr => (hnew r hr).1)
  obtain ⟨a, ha⟩ := Option.isSome_iff_exists.mp h.always
  have hmem : a ∈ db.files := List.mem_of_find?_eq_some ha
  have hid : id ≠ ALWAYS_ID := fun heq => (hnew a hmem).1 ((Db.lookup_id ha).trans heq.symm)
  have hname : name ≠ ALWAYS := by
    have haname : a.name = ALWAYS := (h.rows ha).name.mpr rfl
    exact fun heq => (hnew a hmem).2 (haname.trans heq.symm)
  have hfresh : db.lookup id = none := by
    rw [Db.lookup, List.find?_eq_none]
    intro r hr
    simpa using (hnew r hr).1
  exact
    { positive := h.positive
      absent := h.absent
      always := by
        rw [hlookup, if_neg (Ne.symm hid)]
        exact h.always
      rows := fun {y r} hr => by
        rw [hlookup] at hr
        split at hr
        · rename_i hy
          subst hy
          cases hr
          refine .of_marks ⟨le_of_lt h.positive, le_of_lt h.positive, ?_, fun _ hc => ?_⟩ hname hid
            (fun _ _ hgen => ?_) ?_
          · rintro (hc | hc) <;> cases hc
          · cases hc
          · cases hgen
          · cases hb : c.rebuilt y with
            | false => rfl
            | true =>
              have hsome := h.known hb
              rw [hfresh] at hsome
              cases hsome
        · exact h.rows hr
      held := fun {y sf} hb => by
        have hheld := h.held hb
        exact
          { hheld with
            row := by
              obtain ⟨r, hr, hrname⟩ := hheld.row
              have hy : y ≠ id := by
                rintro rfl
                rw [hfresh] at hr
                cases hr
              rw [hlookup, if_neg hy]
              exact ⟨r, hr, hrname⟩ }
      known := fun {y} hb => by
        rw [hlookup]
        split
        · rfl
        · exact h.known hb
      idle := h.idle
      declared := h.declared
      current := h.current
      stamped := fun hd r hr => by
        rw [hlookup, if_neg (Ne.symm hid)] at hr
        exact h.stamped hd r hr }

/-- Saving a fresh snapshot. -/
theorem save_byId (h : Inv c db) {y : FileId} (hf : db.byId c.R y = some f) (hy : y ≠ ALWAYS_ID) :
    Inv c (db.save f) := by
  have hid : f.id = y := Db.byId_id hf
  refine h.save (Named.of_byId hf) ?_ ?_
  · rw [hid]
    exact h.byId hf
  · rw [hid]
    exact fun hA => absurd hA hy

/-- A row that a builder saves for the target that it is building. -/
theorem save_held (h : Inv c db) {sf : File} (hb : c.building x = some sf) (hid : f.id = x)
    (hname : f.name = sf.name) (hmarks : Marks c x f)
    (hdone : c.recorded x = c.R ∨ f.failedRunid.isSome = true) : Inv c (db.save f) := by
  have hheld := h.held hb
  obtain ⟨r, hr, hrname⟩ := hheld.row
  have hne : f.name ≠ ALWAYS := by
    intro hA
    refine hheld.notAlways ((h.rows hr).name.mp ?_)
    rw [hrname, ← hname, hA]
  refine h.save ?_ ?_ ?_
  · intro r' hr'
    rw [hid, hr] at hr'
    cases hr'
    exact hrname.trans hname.symm
  · rw [hid]
    refine .of_marks hmarks hne hheld.notAlways (fun _ hlt _ _ => ?_) hheld.notRebuilt
    exact Or.inl (hdone.resolve_left (ne_of_lt hlt))
  · rw [hid]
    exact fun hA => absurd hA hheld.notAlways

/-- The last build is recorded; `called` is whether it called `redo-always`. -/
theorem record (h : Inv c db) (x : FileId) {called : Bool}
    (hcalled : called = true → Declares db x fun _ => True) :
    Inv { c with
      calledAlways := Function.update c.calledAlways x called
      recorded := Function.update c.recorded x c.R } db :=
  { h with
    rows := fun {y r} hr =>
      have hrow := h.rows (x := y) hr
      { changed := hrow.changed
        checked := hrow.checked
        known := hrow.known
        first := hrow.first
        name := hrow.name
        always := hrow.always
        rebuilt := hrow.rebuilt
        pending := fun hc hlt => by
          by_cases hy : y = x
          · subst hy
            simp at hlt
          · exact hrow.pending (by simpa [Function.update_of_ne hy] using hc)
              (by simpa [Function.update_of_ne hy] using hlt) }
    held := fun hb =>
      have hheld := h.held hb
      ⟨⟨hheld.changed, hheld.checked, hheld.known, hheld.first⟩, hheld.id, hheld.notAlways,
        hheld.row, hheld.notRebuilt⟩
    declared := fun {y} hc => by
      by_cases hy : y = x
      · subst hy
        exact hcalled (by simpa using hc)
      · exact h.declared (by simpa [Function.update_of_ne hy] using hc) }

/-- The builder lets go of the target. -/
theorem release (h : Inv c db) (x : FileId) :
    Inv { c with
      building := Function.update c.building x none
      callsAlways := Function.update c.callsAlways x false } db :=
  { h with
    rows := fun hr =>
      have hrow := h.rows hr
      ⟨⟨hrow.changed, hrow.checked, hrow.known, hrow.first⟩, hrow.name, hrow.always, hrow.pending,
        hrow.rebuilt⟩
    held := fun {y sf} hb => by
      by_cases hy : y = x
      · subst hy
        simp at hb
      · have hother : c.building y = some sf := by simpa [Function.update_of_ne hy] using hb
        have hheld := h.held hother
        exact ⟨⟨hheld.changed, hheld.checked, hheld.known, hheld.first⟩, hheld.id,
          hheld.notAlways, hheld.row, hheld.notRebuilt⟩
    idle := fun {y} hb => by
      by_cases hy : y = x
      · subst hy
        exact Function.update_self _ _ _
      · exact update_false (h.idle (by simpa [Function.update_of_ne hy] using hb))
    current := fun hc => h.current (of_update_false hc).2 }

/-- The recipe calls `redo-always`, and the row of `//ALWAYS` is ready. -/
theorem declareAlways (h : Inv c db) (hb : (c.building x).isSome = true)
    (hA : ∀ r, db.lookup ALWAYS_ID = some r → r.stamp = some STAMP_MISSING) :
    Inv { c with callsAlways := Function.update c.callsAlways x true }
      (db.addDep x 'm' ALWAYS_ID) := by
  have hkept : ∀ {y P}, y ≠ x → Declares db y P → Declares (db.addDep x 'm' ALWAYS_ID) y P := by
    rintro y P hy ⟨d, hd, ht, hrest⟩
    refine ⟨d, List.mem_append_left _ (List.mem_filter.mpr ⟨hd, ?_⟩), ht, hrest⟩
    have hother : ¬(d.target = x ∧ d.source = ALWAYS_ID) := by
      rintro ⟨hdx, -⟩
      exact hy (ht.symm.trans hdx)
    exact decide_eq_true hother
  have hnew : Declares (db.addDep x 'm' ALWAYS_ID) x (·.deleteMe = false) :=
    ⟨_, List.mem_append_right _ (List.mem_singleton.mpr rfl), rfl, rfl, rfl, rfl⟩
  exact
    { h with
      rows := fun hr =>
        have hrow := h.rows hr
        ⟨⟨hrow.changed, hrow.checked, hrow.known, hrow.first⟩, hrow.name, hrow.always,
          hrow.pending, hrow.rebuilt⟩
      held := fun hb =>
        have hheld := h.held hb
        ⟨⟨hheld.changed, hheld.checked, hheld.known, hheld.first⟩, hheld.id, hheld.notAlways,
          hheld.row, hheld.notRebuilt⟩
      idle := fun {y} hnone => by
        have hy : y ≠ x := by
          rintro rfl
          rw [show c.building y = none from hnone] at hb
          cases hb
        exact (Function.update_of_ne hy _ _).trans (h.idle hnone)
      declared := fun {y} hc => by
        by_cases hy : y = x
        · subst hy
          obtain ⟨d, hd, ht, hs, hm, -⟩ := hnew
          exact ⟨d, hd, ht, hs, hm, trivial⟩
        · exact hkept hy (h.declared hc)
      current := fun {y} hc => by
        by_cases hy : y = x
        · subst hy
          exact hnew
        · exact hkept hy (h.current (by simpa [Function.update_of_ne hy] using hc))
      stamped := fun _ => hA }

theorem save_always (h : Inv c db) {r : File} (hr : db.byId c.R ALWAYS_ID = some r) :
    Inv c (db.save (redoAlways c.R r)) := by
  have hrow := h.byId hr
  have hrid : r.id = ALWAYS_ID := Db.byId_id hr
  have hid : (redoAlways c.R r).id = ALWAYS_ID := hrid
  have hname : r.name = ALWAYS := hrow.name.mpr rfl
  refine h.save ?_ ?_ fun _ => rfl
  · intro r' hr'
    rw [hid, ← hrid] at hr'
    exact Named.of_byId hr r' hr'
  · rw [hid]
    exact
      { toMarks := hrow.toMarks.redoAlways
        name := iff_of_true hname rfl
        always := fun _ => ⟨rfl, rfl⟩
        pending := fun _ _ hgen => nomatch hgen
        rebuilt := fun _ =>
          { notFailed := rfl
            changed := rfl
            stamp := by
              have habsent : c.disk.readStamp (redoAlways c.R r).name = STAMP_MISSING := by
                rw [show (redoAlways c.R r).name = ALWAYS from hname]
                exact h.absent
              rw [habsent]
              rfl
            mark := Or.inr (by simp [File.isChanged, redoAlways, File.setChanged]) } }

/-- The row of a target that is being built, read back. -/
theorem refresh (h : Inv c db) {sf : File} (hb : c.building x = some sf) :
    db.byId c.R x = some (db.refresh c.R sf) ∧ (db.refresh c.R sf).name = sf.name := by
  have hheld := h.held hb
  obtain ⟨r, hr, hname⟩ := hheld.row
  have hby : db.byId c.R x = some (r.fromRow c.R) := by rw [Db.byId, hr]; rfl
  have hrefresh : db.refresh c.R sf = r.fromRow c.R := by rw [Db.refresh, hheld.id, hby]; rfl
  rw [hrefresh, File.fromRow_name]
  exact ⟨hby, hname⟩

theorem redeclare (h : Inv c db) (id : FileId) {l : List (Char × File)}
    (hl : ∀ p ∈ l, p.2.id ≠ ALWAYS_ID) :
    Inv c (l.foldl (fun db p => db.addDep id p.1 p.2.id) db) := by
  induction l generalizing db with
  | nil => exact h
  | cons p rest ih =>
    exact ih (h.addDep (hl p List.mem_cons_self) id p.1) fun q hq =>
      hl q (List.mem_cons_of_mem p hq)

theorem foldl_lookup (id y : FileId) (l : List (Char × File)) (db : Db) :
    (l.foldl (fun db p => db.addDep id p.1 p.2.id) db).lookup y = db.lookup y := by
  induction l generalizing db with
  | nil => rfl
  | cons p rest ih => exact ih (db.addDep id p.1 p.2.id)

/-- A hit records a build without `redo-always`. -/
theorem hit (h : Inv c db) {sf : File} (hb : c.building x = some sf)
    (hcsum : (db.refresh c.R sf).csum = none)
    (hdeps : ∀ p ∈ db.depsOf c.R sf, p.2.name ≠ ALWAYS) (n : Stamp) :
    Inv { c with
      calledAlways := Function.update c.calledAlways x false
      recorded := Function.update c.recorded x c.R } (hitDb c.R n sf db) := by
  obtain ⟨hby, hname⟩ := h.refresh hb
  have hid : sf.id = x := (h.held hb).id
  have hids : ∀ p ∈ db.depsOf c.R sf, p.2.id ≠ ALWAYS_ID := fun p hp hA =>
    hdeps p hp ((h.byId (Db.byId_of_mem_depsOf hp)).name.mpr hA)
  have hmarks := (h.byId hby).toMarks.cacheHitRow hcsum n
  have hrid : (db.refresh c.R sf).id = x := Db.byId_id hby
  have hrecorded : Inv { c with
      calledAlways := Function.update c.calledAlways x false
      recorded := Function.update c.recorded x c.R } _ := (h.redeclare sf.id hids).record x nofun
  refine (hrecorded.zapDeps2 ?_).save_held hb ?_ ?_ ?_ (Or.inl (Function.update_self _ _ _))
  · simp [hid]
  · exact (File.updateStamp_id _ _ _).trans hrid
  · exact (File.updateStamp_name _ _ _).trans hname
  · exact ⟨hmarks.changed, hmarks.checked, hmarks.known, hmarks.first⟩

theorem giveUp (h : Inv c db) {sf : File} (hb : c.building x = some sf) (n : Stamp) :
    Inv c (db.save (sf.setFailed c.R n)) :=
  h.save_held hb (by rw [File.setFailed_id, (h.held hb).id]) (File.setFailed_name _ _ _)
    ((h.held hb).toMarks.setFailed n) (Or.inr rfl)

theorem stamp (h : Inv c db) (hb : (c.building x).isSome = true)
    (hf : db.byId c.R x = some f) (csum : String) :
    Inv { c with recorded := Function.update c.recorded x c.R }
      (db.save (redoStamp c.R csum f)) := by
  obtain ⟨sf, hsf⟩ := Option.isSome_iff_exists.mp hb
  obtain ⟨hby, hsfname⟩ := h.refresh hsf
  rw [hf] at hby
  rw [← Option.some.inj hby] at hsfname
  have hmarks := (h.byId hf).toMarks.redoStamp csum
  have hrecorded := h.record x fun hc => h.declared hc
  rw [Function.update_eq_self] at hrecorded
  exact hrecorded.save_held hsf ((redoStamp_id _ _ _).trans (Db.byId_id hf))
    ((redoStamp_name _ _ _).trans hsfname)
    ⟨hmarks.changed, hmarks.checked, hmarks.known, hmarks.first⟩
    (Or.inl (Function.update_self _ _ _))

end Inv
end Redo.Runs
