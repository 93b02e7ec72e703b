import Redo.Runs.Marks

/-! # The invariant under the writes to the tables

Each write on its own: a row saved, dependencies dropped or declared. What a command does to the
tables is a sequence of these.
-/
namespace Redo.Runs
open State Dirtiness Override Completion

variable {c : Context} {db : Db} {x : FileId} {f g : File}

section Rows

theorem BuiltRow.fromRow {R : RunId} {disk : Disk} {r : File} (h : BuiltRow R disk r) :
    BuiltRow R disk (r.fromRow R) := by
  unfold File.fromRow
  split
  · exact ⟨h.notFailed, rfl, h.stamp, Or.inr (by simp [File.isChanged])⟩
  · exact h

theorem RowInv.fromRow {r : File} (h : RowInv c x r) : RowInv c x (r.fromRow c.R) where
  toMarks := h.toMarks.fromRow
  name := by
    rw [File.fromRow_name]
    exact h.name
  always hx := by
    rw [File.fromRow_isGenerated]
    refine ⟨?_, (h.always hx).2⟩
    unfold File.fromRow
    split <;> exact (h.always hx).1
  pending hc hb hgen hov := by
    have hname : r.name ≠ ALWAYS := by
      intro hn
      rw [File.fromRow_isGenerated, (h.always (h.name.mp hn)).2] at hgen
      cases hgen
    rw [File.fromRow_of_ne c.R r hname] at hgen hov ⊢
    exact h.pending hc hb hgen hov
  rebuilt hb := (h.rebuilt hb).fromRow

/-- A row that is saved for a target of which nothing is claimed at the moment. -/
theorem RowInv.of_marks (h : Marks c x f) (hname : f.name ≠ ALWAYS) (hx : x ≠ ALWAYS_ID)
    (hpending : c.calledAlways x = true → c.recorded x < c.R → f.isGenerated = true →
      f.isOverride = false → f.failedRunid.isSome = true ∨ f.lastSeen < c.R)
    (hrebuilt : c.rebuilt x = false) : RowInv c x f where
  toMarks := h
  name := iff_of_false hname hx
  always ha := absurd ha hx
  pending := hpending
  rebuilt hb := by
    rw [hrebuilt] at hb
    cases hb

/-- A `.do` file that has just been built stays as it is, but for being a source from now on. -/
theorem BuiltRow.setStatic {R : RunId} {disk : Disk} {r : File} (h : BuiltRow R disk r) :
    BuiltRow R disk (r.setStatic R (disk.readStamp r.name)) := by
  have hsame : r.updateStamp R (disk.readStamp r.name) = r := by
    rw [File.updateStamp, if_neg (by simp [h.stamp])]
  unfold File.setStatic
  rw [hsame]
  exact ⟨rfl, h.changed, h.stamp, h.mark⟩

theorem setStatic_name (R : RunId) (n : Stamp) (f : File) : (f.setStatic R n).name = f.name :=
  f.updateStamp_name R n

theorem setStatic_id (R : RunId) (n : Stamp) (f : File) : (f.setStatic R n).id = f.id :=
  f.updateStamp_id R n

theorem RowInv.setStatic (h : RowInv c x f) :
    RowInv c x (f.setStatic c.R (c.disk.readStamp f.name)) where
  toMarks := h.toMarks.setStatic _
  name := by
    rw [setStatic_name]
    exact h.name
  always _ := ⟨rfl, rfl⟩
  pending _ _ hgen := nomatch hgen
  rebuilt hb := (h.rebuilt hb).setStatic

end Rows

theorem Named.save (h : Named db g) (f : File) : Named (db.save f) g := by
  intro r hr
  rw [Db.lookup_save] at hr
  split at hr
  · obtain ⟨r', hr', rfl⟩ := Option.map_eq_some_iff.mp hr
    exact h r' hr'
  · exact h r hr

theorem Named.lookup_save (h : Named db f) (x : FileId) : (db.save f).lookup x =
    if x = f.id then (db.lookup x).map fun _ => f else db.lookup x := by
  rw [Db.lookup_save]
  by_cases hx : x = f.id
  · subst hx
    rw [if_pos rfl, if_pos rfl]
    cases hr : db.lookup f.id with
    | none => rfl
    | some r =>
      rw [Option.map_some, Option.map_some, h r hr]
  · rw [if_neg hx, if_neg hx]

theorem Named.of_byId {R : RunId} (h : db.byId R x = some f) : Named db f := by
  intro r hr
  rw [Db.byId_id h] at hr
  rw [Db.byId, hr] at h
  obtain rfl := Option.some.inj h
  exact (r.fromRow_name R).symm

namespace HeldInv
variable {sf : File}

theorem named (h : HeldInv c db x sf) : Named db sf := by
  obtain ⟨r, hr, hname⟩ := h.row
  intro r' hr'
  rw [h.id, hr] at hr'
  cases hr'
  exact hname

theorem of_lookup {db' : Db} (h : HeldInv c db x sf)
    (hdb : ∀ r, db.lookup x = some r → ∃ r', db'.lookup x = some r' ∧ r'.name = r.name) :
    HeldInv c db' x sf :=
  { h with
    row := by
      obtain ⟨r, hr, hname⟩ := h.row
      obtain ⟨r', hr', hname'⟩ := hdb r hr
      exact ⟨r', hr', hname'.trans hname⟩ }

end HeldInv

namespace Inv

theorem byId (h : Inv c db) (hf : db.byId c.R x = some f) : RowInv c x f := by
  obtain ⟨r, hr, rfl⟩ := Option.map_eq_some_iff.mp hf
  exact (h.rows hr).fromRow

theorem save (h : Inv c db) (hname : Named db f) (hf : RowInv c f.id f)
    (hA : f.id = ALWAYS_ID → f.stamp = some STAMP_MISSING) : Inv c (db.save f) where
  positive := h.positive
  absent := h.absent
  always := by
    rw [hname.lookup_save]
    split <;> simp [h.always]
  rows {y r} hr := by
    rw [hname.lookup_save] at hr
    split at hr
    · rename_i hy
      subst hy
      obtain ⟨-, -, rfl⟩ := Option.map_eq_some_iff.mp hr
      exact hf
    · exact h.rows hr
  held {y sf} hb := by
    refine (h.held hb).of_lookup fun r hr => ?_
    rw [hname.lookup_save, hr]
    split
    · rename_i hy
      subst hy
      exact ⟨f, rfl, (hname r hr).symm⟩
    · exact ⟨r, rfl, rfl⟩
  known {y} hb := by
    rw [hname.lookup_save]
    split <;> simp [h.known hb]
  idle := h.idle
  declared := h.declared
  current := h.current
  stamped hd r hr := by
    rw [hname.lookup_save] at hr
    split at hr
    · rename_i hy
      obtain ⟨-, -, rfl⟩ := Option.map_eq_some_iff.mp hr
      exact hA hy.symm
    · exact h.stamped hd r hr

/-- A change of the dependencies that keeps those on `//ALWAYS` that matter. -/
theorem withDeps (h : Inv c db) (deps : List Dep)
    (hdecl : ∀ {y}, c.calledAlways y = true → Declares { db with deps } y fun _ => True)
    (hcurrent : ∀ {y}, c.callsAlways y = true → Declares { db with deps } y (·.deleteMe = false))
    (hsource : (∃ d ∈ deps, d.source = ALWAYS_ID) → ∃ d ∈ db.deps, d.source = ALWAYS_ID) :
    Inv c { db with deps } where
  positive := h.positive
  absent := h.absent
  always := h.always
  rows := h.rows
  held hb := (h.held hb).of_lookup fun r hr => ⟨r, hr, rfl⟩
  known := h.known
  idle := h.idle
  declared := hdecl
  current := hcurrent
  stamped hd := h.stamped (hsource hd)

end Inv

/-- Marking for deletion keeps a dependency. -/
theorem Declares.zapDeps1 {P Q : Dep → Prop} (h : Declares db x P) (id : FileId)
    (hsame : ∀ d, P d → x ≠ id → Q d) (hmarked : ∀ d : Dep, x = id → Q { d with deleteMe := true }) :
    Declares (db.zapDeps1 id) x Q := by
  obtain ⟨d, hd, ht, hs, hm, hP⟩ := h
  by_cases hid : d.target = id
  · exact ⟨{ d with deleteMe := true }, List.mem_map.mpr ⟨d, hd, if_pos hid⟩, ht, hs, hm,
      hmarked d (ht.symm.trans hid)⟩
  · exact ⟨d, List.mem_map.mpr ⟨d, hd, if_neg hid⟩, ht, hs, hm,
      hsame d hP (fun hx => hid (ht.trans hx))⟩

theorem Declares.zapDeps2 {P : Dep → Prop} (h : Declares db x P) {id : FileId}
    (hkept : ∀ d, P d → x = id → d.deleteMe = false) : Declares (db.zapDeps2 id) x P := by
  obtain ⟨d, hd, ht, hs, hm, hP⟩ := h
  refine ⟨d, List.mem_filter.mpr ⟨hd, ?_⟩, ht, hs, hm, hP⟩
  have hdel : ¬(d.target = id ∧ d.deleteMe = true) := by
    rintro ⟨hid, hdel⟩
    rw [hkept d hP (ht.symm.trans hid)] at hdel
    cases hdel
  exact decide_eq_true hdel

theorem Declares.addDep {P : Dep → Prop} (h : Declares db x P) {source : FileId}
    (hs : source ≠ ALWAYS_ID) (id : FileId) (mode : Char) :
    Declares (db.addDep id mode source) x P := by
  obtain ⟨d, hd, ht, hsrc, hm, hP⟩ := h
  refine ⟨d, List.mem_append_left _ (List.mem_filter.mpr ⟨hd, ?_⟩), ht, hsrc, hm, hP⟩
  have hne : ¬(d.target = id ∧ d.source = source) := by
    rintro ⟨-, hds⟩
    exact hs (hds.symm.trans hsrc)
  exact decide_eq_true hne

namespace Inv

theorem zapDeps1 (h : Inv c db) {id : FileId} (hb : c.building id = none) :
    Inv c (db.zapDeps1 id) := by
  refine h.withDeps _ (fun hc => (h.declared hc).zapDeps1 id (fun _ hd _ => hd) fun _ _ => trivial)
    (fun hc => (h.current hc).zapDeps1 id (fun _ hd _ => hd) ?_) ?_
  · rintro d rfl
    rw [h.idle hb] at hc
    cases hc
  · rintro ⟨d, hd, hs⟩
    obtain ⟨d', hd', rfl⟩ := List.mem_map.mp hd
    refine ⟨d', hd', ?_⟩
    split at hs <;> exact hs

/-- The build that calls `redo-always` has declared it again. -/
theorem zapDeps2 (h : Inv c db) {id : FileId}
    (hcalls : c.calledAlways id = true → c.callsAlways id = true) : Inv c (db.zapDeps2 id) := by
  refine h.withDeps _ (fun {y} hc => ?_) (fun hc => (h.current hc).zapDeps2 fun _ hd _ => hd) ?_
  · by_cases hy : y = id
    · subst hy
      obtain ⟨d, hd, ht, hs, hm, -⟩ := (h.current (hcalls hc)).zapDeps2 fun _ hd _ => hd
      exact ⟨d, hd, ht, hs, hm, trivial⟩
    · exact (h.declared hc).zapDeps2 fun _ _ heq => absurd heq hy
  · rintro ⟨d, hd, hs⟩
    exact ⟨d, (List.mem_filter.mp hd).1, hs⟩

theorem addDep (h : Inv c db) {source : FileId} (hs : source ≠ ALWAYS_ID) (id : FileId)
    (mode : Char) : Inv c (db.addDep id mode source) := by
  refine h.withDeps _ (fun hc => (h.declared hc).addDep hs id mode)
    (fun hc => (h.current hc).addDep hs id mode) ?_
  rintro ⟨d, hd, hsrc⟩
  rcases List.mem_append.mp hd with hd | hd
  · exact ⟨d, (List.mem_filter.mp hd).1, hsrc⟩
  · rw [List.mem_singleton.mp hd] at hsrc
    exact absurd hsrc hs

/-- The rows of the candidates are read before anything is written. -/
theorem findDo (h : Inv c db) {sf : File} {candidates : List File}
    (hcand : ∀ cand ∈ candidates, RowInv c cand.id cand ∧ Named db cand ∧ cand.name ≠ ALWAYS) :
    Inv c (Cache.findDo c.disk c.R sf candidates db).2 := by
  induction candidates generalizing db with
  | nil => exact h
  | cons cand rest ih =>
    obtain ⟨hrow, hname, hne⟩ := hcand cand List.mem_cons_self
    have hid : cand.id ≠ ALWAYS_ID := fun hA => hne (hrow.name.mpr hA)
    rw [Cache.findDo]
    split
    · refine (h.addDep hid sf.id 'm').save ?_ ?_ ?_
      · intro r hr
        rw [setStatic_name]
        rw [setStatic_id] at hr
        exact hname r hr
      · rw [setStatic_id]
        exact hrow.setStatic
      · rw [setStatic_id]
        exact fun hA => absurd hA hid
    · exact ih (h.addDep hid sf.id 'c') fun d hd => hcand d (List.mem_cons_of_mem cand hd)

end Inv

theorem Declares.findDo {P : Dep → Prop} {disk : Disk} {R : RunId} {sf : File}
    {candidates : List File} (h : Declares db x P)
    (hcand : ∀ cand ∈ candidates, cand.id ≠ ALWAYS_ID) :
    Declares (Cache.findDo disk R sf candidates db).2 x P := by
  induction candidates generalizing db with
  | nil => exact h
  | cons cand rest ih =>
    have hid := hcand cand List.mem_cons_self
    rw [Cache.findDo]
    split
    · exact h.addDep hid sf.id 'm'
    · exact ih (h.addDep hid sf.id 'c') fun d hd => hcand d (List.mem_cons_of_mem cand hd)

end Redo.Runs
