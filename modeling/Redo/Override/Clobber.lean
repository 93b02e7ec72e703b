import Mathlib.Logic.Relation
import Redo.Completion.Failure
import Redo.Override.Site

/-! # User files are not clobbered

At the end of every redo operation a generated row has a stamp. A build that gets
past the override check has therefore compared that stamp with the file, and what
it replaces has the modification time and the size that redo recorded, but for
links that lead nowhere and sizes of files from before the epoch.
-/
namespace Redo.Override
open State Dirtiness Completion

variable {fmt : MtimeFormat} {id : FileId}

/-- What holds of the row of every path between operations. -/
def Stamped (r : File) : Prop := r.isGenerated = true → r.stamp.isSome = true

theorem stamped_kept (R : RunId) : Kept R Stamped where
  fromRow r h := by simpa [Stamped] using h
  checked f h := h
  forgotten f _ := by simp [Stamped]
  renamed f n h := h

theorem stamped_of_some {f : File} {n : Stamp} (h : f.stamp = some n) : Stamped f :=
  fun _ => by rw [h]; rfl

theorem setFailed_stamped {n : Stamp} (hn : n ≠ "") (R : RunId) (f : File) :
    Stamped (f.setFailed R n) :=
  stamped_of_some (f.updateStamp_stamp hn R)

theorem setOverride_stamped {n : Stamp} (hn : n ≠ "") (R : RunId) (f : File) :
    Stamped (f.setOverride R n) :=
  stamped_of_some (f.updateStamp_stamp hn R)

theorem setStatic_stamped (R : RunId) (n : Stamp) (f : File) : Stamped (f.setStatic R n) := by
  simp [Stamped, File.setStatic]

theorem cacheHitRow_stamped {n : Stamp} (hn : n ≠ "") (R : RunId) (f : File) :
    Stamped (cacheHitRow R n f) :=
  stamped_of_some (File.updateStamp_stamp hn R _)

theorem recordBuilt_stamped {n : Stamp} (hn : n ≠ "") (R : RunId) (f : File) :
    Stamped (recordBuilt R n f) := by
  unfold recordBuilt
  simp only
  split
  · exact stamped_of_some rfl
  · exact stamped_of_some (File.updateStamp_stamp hn R _)

theorem RowHas.of_save {db : Db} {f : File} (hid : f.id = id) (hrow : (db.lookup id).isSome)
    (hf : Stamped f) : RowHas id Stamped (db.save f) := by
  obtain ⟨r, hr⟩ := Option.isSome_iff_exists.mp hrow
  exact ⟨_, Db.lookup_save_self hid hr, hf⟩

section Outcomes
variable {i : Input} (hst : i.calls.readStamp = readStamp fmt)
include hst

theorem recordFailure_row (rv : ℤ) {sf : File} {db : Db} (p : Paths) (hsf : sf.id = id)
    (hrow : (db.lookup id).isSome) : RowHas id Stamped (i.recordFailure rv sf db p).db := by
  refine RowHas.of_save (by simpa using hsf) hrow (setFailed_stamped ?_ i.R sf)
  rw [hst]
  exact readStamp_ne_empty fmt p.target

theorem finish_row (rv : ℤ) {sf : File} {db : Db} (p : Paths) (hsf : sf.id = id)
    (hrow : (db.lookup id).isSome) (hs : Stamped sf) :
    RowHas id Stamped (i.finish rv sf db p).db := by
  unfold Input.finish
  generalize (if i.strictRefuses (db.depsOf i.R sf) = true then (218 : ℤ) else rv) = rv'
  by_cases hrv : rv' = 0
  · simp only [hrv, if_true]
    exact RowHas.of_save hsf hrow hs
  · simp only [hrv, if_false]
    exact recordFailure_row hst _ p hsf hrow

variable (hid : i.sf.id = id)
include hid

theorem recordPlaced_row {p : Paths} (h : (i.recordPlaced p).ended ≠ .error) :
    RowHas id Stamped (i.recordPlaced p).db := by
  unfold Input.recordPlaced at h ⊢
  cases hr : i.calls.refresh with
  | false => simp [hr, Input.abort] at h
  | true =>
    refine finish_row hst 0 p ?_ (hid ▸ i.row) ?_
    · rw [recordBuilt_id, refresh_id, hid]
    · rw [hst]
      exact recordBuilt_stamped (readStamp_ne_empty fmt _) _ _

theorem placeAndRecord_row {rv : ℤ} {p : Paths} (h : (i.placeAndRecord rv p).ended ≠ .error) :
    RowHas id Stamped (i.placeAndRecord rv p).db := by
  have hfail : ∀ rv p, RowHas id Stamped (i.finish rv
      (recordBuilt i.R (i.calls.readStamp p.target) i.sf)
      (i.db.zapDeps2 (recordBuilt i.R (i.calls.readStamp p.target) i.sf).id) p).db := by
    intro rv p
    refine finish_row hst rv p (by rw [recordBuilt_id, hid]) (hid ▸ i.row) ?_
    rw [hst]
    exact recordBuilt_stamped (readStamp_ne_empty fmt _) _ _
  by_cases hrv : rv = 0
  · subst hrv
    rw [i.placeAndRecord_zero] at h ⊢
    split_ifs at h ⊢ with he
    · cases hd : i.calls.durableRename p with
      | none => exact hfail 209 p
      | some p' =>
        rw [hd] at h
        exact recordPlaced_row hst hid h
    · exact recordPlaced_row hst hid h
  · have hplace : i.placeAndRecord rv p = i.finish rv
        (recordBuilt i.R (i.calls.readStamp (i.calls.unlinkTargetBestEffort p).target) i.sf)
        (i.db.zapDeps2 (recordBuilt i.R
          (i.calls.readStamp (i.calls.unlinkTargetBestEffort p).target) i.sf).id)
        (i.calls.unlinkTargetBestEffort p) := by
      simp [Input.placeAndRecord, hrv]
    rw [hplace]
    exact hfail rv _

theorem buildOne_row (h : i.buildOne.ended ≠ .error) : RowHas id Stamped i.buildOne.db := by
  by_cases hs : i.StatsOk
  · rw [i.buildOne_of_stats hs] at h ⊢
    split_ifs at h ⊢ with he hc
    · cases hcopy : i.copyStdout with
      | error p =>
        rw [hcopy] at h
        exact absurd rfl h
      | ok q =>
        rw [hcopy] at h
        exact placeAndRecord_row hst hid h
    · exact placeAndRecord_row hst hid h
    · exact recordFailure_row hst _ _ hid (hid ▸ i.row)
  · rw [i.buildOne_of_not_stats hs] at h
    exact absurd rfl h

theorem scheduleRecord_row (p : Paths) : RowHas id Stamped (i.scheduleRecord p).db := by
  have hrow : (i.db.lookup id).isSome := hid ▸ i.row
  unfold Input.scheduleRecord
  cases i.calls.refresh with
  | false => exact recordFailure_row hst 209 p hid hrow
  | true =>
    refine finish_row hst _ p ?_ ?_ ?_
    · rw [recordBuilt_id, refresh_id, hid]
    · change (i.applyRemote.2.lookup id).isSome = true
      rwa [Input.applyRemote_lookup]
    · rw [hst]
      exact recordBuilt_stamped (readStamp_ne_empty fmt _) _ _

theorem schedulePlace_row (p : Paths) : RowHas id Stamped (i.schedulePlace p).db := by
  unfold Input.schedulePlace
  split
  · split
    · exact scheduleRecord_row hst hid _
    · exact recordFailure_row hst 209 _ hid (hid ▸ i.row)
  · exact scheduleRecord_row hst hid _

theorem schedule_row : RowHas id Stamped i.schedule.db := by
  have hrow : (i.db.lookup id).isSome := hid ▸ i.row
  by_cases he : i.ScheduleAccepts
  · by_cases hc : i.scheduleCopies
    · rw [i.schedule_copy he hc]
      split_ifs
      · exact schedulePlace_row hst hid _
      · exact recordFailure_row hst _ _ hid hrow
    · rw [i.schedule_place he hc]
      exact schedulePlace_row hst hid _
  · rw [i.schedule_reject he]
    exact recordFailure_row hst _ _ hid hrow

end Outcomes

theorem decideBuild_record {R : RunId} {newstamp : Stamp} {present hasRule : Bool} {sf sf' : File}
    (hne : newstamp ≠ "") (h : decideBuild R newstamp present hasRule sf = .record sf') :
    sf'.id = sf.id ∧ Stamped sf' := by
  have hid := persistNewTargetIntent_id present sf
  rcases decideBuild_cases R newstamp present hasRule sf with
    ⟨-, -, he⟩ | ⟨-, -, he⟩ | ⟨-, -, -, he⟩ | ⟨-, -, he⟩ <;> rw [he] at h
  · cases h
  · cases h
    exact ⟨sf.updateStamp_id R _, setOverride_stamped hne R sf⟩
  · cases h
    exact ⟨sf.updateStamp_id R _, setStatic_stamped R _ sf⟩
  · cases hasRule with
    | true => simp at h
    | false =>
      simp only [Bool.false_eq_true, if_false] at h
      split at h <;> cases h
      · exact ⟨(File.updateStamp_id R _ _).trans hid, setStatic_stamped R _ _⟩
      · exact ⟨(File.setFailed_id R _ _).trans hid, setFailed_stamped hne R _⟩

/-- A build goes on only if nothing there is overridden, and only over targets. -/
theorem decideBuild_build {R : RunId} {newstamp : Stamp} {present hasRule : Bool} {sf sf' : File}
    (h : decideBuild R newstamp present hasRule sf = .build sf') :
    sf'.id = sf.id ∧ overridden newstamp sf = false ∧
      (present = true → sf.isGenerated = true) := by
  rcases decideBuild_cases R newstamp present hasRule sf with
    ⟨-, -, he⟩ | ⟨-, -, he⟩ | ⟨-, -, -, he⟩ | ⟨ho, hgen, he⟩ <;> rw [he] at h
  · cases h
  · cases h
  · cases h
  · cases hasRule with
    | true =>
      cases h
      exact ⟨persistNewTargetIntent_id present sf, ho, hgen⟩
    | false =>
      simp only [Bool.false_eq_true, if_false] at h
      split at h <;> cases h

/-- Every way out of a build leaves the row with a stamp if it is generated. -/
theorem BuildStep.stamped {s s' : Site} {touched : Bool} (h : BuildStep fmt id s s' touched)
    (hs : RowHas id Stamped s.db) : RowHas id Stamped s'.db := by
  cases h with
  | skipped => exact hs
  | recorded row h kept =>
    obtain ⟨hid, hst⟩ := decideBuild_record (readStamp_ne_empty fmt _) h
    refine RowHas.of_save (hid.trans (Db.byId_id row)) ?_ hst
    obtain ⟨r, hr, -⟩ := hs
    rw [kept, hr]
    rfl
  | depFailed row h kept =>
    have hid := (decideBuild_build h).1
    exact RowHas.of_save ((File.setFailed_id _ _ _).trans (hid.trans (Db.byId_id row))) kept
      (setFailed_stamped (readStamp_ne_empty fmt _) _ _)
  | cacheHit row h kept =>
    have hid := (decideBuild_build h).1
    refine RowHas.of_save ?_ kept (cacheHitRow_stamped (readStamp_ne_empty fmt _) _ _)
    rw [cacheHitRow, File.updateStamp_id]
    exact (refresh_id _ _ _).trans (hid.trans (Db.byId_id row))
  | ran row h run before stamps which normal =>
    have hid := (decideBuild_build h).1.trans (Db.byId_id row)
    rcases which with rfl | rfl
    · exact buildOne_row stamps hid normal
    · exact schedule_row stamps hid

theorem Step.stamped {s s' : Site} (h : Step fmt id s s') (hs : RowHas id Stamped s.db) :
    RowHas id Stamped s'.db := by
  cases h with
  | user => exact hs
  | walk preflight disk mx root _ =>
    exact isdirtyDefault_keeps (stamped_kept _) preflight disk hs root mx
  | elsewhere kept =>
    obtain ⟨r, hr, hp⟩ := hs
    exact ⟨r, kept.trans hr, hp⟩
  | build h => exact h.stamped hs

variable (id) in
/-- The path of a file that the tables have just heard of. -/
def Fresh (s : Site) : Prop := ∃ name, s.db.lookup id = some { id, name }

theorem stamped_of_reachable {s₀ s : Site} (h₀ : Fresh id s₀)
    (h : Relation.ReflTransGen (Step fmt id) s₀ s) : RowHas id Stamped s.db := by
  induction h with
  | refl =>
    obtain ⟨name, hname⟩ := h₀
    exact ⟨_, hname, fun hg => by cases hg⟩
  | tail _ hstep ih => exact hstep.stamped ih

variable (fmt id) in
/-- The file is absent, or redo's own by modification time and size. -/
def MayReplace (s : Site) : Prop :=
  s.node = none ∨ ∃ r st, s.db.lookup id = some r ∧ r.isGenerated = true ∧ r.isOverride = false ∧
    r.stamp = some st ∧ mtimeAndSize st.toList = mtimeAndSize (readStamp fmt s.node).toList

variable (fmt id) in
/-- There is no link that leads nowhere under a row that is not generated, and no file from
before the epoch under a row that recorded its time with another size. -/
def NotMisjudged (s : Site) : Prop :=
  ∀ r n, s.db.lookup id = some r → s.node = some n →
    (r.isGenerated = false → n.resolves = true) ∧
      ∀ st, r.stamp = some st → r.isGenerated = true → r.isOverride = false →
        ¬PreEpochResized st (readStamp fmt (some n))

/-- What a build replaces has passed the override check. -/
theorem BuildStep.decided {s s' : Site} {touched : Bool} (h : BuildStep fmt id s s' touched)
    (ht : touched = true) :
    ∃ R sf sf', s.db.byId R id = some sf ∧ s.decide fmt R true sf = .build sf' := by
  cases h with
  | skipped => cases ht
  | recorded => cases ht
  | depFailed => cases ht
  | cacheHit row h _ => exact ⟨_, _, _, row, h⟩
  | ran row h _ _ _ _ _ => exact ⟨_, _, _, row, h⟩

/-- The override check compares the stamp of a generated row that is not overridden. -/
theorem overridden_of_generated {n : Node} {sf : File} {st : Stamp} (hg : sf.isGenerated = true)
    (hst : sf.stamp = some st) : overridden (readStamp fmt (some n)) sf =
      (sf.isOverride || detectOverride st (readStamp fmt (some n))) := by
  have hne := readStamp_ne_missing fmt n
  simp [overridden, hg, hst, hne]

/-- What the check lets through may be replaced, up to its two mistakes. -/
theorem mayReplace_iff {s : Site} (hs : RowHas id Stamped s.db) {R : RunId} {sf sf' : File}
    (row : s.db.byId R id = some sf) (h : s.decide fmt R true sf = .build sf') :
    MayReplace fmt id s ↔ NotMisjudged fmt id s := by
  obtain ⟨-, hover, hpath⟩ := decideBuild_build h
  obtain ⟨r, hr, hstamped⟩ := hs
  have hsf : sf = r.fromRow R := by
    rw [Db.byId, hr] at row
    exact (Option.some.inj row).symm
  subst hsf
  rw [File.fromRow_isGenerated] at hpath
  cases hn : s.node with
  | none => exact iff_of_true (Or.inl hn) fun r' n _ hn' => by rw [hn] at hn'; cases hn'
  | some n =>
    rw [hn] at hover hpath
    cases hg : r.isGenerated with
    | false =>
      -- nothing but a link that leads nowhere is both at the path and not there
      have hres : n.resolves = false := by
        cases hres : n.resolves with
        | false => rfl
        | true => exact absurd (hpath hres) (by simp [hg])
      refine iff_of_false ?_ ?_
      · rintro (hnone | ⟨r', st, hr', hg', -⟩)
        · rw [hn] at hnone
          cases hnone
        · rw [hr] at hr'
          cases hr'
          rw [hg] at hg'
          cases hg'
      · intro hnot
        have hres' := (hnot r n hr hn).1 hg
        rw [hres] at hres'
        cases hres'
    | true =>
      obtain ⟨st, hst⟩ := Option.isSome_iff_exists.mp (hstamped hg)
      have hst' : (r.fromRow R).stamp = some st := by simpa using hst
      rw [overridden_of_generated (by simpa using hg) hst', Bool.or_eq_false_iff,
        File.fromRow_isOverride] at hover
      obtain ⟨hov, hdetect⟩ := hover
      constructor
      · rintro (hnone | ⟨r', st', hr', -, -, hst', hfields⟩)
        · rw [hn] at hnone
          cases hnone
        · intro r'' n' hr'' hn'
          rw [hr] at hr' hr''
          cases hr'
          cases hr''
          rw [hn] at hn' hfields
          cases hn'
          constructor
          · intro hg'
            rw [hg] at hg'
            cases hg'
          · intro st'' hst'' _ _ hre
            obtain ⟨-, -, -, hsize⟩ := hre
            rw [hst'] at hst''
            cases hst''
            exact hsize (congrArg Prod.snd hfields)
      · intro hnot
        refine Or.inr ⟨r, st, hr, hg, hov, hst, ?_⟩
        rw [hn]
        exact fields_of_not_detectOverride hdetect ((hnot r n hr hn).2 st hst hg hov)

/-- In every history, a build that renames over or unlinks the file at the path does so to
a file that is absent or redo's own, unless the override check misjudges what is there. -/
theorem replaces_own_iff {s₀ s s' : Site} (h₀ : Fresh id s₀)
    (hs : Relation.ReflTransGen (Step fmt id) s₀ s) (h : BuildStep fmt id s s' true) :
    MayReplace fmt id s ↔ NotMisjudged fmt id s := by
  obtain ⟨R, sf, sf', row, hdecide⟩ := h.decided rfl
  exact mayReplace_iff (stamped_of_reachable h₀ hs) row hdecide

/-- The text of whole seconds. -/
def wholeSeconds : MtimeFormat where
  text s _ := (if s < 0 then ['-'] else []) ++ digits s.natAbs ++ ".000000".toList
  ne_nil s _ := by simp
  sign s _ := by
    by_cases hs : s < 0
    · simp [hs]
    · have hd := digits_no_dash s.natAbs
      simp only [hs, if_false, List.nil_append, iff_false]
      cases hl : digits s.natAbs with
      | nil => decide
      | cons c cs =>
        rw [hl] at hd
        simp only [List.cons_append, List.head?_cons, Option.some.injEq]
        rintro rfl
        exact hd List.mem_cons_self
  dash s _ := by
    have hd := digits_no_dash s.natAbs
    have hfrac : '-' ∉ ".000000".toList := by decide
    intro h
    by_cases hs : s < 0
    · simp only [hs, if_true, List.cons_append, List.tail_cons, List.nil_append,
        List.mem_append] at h
      exact h.elim hd hfrac
    · simp only [hs, if_false, List.nil_append] at h
      exact (List.mem_append.mp (List.mem_of_mem_tail h)).elim hd hfrac

/-- A recipe for the target `t`, started on this snapshot, that leaves three bytes in `$3`. -/
def threeBytes (R : RunId) (sf : File) (node : Option Node) : Input where
  R
  rv := 0
  before := node.map Node.toMetadata
  target := node
  tmp := some { mtime := 7, size := 3, ino := 12, content := [1, 2, 3] }
  stdout := []
  offset := 0
  sf
  db := { files := [sf] }
  calls := { created := { mtime := 7 }, readStamp := readStamp wholeSeconds }
  row := by simp [Db.lookup]

/-- A path that redo has just heard of, with this at it. -/
def heard (node : Option Node) : Site := ⟨{ files := [{ id := 1, name := "t" }] }, node⟩

/-- The row that the first build of `t` works on. -/
def intended : File := { id := 1, name := "t", isGenerated := true }

/-- After the first build of `t`, over what was there. -/
def afterFirst (node : Option Node) : Site :=
  ⟨(threeBytes 1 intended node).schedule.db, (threeBytes 1 intended node).schedule.paths.target⟩

theorem afterFirst_builds {node : Option Node} (h : pathExists node = false)
    (normal : (threeBytes 1 intended node).schedule.ended ≠ .error) :
    BuildStep wholeSeconds 1 (heard node) (afterFirst node)
      (threeBytes 1 intended node).schedule.paths.touched := by
  have row : (heard node).db.byId 1 1 = some { id := 1, name := "t" } := rfl
  refine .ran row ?_ rfl rfl rfl (Or.inr rfl) normal
  simp [Site.decide, decideBuild, overridden, h, persistNewTargetIntent, intended, heard,
    threeBytes]

/-- Built in one run, and built again over its own output in the next. -/
theorem replaces_own_iff_rebuilt :
    MayReplace wholeSeconds 1 (afterFirst none) ↔ NotMisjudged wholeSeconds 1 (afterFirst none) :=
  have first : BuildStep wholeSeconds 1 (heard none) (afterFirst none) true :=
    afterFirst_builds rfl (by decide)
  have again : BuildStep wholeSeconds 1 (afterFirst none) _ true :=
    .ran (R := 2) (i := threeBytes 2 _ (afterFirst none).node) rfl rfl rfl rfl rfl (Or.inr rfl)
      (by decide)
  replaces_own_iff ⟨"t", rfl⟩ (Relation.ReflTransGen.single (.build first)) again

/-- A link that the user has made to a file that is not there. -/
def dangling : Node where
  mtime := 5
  size := 9
  ino := 11
  isLink := true
  resolves := false
  post := "0"

/-- The link is not seen, and the first build of the target renames over it. -/
theorem not_replaces_own : ¬∀ (fmt : MtimeFormat) (id : FileId) (s₀ s s' : Site), Fresh id s₀ →
    Relation.ReflTransGen (Step fmt id) s₀ s → BuildStep fmt id s s' true →
      MayReplace fmt id s := by
  intro h
  have first : BuildStep wholeSeconds 1 (heard dangling) (afterFirst dangling) true :=
    afterFirst_builds rfl (by decide)
  have user : Step wholeSeconds 1 (heard none) (heard dangling) := .user dangling
  rcases h wholeSeconds 1 _ _ _ ⟨"t", rfl⟩ (Relation.ReflTransGen.single user) first with
    hnone | ⟨r, st, hr, hg, -⟩
  · cases hnone
  · cases hr
    cases hg

end Redo.Override
