import Redo.Completion.Twins

/-! # When code 0 means that the target is the output

A completion that ends with code 0 should leave the target as the output of the
recipe, and vouch that the recipe kept its hands off the target. The comparison
of times in whole seconds, `$3` that cannot be followed, and in
`schedule_build_one` the errors taken for absences, get in the way.
-/
namespace Redo.Completion
open State

/-- All of a node but its times. -/
def Node.shape (n : Node) : Bool × Bool × Bool × Bytes := (n.isDir, n.isLink, n.resolves, n.content)

/-- The same kind of file with the same content. -/
def Holds (actual wanted : Option Node) : Prop := actual.map Node.shape = wanted.map Node.shape

/-- Existence and modification time are as before, to the nanosecond; directories excepted. -/
def Unmodified (before : Option Metadata) (after : Option Node) : Prop :=
  before.any (·.isDir) = true ∨ after.any (·.isDir) = true ∨
    before.map (fun b => (b.mtime, b.mtimeNsec)) = after.map fun a => (a.mtime, a.mtimeNsec)

namespace Input
variable (i : Input)

/-- `$3` if it was created, else the captured stdout if there is any. -/
def expected : Option Node :=
  match i.tmp with
  | some n => some n
  | none => if i.stdout = [] then none else some { i.calls.newFile with content := i.stdout }

/-- The recipe kept to the rules, and the target is its output. -/
structure ExactOutput (o : Outcome) : Prop where
  unmodified : Unmodified i.before i.target
  notBoth : i.tmp = none ∨ i.stdout = []
  target : Holds o.paths.target i.expected

/-- The renaming goes well if it is tried. -/
def CanPlace (tmp : Option Node) : Prop :=
  i.calls.existsTmp tmp = true → i.calls.renameOk tmp i.target = true

/-- The target once it is unlinked, as far as it can be. -/
def unlinked : Option Node := if i.removable then none else i.target

/-- The target after placing `tmp`. -/
def placed (tmp : Option Node) : Option Node :=
  if i.calls.existsTmp tmp then tmp else i.unlinked

theorem unlinkTarget_target {p : Paths} (hp : p.target = i.target) :
    (i.calls.unlinkTargetBestEffort p).target = i.unlinked := by
  unfold Calls.unlinkTargetBestEffort unlinked removable
  rw [hp]
  split_ifs <;> simp [hp]

theorem finish_code_iff (sf : File) (db : Db) (finalRv : ℤ) (p : Paths) :
    (i.finish finalRv sf db p).ended = .code 0 ↔
      i.strictRefuses (db.depsOf i.R sf) = false ∧ finalRv = 0 := by
  have h := i.finish_failed_iff finalRv sf db p
  rw [Outcome.Failed, not_iff_comm] at h
  rw [← h]
  simp

theorem recordPlaced_code_iff (p : Paths) : (i.recordPlaced p).ended = .code 0 ↔
    i.calls.refresh = true ∧ i.strictRefuses (i.declared i.db) = false := by
  unfold recordPlaced
  cases i.calls.refresh with
  | false => simp [abort]
  | true =>
    simp only [not_true, if_false, true_and]
    rw [finish_code_iff, i.declared_eq i.db _ (refresh_id i.db i.R i.sf)]
    simp

@[simp] theorem recordPlaced_target (p : Paths) : (i.recordPlaced p).paths.target = p.target := by
  unfold recordPlaced
  cases i.calls.refresh with
  | false => rfl
  | true => exact i.finish_target _ _ _ _

theorem scheduleRecord_code_iff (p : Paths) :
    (i.scheduleRecord p).ended = .code 0 ↔ i.ScheduleRecords := by
  unfold scheduleRecord ScheduleRecords
  cases i.calls.refresh with
  | false => simp [recordFailure]
  | true =>
    simp only [not_true, if_false, true_and]
    rw [finish_code_iff, i.declared_eq i.applyRemote.2 _ (refresh_id i.db i.R i.sf)]
    exact and_comm

@[simp] theorem scheduleRecord_target (p : Paths) :
    (i.scheduleRecord p).paths.target = p.target := by
  unfold scheduleRecord
  cases i.calls.refresh with
  | false => exact i.recordFailure_target _ _ _ _
  | true => exact i.finish_target _ _ _ _

/-- With what result, and with what target, `build_one` places and records. -/
theorem placeAndRecord_code_iff {p : Paths} (hp : p.target = i.target) :
    (i.placeAndRecord 0 p).ended = .code 0 ↔
      i.CanPlace p.tmp ∧ i.calls.refresh = true ∧ i.strictRefuses (i.declared i.db) = false := by
  rw [placeAndRecord_zero, CanPlace]
  by_cases he : i.calls.existsTmp p.tmp = true
  · rw [if_pos he, Calls.durableRename, hp]
    cases i.calls.renameOk p.tmp i.target with
    | true => simpa using i.recordPlaced_code_iff _
    | false => simp [he, finish_code_iff]
  · rw [if_neg he, recordPlaced_code_iff]
    simp [he]

theorem placeAndRecord_target {p : Paths} (hp : p.target = i.target) (hc : i.CanPlace p.tmp) :
    (i.placeAndRecord 0 p).paths.target = i.placed p.tmp := by
  rw [placeAndRecord_zero, placed]
  by_cases he : i.calls.existsTmp p.tmp = true
  · rw [if_pos he, if_pos he, Calls.durableRename, hp, hc he]
    exact i.recordPlaced_target _
  · rw [if_neg he, if_neg he, recordPlaced_target, i.unlinkTarget_target hp]

theorem schedulePlace_code_iff {p : Paths} (hp : p.target = i.target) :
    (i.schedulePlace p).ended = .code 0 ↔ i.CanPlace p.tmp ∧ i.ScheduleRecords := by
  rw [schedulePlace, CanPlace]
  by_cases he : i.calls.existsTmp p.tmp = true
  · rw [if_pos he, Calls.durableRename, hp]
    cases i.calls.renameOk p.tmp i.target with
    | true => simpa using i.scheduleRecord_code_iff _
    | false => simp [he, recordFailure]
  · rw [if_neg he, scheduleRecord_code_iff]
    simp [he]

theorem schedulePlace_target {p : Paths} (hp : p.target = i.target) (hc : i.CanPlace p.tmp) :
    (i.schedulePlace p).paths.target = i.placed p.tmp := by
  rw [schedulePlace, placed]
  by_cases he : i.calls.existsTmp p.tmp = true
  · rw [if_pos he, if_pos he, Calls.durableRename, hp, hc he]
    exact i.scheduleRecord_target _
  · rw [if_neg he, if_neg he, scheduleRecord_target, i.unlinkTarget_target hp]

theorem createFile_none {newf : Node} (h : i.calls.createFile none = some newf) :
    newf = i.calls.newFile := by
  rw [Calls.createFile] at h
  split_ifs at h
  exact (Option.some.inj h).symm

/-- Recipes that use both outputs are not accepted. -/
theorem notBoth_of_examine {rv : ℤ} {before : Option Metadata} {afterT stTmp : Option Node}
    {outSize : ℕ} (h : examine rv before afterT stTmp outSize = 0) :
    stTmp = none ∨ outSize = 0 := by
  by_contra hne
  have hboth : (stTmp.isSome && decide (outSize > 0)) = true := by
    rw [not_or, ← ne_eq, ← Option.isSome_iff_ne_none] at hne
    simp [hne.1, Nat.pos_of_ne_zero hne.2]
  rw [examine] at h
  by_cases hrv : rv = 0
  · rw [if_pos hrv, if_pos hboth] at h
    cases h
  · rw [if_neg hrv] at h
    exact hrv h

theorem stdout_of_outSize (h : i.outSize = 0) : i.stdout = [] := List.length_eq_zero_iff.mp h

/-- When code 0 of `build_one` means exact output: the recipe did not touch the target within
the second, and if `$3` cannot be followed, unlinking leaves what is expected. -/
def BuildOneExact : Prop :=
  i.BuildOneAccepts → i.calls.refresh = true → i.strictRefuses (i.declared i.db) = false →
    (∀ newf, i.copies → i.calls.createFile i.tmp = some newf → i.copyOk →
      i.CanPlace (some newf) → Unmodified i.before i.target ∧
        (i.calls.existsTmp (some newf) = false → Holds i.unlinked i.expected)) ∧
    (¬i.copies → i.CanPlace i.tmp → Unmodified i.before i.target ∧
      (i.calls.existsTmp i.tmp = false → Holds i.unlinked i.expected))

/-- What is placed is what is expected, if `$3` can be followed. -/
theorem holds_placed_iff {tmp : Option Node}
    (h : i.calls.existsTmp tmp = true → Holds tmp i.expected) :
    Holds (i.placed tmp) i.expected ↔
      (i.calls.existsTmp tmp = false → Holds i.unlinked i.expected) := by
  unfold placed
  cases he : i.calls.existsTmp tmp with
  | true => simpa using h he
  | false => simp

theorem expected_of_exists (h : i.calls.existsTmp i.tmp = true) : Holds i.tmp i.expected := by
  rw [expected]
  cases htmp : i.tmp with
  | some n => rfl
  | none => simp [Calls.existsTmp, htmp] at h

theorem expected_copies {content : Bytes} (htmp : i.tmp = none) (hout : i.stdout ≠ [])
    {newf : Node} (hn : i.calls.createFile i.tmp = some newf) :
    Holds (some { newf with content }) i.expected ↔ content = i.stdout := by
  rw [htmp] at hn
  rw [i.createFile_none hn, expected, htmp]
  simp [hout, Holds, Node.shape]

theorem exactOutput_iff {o : Outcome} {tmp : Option Node} (h : o.paths.target = i.placed tmp) :
    i.ExactOutput o ↔ Unmodified i.before i.target ∧ (i.tmp = none ∨ i.stdout = []) ∧
      Holds (i.placed tmp) i.expected := by
  constructor
  · rintro ⟨hu, hb, ht⟩
    exact ⟨hu, hb, h ▸ ht⟩
  · rintro ⟨hu, hb, ht⟩
    exact ⟨hu, hb, h.symm ▸ ht⟩

theorem placeAndRecord_exact_iff {p : Paths} (hp : p.target = i.target) :
    ((i.placeAndRecord 0 p).ended = .code 0 → i.ExactOutput (i.placeAndRecord 0 p)) ↔
      (i.CanPlace p.tmp → i.calls.refresh = true → i.strictRefuses (i.declared i.db) = false →
        Unmodified i.before i.target ∧ (i.tmp = none ∨ i.stdout = []) ∧
          Holds (i.placed p.tmp) i.expected) := by
  rw [i.placeAndRecord_code_iff hp]
  constructor
  · intro h hcan hr hs
    exact (i.exactOutput_iff (i.placeAndRecord_target hp hcan)).mp (h ⟨hcan, hr, hs⟩)
  · rintro h ⟨hcan, hr, hs⟩
    exact (i.exactOutput_iff (i.placeAndRecord_target hp hcan)).mpr (h hcan hr hs)

theorem schedulePlace_exact_iff {p : Paths} (hp : p.target = i.target) :
    ((i.schedulePlace p).ended = .code 0 → i.ExactOutput (i.schedulePlace p)) ↔
      (i.CanPlace p.tmp → i.ScheduleRecords →
        Unmodified i.before i.target ∧ (i.tmp = none ∨ i.stdout = []) ∧
          Holds (i.placed p.tmp) i.expected) := by
  rw [i.schedulePlace_code_iff hp]
  constructor
  · intro h hcan hr
    exact (i.exactOutput_iff (i.schedulePlace_target hp hcan)).mp (h ⟨hcan, hr⟩)
  · rintro h ⟨hcan, hr⟩
    exact (i.exactOutput_iff (i.schedulePlace_target hp hcan)).mpr (h hcan hr)

theorem buildOne_exact_iff :
    (i.buildOne.ended = .code 0 → i.ExactOutput i.buildOne) ↔ i.BuildOneExact := by
  by_cases hl : i.StatsOk
  · by_cases he : examine i.rv i.before i.target i.tmp i.outSize = 0
    · have hacc : i.BuildOneAccepts := ⟨hl, he⟩
      have hboth : i.tmp = none ∨ i.stdout = [] :=
        (notBoth_of_examine he).imp_right i.stdout_of_outSize
      rw [i.buildOne_of_stats hl, if_pos he]
      by_cases hc : i.copies
      · rw [if_pos ⟨hc.1, by simp [hc.2]⟩]
        cases hn : i.calls.createFile i.tmp with
        | none =>
          rw [i.copyStdout_none hn]
          refine iff_of_true (fun h => ?_) fun _ _ _ => ⟨fun _ _ h => ?_, fun h => absurd hc h⟩
          · simp [placeAndRecord, finish_code_iff] at h
          · rw [hn] at h
            cases h
        | some newf =>
          by_cases hok : i.copyOk
          · rw [i.copyStdout_ok hn hok]
            have hhold : Holds (some { newf with content := i.stdout }) i.expected :=
              (i.expected_copies hc.2 (List.length_pos_iff.mp hc.1) hn).mpr rfl
            have hplace := i.placeAndRecord_exact_iff (p := { i.paths with
              tmp := some { newf with content := i.stdout } }) rfl
            rw [i.holds_placed_iff fun _ => hhold] at hplace
            refine hplace.trans ⟨fun h _ hr hs => ?_, fun h hcan hr hs => ?_⟩
            · refine ⟨fun f _ hf _ hcan => ?_, fun h => absurd hc h⟩
              rw [hn] at hf
              cases hf
              exact ⟨(h hcan hr hs).1, (h hcan hr hs).2.2⟩
            · obtain ⟨hu, ht⟩ := (h hacc hr hs).1 newf hc hn hok hcan
              exact ⟨hu, hboth, ht⟩
          · obtain ⟨p, hp, -⟩ := i.copyStdout_error hn hok
            rw [hp]
            refine iff_of_true (fun h => by cases h) fun _ _ _ => ?_
            exact ⟨fun _ _ _ h => absurd h hok, fun h => absurd hc h⟩
      · rw [if_neg (by rwa [Option.isNone_iff_eq_none])]
        have hplace := i.placeAndRecord_exact_iff (p := i.paths) rfl
        rw [show i.paths.tmp = i.tmp from rfl, i.holds_placed_iff i.expected_of_exists] at hplace
        refine hplace.trans ⟨fun h _ hr hs => ?_, fun h hcan hr hs => ?_⟩
        · refine ⟨fun _ h => absurd h hc, fun _ hcan => ?_⟩
          exact ⟨(h hcan hr hs).1, (h hcan hr hs).2.2⟩
        · obtain ⟨hu, ht⟩ := (h hacc hr hs).2 hc hcan
          exact ⟨hu, hboth, ht⟩
    · rw [i.buildOne_of_stats hl, if_neg he]
      refine iff_of_true (fun h => ?_) fun h => absurd h.2 he
      simp only [recordFailure, Ended.code.injEq] at h
      exact absurd h he
  · rw [i.buildOne_of_not_stats hl]
    exact iff_of_true (fun h => by cases h) fun h => absurd h.1 hl

/-- The errors that `schedule_build_one` ignores while it copies do no harm. -/
def CopyComplete : Prop :=
  (i.calls.seek = true ∨ i.offset = 0) ∧ (∀ k, i.calls.readErr = some k → i.outSize ≤ k) ∧
    ∀ k, i.calls.writeErr = some k → i.outSize ≤ k

/-- The content of `$3` after the copy of `schedule_build_one`. -/
def copied : Bytes :=
  (i.calls.writeAll
    (i.calls.readToEnd (if i.calls.seek then i.stdout else i.stdout.drop i.offset)).1).1

/-- A transfer that may stop early. -/
def cutShort (err : Option ℕ) (l : Bytes) : Bytes := err.elim l l.take

theorem readToEnd_fst (c : Calls) (l : Bytes) : (c.readToEnd l).1 = cutShort c.readErr l := by
  cases h : c.readErr <;> simp [Calls.readToEnd, cutShort, h]

theorem writeAll_fst (c : Calls) (l : Bytes) : (c.writeAll l).1 = cutShort c.writeErr l := by
  cases h : c.writeErr <;> simp [Calls.writeAll, cutShort, h]

theorem cutShort_length_le (err : Option ℕ) (l : Bytes) : (cutShort err l).length ≤ l.length := by
  cases err with
  | none => exact Nat.le_refl _
  | some k => exact List.length_take_le' k l

theorem cutShort_eq_self {err : Option ℕ} {l : Bytes} :
    l.length ≤ (cutShort err l).length ↔ ∀ k, err = some k → l.length ≤ k := by
  cases err with
  | none => simp [cutShort]
  | some k =>
    have hlen : (cutShort (some k) l).length = min k l.length := List.length_take
    rw [hlen]
    constructor
    · intro h j hj
      cases hj
      omega
    · intro h
      have hk := h k rfl
      omega

theorem cutShort_of_le {err : Option ℕ} {l : Bytes} (h : ∀ k, err = some k → l.length ≤ k) :
    cutShort err l = l := by
  cases err with
  | none => rfl
  | some k => exact List.take_of_length_le (h k rfl)

/-- Nothing is lost on the way exactly when no step on the way loses anything. -/
theorem copied_eq_iff (hout : i.stdout ≠ []) : i.copied = i.stdout ↔ i.CopyComplete := by
  have hpos : 0 < i.stdout.length := List.length_pos_iff.mpr hout
  rw [copied, writeAll_fst, readToEnd_fst, CopyComplete]
  constructor
  · intro h
    have hlen := congrArg List.length h
    have hw := cutShort_length_le i.calls.writeErr (cutShort i.calls.readErr
      (if i.calls.seek then i.stdout else i.stdout.drop i.offset))
    have hr := cutShort_length_le i.calls.readErr
      (if i.calls.seek then i.stdout else i.stdout.drop i.offset)
    have hd : (if i.calls.seek then i.stdout else i.stdout.drop i.offset).length =
        i.stdout.length ∧ (i.calls.seek = true ∨ i.offset = 0) := by
      cases hs : i.calls.seek with
      | true => simp
      | false =>
        simp only [hs, Bool.false_eq_true, if_false, List.length_drop] at hr hw hlen ⊢
        omega
    refine ⟨hd.2, ?_, ?_⟩
    · rw [outSize, ← hd.1]
      refine cutShort_eq_self.mp ?_
      omega
    · have hmid : (cutShort i.calls.readErr
          (if i.calls.seek then i.stdout else i.stdout.drop i.offset)).length =
            i.stdout.length := by omega
      rw [outSize, ← hmid]
      refine cutShort_eq_self.mp ?_
      omega
  · rintro ⟨hs, hr, hw⟩
    have hd : (if i.calls.seek then i.stdout else i.stdout.drop i.offset) = i.stdout := by
      rcases hs with hs | hs <;> simp [hs]
    rw [hd, cutShort_of_le hr, cutShort_of_le hw]

/-- When code 0 of `schedule_build_one` means exact output. -/
def ScheduleExact : Prop :=
  i.ScheduleAccepts → i.ScheduleRecords →
    (∀ newf, i.scheduleCopies → i.calls.createFile i.tmp = some newf → i.CanPlace (some newf) →
      Unmodified i.before i.target ∧ i.tmp = none ∧
        if i.calls.existsTmp (some newf) = true then i.CopyComplete
        else Holds i.unlinked i.expected) ∧
    (¬i.scheduleCopies → i.CanPlace i.tmp →
      Unmodified i.before i.target ∧ (i.tmp = none ∨ i.stdout = []) ∧
        (i.calls.existsTmp i.tmp = false → Holds i.unlinked i.expected))

theorem schedule_exact_iff :
    (i.schedule.ended = .code 0 → i.ExactOutput i.schedule) ↔ i.ScheduleExact := by
  by_cases he : i.ScheduleAccepts
  · by_cases hc : i.scheduleCopies
    · have hout : i.stdout ≠ [] := by
        have hsize := hc.1
        rw [seenSize] at hsize
        split_ifs at hsize
        · exact List.length_pos_iff.mp hsize
        · exact absurd hsize (by decide)
      rw [i.schedule_copy he hc]
      cases hn : i.calls.createFile i.tmp with
      | none =>
        have hcopy : i.copyStdoutIgnoringErrors = (209, i.paths) := by
          rw [copyStdoutIgnoringErrors, hn]
        rw [hcopy, if_neg (show (209 : ℤ) ≠ 0 by decide)]
        refine iff_of_true (fun h => ?_) fun _ _ => ⟨fun _ _ h => ?_, fun h => absurd hc h⟩
        · simp [recordFailure] at h
        · rw [hn] at h
          cases h
      | some newf =>
        have hcopy : i.copyStdoutIgnoringErrors =
            (0, { i.paths with tmp := some { newf with content := i.copied } }) := by
          rw [copyStdoutIgnoringErrors, hn]
          rfl
        rw [hcopy, if_pos rfl]
        have hplace := i.schedulePlace_exact_iff (p := { i.paths with
          tmp := some { newf with content := i.copied } }) rfl
        have htarget : i.tmp = none →
            (Holds (i.placed (some { newf with content := i.copied })) i.expected ↔
              if i.calls.existsTmp (some newf) = true then i.CopyComplete
              else Holds i.unlinked i.expected) := by
          intro htmp
          change Holds (if i.calls.existsTmp (some newf) = true then _ else _) _ ↔ _
          split_ifs
          · rw [i.expected_copies htmp hout hn, i.copied_eq_iff hout]
          · rfl
        have hnone : i.tmp = none ∨ i.stdout = [] → i.tmp = none :=
          fun h => h.resolve_right hout
        refine hplace.trans ⟨fun h _ hr => ?_, fun h hcan hr => ?_⟩
        · refine ⟨fun f _ hf hcan => ?_, fun h => absurd hc h⟩
          rw [hn] at hf
          cases hf
          obtain ⟨hu, hb, ht⟩ := h hcan hr
          exact ⟨hu, hnone hb, (htarget (hnone hb)).mp ht⟩
        · obtain ⟨hu, htmp, ht⟩ := (h he hr).1 newf hc hn hcan
          exact ⟨hu, .inl htmp, (htarget htmp).mpr ht⟩
    · rw [i.schedule_place he hc]
      have hplace := i.schedulePlace_exact_iff (p := i.paths) rfl
      rw [show i.paths.tmp = i.tmp from rfl, i.holds_placed_iff i.expected_of_exists] at hplace
      refine hplace.trans ⟨fun h _ hr => ?_, fun h hcan hr => (h he hr).2 hc hcan⟩
      exact ⟨fun _ h => absurd h hc, fun _ hcan => h hcan hr⟩
  · rw [i.schedule_reject he]
    refine iff_of_true (fun h => ?_) fun h => absurd h he
    simp only [recordFailure, Ended.code.injEq] at h
    exact absurd h he

end Input
/-- Exactly when code 0 means that the recipe kept to the rules and the target is its output. -/
theorem success_exact_iff (i : Input) :
    ((i.buildOne.ended = .code 0 → i.ExactOutput i.buildOne) ↔ i.BuildOneExact) ∧
      ((i.schedule.ended = .code 0 → i.ExactOutput i.schedule) ↔ i.ScheduleExact) :=
  ⟨i.buildOne_exact_iff, i.schedule_exact_iff⟩

theorem success_not_exact : ¬∀ i : Input,
    (i.buildOne.ended = .code 0 → i.ExactOutput i.buildOne) ∧
      (i.schedule.ended = .code 0 → i.ExactOutput i.schedule) := by
  intro h
  have hexact := ((h unreadableStdout).2 (by decide)).target
  revert hexact
  unfold Holds
  decide

end Redo.Completion
