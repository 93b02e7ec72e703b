import Mathlib.Data.Finset.Card
import Mathlib.Data.Finset.Lattice.Basic
import Redo.Logs.Lines
import Redo.Remote.Downloads

/-! # The progress of a build

`redo-log` sorts the targets that the lines mention into sets, and counts them for the status line.
-/
namespace Redo.Logs
open Library Remote Cache Paths

structure Progress where
  seen : Finset Text := ∅
  running : Finset Text := ∅
  done : Finset Text := ∅
  failed : Finset Text := ∅
  uptodate : Finset Text := ∅
  plannedSteps : Option (Finset Text) := none
  planDirtyTotal : Option ℕ := none
  planTotal : Option ℕ := none
  planUptodateTotal : Option ℕ := none

namespace Progress

def hasDirtyPlan (p : Progress) : Bool := p.planDirtyTotal.isSome

def setPlanTotals (p : Progress) (dirty total uptodate : ℕ) : Progress :=
  { p with planDirtyTotal := some dirty, planTotal := some total, planUptodateTotal := some uptodate }

def noteSeen (p : Progress) (key : Text) : Progress := { p with seen := insert key p.seen }

def noteStarted (p : Progress) (key : Text) : Progress :=
  { p with
    seen := insert key p.seen
    running := insert key p.running
    done := p.done.erase key
    uptodate := p.uptodate.erase key
    failed := p.failed.erase key }

def noteRunning (p : Progress) (key : Text) : Progress :=
  { p with seen := insert key p.seen, running := insert key p.running }

def noteUnchanged (p : Progress) (key : Text) : Progress :=
  { p with
    seen := insert key p.seen
    running := p.running.erase key
    done := insert key p.done
    uptodate := p.uptodate.erase key
    failed := p.failed.erase key }

def noteUptodate (p : Progress) (key : Text) : Progress :=
  { p with
    seen := insert key p.seen
    running := p.running.erase key
    done := p.done.erase key
    failed := p.failed.erase key
    uptodate := insert key p.uptodate }

def noteDone (p : Progress) (key : Text) (rv : ℤ) : Progress :=
  { p with
    seen := insert key p.seen
    running := p.running.erase key
    done := insert key p.done
    uptodate := p.uptodate.erase key
    failed := if rv ≠ 0 then insert key p.failed else p.failed.erase key }

end Progress

def absKey (topdir mydir p : Text) : Text := normalize (push (push topdir mydir) p)

def parseUsize (t : Text) : Option ℕ := parseUnsigned 18446744073709551616 t

/-- One word of a plan. A later word for the same total counts. -/
def planWord (n : Option ℕ × Option ℕ × Option ℕ) (w : Text) : Option ℕ × Option ℕ × Option ℕ :=
  match splitOnce ['='] w with
  | some (k, v) =>
    if k = "dirty".toList then (parseUsize v, n.2)
    else if k = "total".toList then (n.1, parseUsize v, n.2.2)
    else if k = "uptodate".toList then (n.1, n.2.1, parseUsize v)
    else n
  | none => n

def parsePlanMeta (msg : Text) : Option (ℕ × ℕ × ℕ) :=
  let n := (Downloads.splitWhitespace msg).foldl planWord (none, none, none)
  n.1.bind fun dirty => n.2.1.bind fun total => n.2.2.map fun uptodate => (dirty, total, uptodate)

/-- What a meta-line says of a target, or of the plan. -/
inductive News where
  | plan (dirty total uptodate : ℕ)
  | done (key : Text) (rv : ℤ)
  | started (key : Text)
  | locked (key : Text)
  | seen (key : Text)
  | unchanged (key : Text)
deriving DecidableEq, Repr

def MetaLine.news (m : MetaLine) (topdir mydir : Text) : Option News :=
  if m.kind = "plan".toList then (parsePlanMeta m.msg).map fun n => .plan n.1 n.2.1 n.2.2
  else if m.kind = "done".toList then
    (splitOnce [' '] m.msg).map fun p => .done (absKey topdir mydir p.2) ((parseI32 p.1).getD 0)
  else if m.kind = DO then some (.started (absKey topdir mydir m.msg))
  else if m.kind = "locked".toList then some (.locked (absKey topdir mydir m.msg))
  else if m.kind ∈ ["waiting".toList, "unlocked".toList] then some (.seen (absKey topdir mydir m.msg))
  else if m.kind = UNCHANGED then some (.unchanged (absKey topdir mydir m.msg))
  else none

/-- A line with the directory of the target in whose log it stands. -/
def news (topdir : Text) (x : Text × Text) : Option News :=
  (parseRedoMetaLine x.2).bind fun m => m.news topdir x.1

def Progress.note (p : Progress) : News → Progress
  | .plan dirty total uptodate => p.setPlanTotals dirty total uptodate
  | .done key rv => p.noteDone key rv
  | .started key => p.noteStarted key
  | .locked key => p.noteRunning key
  | .seen key => p.noteSeen key
  | .unchanged key => if p.hasDirtyPlan then p.noteUptodate key else p.noteUnchanged key

def Progress.read (topdir : Text) (p : Progress) (x : Text × Text) : Progress := ((news topdir x).map p.note).getD p

/-- `redo-log` with a plan or without, after so many lines of all the logs it reads. -/
def progressAfter (planned : Option (Finset Text)) (topdir : Text) (lines : List (Text × Text)) : Progress :=
  lines.foldl (Progress.read topdir) { plannedSteps := planned }

namespace Progress

/-- The part of a set that the status line counts. -/
def counted (p : Progress) (s : Finset Text) : Finset Text :=
  match p.plannedSteps with
  | some plan => s.filter (· ∈ plan)
  | none => s

def started (p : Progress) : ℕ := (p.counted p.done).card + (p.counted p.running).card

/-- What stands behind the slash in the status line. -/
def steps (p : Progress) : ℕ :=
  match p.planDirtyTotal, p.plannedSteps with
  | some dirty, _ => if dirty < p.started then p.started else dirty
  | none, some plan => plan.card
  | none, none => p.seen.card

structure Consistent (p : Progress) : Prop where
  running_done : Disjoint p.running p.done
  failed_done : p.failed ⊆ p.done
  uptodate_running : Disjoint p.uptodate p.running
  uptodate_done : Disjoint p.uptodate p.done
  uptodate_failed : Disjoint p.uptodate p.failed
  seen : p.running ∪ p.done ∪ p.failed ∪ p.uptodate ⊆ p.seen
  /-- each target once -/
  started : p.started = (p.counted (p.running ∪ p.done)).card

def settled (p : Progress) : Finset Text := p.done ∪ p.uptodate

end Progress

/-- What says that a target is ready. -/
def News.Settles (n : News) (key : Text) : Prop := n = .unchanged key ∨ ∃ rv, n = .done key rv

/-- A target is locked that was ready before, and has not been started again. -/
def LateLock (ns : List News) : Prop :=
  ∃ key before n between behind, ns = before ++ n :: between ++ .locked key :: behind ∧ n.Settles key ∧
    .started key ∉ between

variable {p : Progress} {n : News} {key t : Text} {ns : List News} {s s' : Finset Text}

theorem Progress.counted_eq (p : Progress) (s : Finset Text) :
    p.counted s = s.filter fun t => ∀ plan ∈ p.plannedSteps, t ∈ plan := by
  rw [counted]
  cases p.plannedSteps <;> simp

/-- The counts add up as long as no target is in both sets. -/
theorem Progress.started_eq (h : Disjoint p.running p.done) : p.started = (p.counted (p.running ∪ p.done)).card := by
  simp only [started, counted_eq, Finset.filter_union]
  rw [Finset.card_union_of_disjoint (Finset.disjoint_filter_filter h), Nat.add_comm]

theorem Progress.mem_settled_note :
    t ∈ (p.note n).settled ↔ n.Settles t ∨ n ≠ .started t ∧ t ∈ p.settled := by
  cases n with
  | plan dirty total uptodate => simp [note, setPlanTotals, settled, News.Settles]
  | done key rv => simp [note, noteDone, settled, News.Settles]; grind
  | started key => simp [note, noteStarted, settled, News.Settles]; grind
  | locked key => simp [note, noteRunning, settled, News.Settles]
  | seen key => simp [note, noteSeen, settled, News.Settles]
  | unchanged key =>
    cases hplan : p.hasDirtyPlan
    · simp [note, hplan, noteUnchanged, settled, News.Settles]; grind
    · simp [note, hplan, noteUptodate, settled, News.Settles]; grind

/-- Where a target may be. -/
structure Progress.Placed (p : Progress) (t : Text) : Prop where
  running : t ∈ p.running → t ∉ p.done
  failed : t ∈ p.failed → t ∈ p.done
  uptodate : t ∈ p.uptodate → t ∉ p.running ∧ t ∉ p.done
  seen : t ∈ p.running ∨ t ∈ p.done ∨ t ∈ p.uptodate → t ∈ p.seen

theorem Progress.consistent_iff : p.Consistent ↔ ∀ t, p.Placed t := by
  constructor
  · intro h t
    constructor
    · exact fun hrun => Finset.disjoint_left.mp h.running_done hrun
    · exact fun hfail => h.failed_done hfail
    · exact fun hup => ⟨Finset.disjoint_left.mp h.uptodate_running hup, Finset.disjoint_left.mp h.uptodate_done hup⟩
    · intro hmem
      apply h.seen
      simp only [Finset.mem_union]
      grind
  · intro h
    have hdisjoint : Disjoint p.running p.done := Finset.disjoint_left.mpr fun t => (h t).running
    constructor
    case running_done => exact hdisjoint
    case failed_done => exact fun t => (h t).failed
    case uptodate_running => exact Finset.disjoint_left.mpr fun t hup => ((h t).uptodate hup).1
    case uptodate_done => exact Finset.disjoint_left.mpr fun t hup => ((h t).uptodate hup).2
    case uptodate_failed =>
      exact Finset.disjoint_left.mpr fun t hup hfail => ((h t).uptodate hup).2 ((h t).failed hfail)
    case seen =>
      intro t hmem
      have hplace := h t
      simp only [Finset.mem_union] at hmem
      apply hplace.seen
      have hdone := hplace.failed
      grind
    case started => exact started_eq hdisjoint

theorem Progress.Placed.note (h : p.Placed t) (hn : ∀ key, n = .locked key → key ∉ p.settled) : (p.note n).Placed t := by
  obtain ⟨hrun, hfail, hup, hseen⟩ := h
  cases n with
  | plan dirty total uptodate => exact ⟨hrun, hfail, hup, hseen⟩
  | done key rv =>
    by_cases hrv : rv = 0 <;> constructor <;> simp [Progress.note, noteDone, hrv] <;> grind
  | started key => constructor <;> simp [Progress.note, noteStarted] <;> grind
  | locked key =>
    have hready := hn key rfl
    simp only [settled, Finset.mem_union, not_or] at hready
    by_cases ht : t = key
    · subst ht
      constructor <;> simp [Progress.note, noteRunning] <;> grind
    · constructor <;> simp [Progress.note, noteRunning, ht] <;> grind
  | seen key => constructor <;> simp [Progress.note, noteSeen] <;> grind
  | unchanged key =>
    cases hplan : p.hasDirtyPlan
    · constructor <;> simp [Progress.note, hplan, noteUnchanged] <;> grind
    · constructor <;> simp [Progress.note, hplan, noteUptodate] <;> grind

/-- Only the lock of a target that is ready puts it where it must not be. -/
theorem Progress.Consistent.note_iff (h : p.Consistent) :
    (p.note n).Consistent ↔ ∀ key, n = .locked key → key ∉ p.settled := by
  constructor
  · rintro hnote key rfl hmem
    have hrunning : key ∈ (p.note (.locked key)).running := Finset.mem_insert_self key p.running
    rcases Finset.mem_union.mp hmem with hdone | hup
    · exact Finset.disjoint_left.mp hnote.running_done hrunning hdone
    · exact Finset.disjoint_left.mp hnote.uptodate_running hup hrunning
  · intro hn
    exact consistent_iff.mpr fun t => (consistent_iff.mp h t).note hn

/-! ## All lines -/

variable {planned : Option (Finset Text)} {topdir : Text} {lines : List (Text × Text)}

theorem consistent_start (planned : Option (Finset Text)) : Progress.Consistent { plannedSteps := planned } := by
  apply Progress.consistent_iff.mpr
  intro t
  constructor <;> simp

theorem progressAfter_eq (planned : Option (Finset Text)) (topdir : Text) (lines : List (Text × Text)) :
    progressAfter planned topdir lines = (lines.filterMap (news topdir)).foldl Progress.note { plannedSteps := planned } := by
  rw [progressAfter, List.foldl_filterMap]
  congr 1
  funext p x
  rw [Progress.read]
  cases news topdir x <;> rfl

/-- A target is ready if something said so and it was not started since. -/
theorem mem_settled_iff (ns : List News) :
    t ∈ (ns.foldl Progress.note { plannedSteps := planned }).settled ↔
      ∃ before n between, ns = before ++ n :: between ∧ n.Settles t ∧ .started t ∉ between := by
  induction ns using List.reverseRecOn with
  | nil => simp [Progress.settled]
  | append_singleton ns n ih =>
    rw [List.foldl_append, List.foldl_cons, List.foldl_nil, Progress.mem_settled_note, ih]
    constructor
    · rintro (hn | ⟨hne, before, m, between, rfl, hm, hbetween⟩)
      · exact ⟨ns, n, [], rfl, hn, List.not_mem_nil⟩
      · refine ⟨before, m, between ++ [n], by simp, hm, ?_⟩
        simp [hbetween, Ne.symm hne]
    · rintro ⟨before, m, between, heq, hm, hbetween⟩
      rcases List.eq_nil_or_concat between with rfl | ⟨between, l, rfl⟩
      · left
        obtain ⟨-, hlast⟩ := List.append_inj' heq rfl
        rwa [List.singleton_inj.mp hlast]
      · right
        rw [List.concat_eq_append] at heq hbetween
        have hcut : ns ++ [n] = (before ++ m :: between) ++ [l] := by simpa using heq
        obtain ⟨rfl, hlast⟩ := List.append_inj' hcut rfl
        obtain rfl := List.singleton_inj.mp hlast
        simp only [List.mem_append, List.mem_singleton, not_or] at hbetween
        exact ⟨Ne.symm hbetween.2, before, m, between, rfl, hm, hbetween.1⟩

theorem LateLock.mono (h : LateLock ns) (l : List News) : LateLock (ns ++ l) := by
  obtain ⟨key, before, n, between, behind, rfl, hn, hbetween⟩ := h
  exact ⟨key, before, n, between, behind ++ l, by simp, hn, hbetween⟩

/-- From the end of the run: what was read before was consistent, and the last line is judged by it. -/
theorem consistent_foldl (h : ¬LateLock ns) : (ns.foldl Progress.note { plannedSteps := planned }).Consistent := by
  induction ns using List.reverseRecOn with
  | nil => exact consistent_start planned
  | append_singleton ns n ih =>
    have hbefore := ih fun hlate => h (hlate.mono [n])
    rw [List.foldl_append, List.foldl_cons, List.foldl_nil, hbefore.note_iff]
    rintro key rfl hready
    obtain ⟨before, m, between, rfl, hm, hbetween⟩ := (mem_settled_iff ns).mp hready
    exact h ⟨key, before, m, between, [], rfl, hm, hbetween⟩

theorem not_consistent_of_lateLock (h : LateLock ns) :
    ∃ pre, pre <+: ns ∧ ¬(pre.foldl Progress.note { plannedSteps := planned }).Consistent := by
  obtain ⟨key, before, n, between, behind, rfl, hn, hbetween⟩ := h
  by_cases hbefore : ((before ++ n :: between).foldl Progress.note { plannedSteps := planned }).Consistent
  · refine ⟨(before ++ n :: between) ++ [.locked key], ⟨behind, by simp⟩, ?_⟩
    rw [List.foldl_append, List.foldl_cons, List.foldl_nil, hbefore.note_iff]
    intro hready
    exact hready key rfl ((mem_settled_iff _).mpr ⟨before, n, between, rfl, hn, hbetween⟩)
  · exact ⟨before ++ n :: between, ⟨.locked key :: behind, by simp⟩, hbefore⟩

/-- The sets are consistent after each line of a run, if and only if no line locks a target that is ready
and was not started again. -/
theorem progressAfter_consistent_iff (planned : Option (Finset Text)) (topdir : Text) (lines : List (Text × Text)) :
    (∀ pre, pre <+: lines → (progressAfter planned topdir pre).Consistent) ↔
      ¬LateLock (lines.filterMap (news topdir)) := by
  constructor
  · intro h hlate
    obtain ⟨pre, ⟨rest, hpre⟩, hbad⟩ := @not_consistent_of_lateLock _ planned hlate
    obtain ⟨front, back, rfl, rfl, -⟩ := List.filterMap_eq_append_iff.mp hpre.symm
    have hgood := h front (List.prefix_append front back)
    rw [progressAfter_eq] at hgood
    exact hbad hgood
  · rintro h pre ⟨rest, rfl⟩
    rw [progressAfter_eq]
    apply consistent_foldl
    intro hlate
    apply h
    rw [List.filterMap_append]
    exact hlate.mono _

/-- A target was built, and then the log of another target is read, which had to wait for it. -/
def sharedTarget : List (Text × Text) :=
  [([], "@@REDO:do:7:1.0@@ x".toList), ([], "@@REDO:done:7:2.0@@ 0 x".toList), ([], "@@REDO:locked:8:1.5@@ x".toList)]

theorem not_progress_consistent :
    ¬ ∀ (planned : Option (Finset Text)) (topdir : Text) (lines : List (Text × Text)),
      (progressAfter planned topdir lines).Consistent := by
  intro h
  have hdisjoint := (h none "/top".toList sharedTarget).running_done
  exact absurd hdisjoint (by decide)

/-- The status line shows no more steps than there are. -/
theorem Progress.Consistent.started_le (h : p.Consistent) : p.started ≤ p.steps := by
  have hcount := h.started
  have hseen := h.seen
  rw [steps]
  cases hdirty : p.planDirtyTotal with
  | some dirty =>
    dsimp only
    split_ifs <;> omega
  | none =>
    cases hplan : p.plannedSteps with
    | some plan =>
      rw [hcount]
      apply Finset.card_le_card
      intro t ht
      simp [counted, hplan] at ht
      exact ht.2
    | none =>
      rw [hcount]
      apply Finset.card_le_card
      intro t ht
      apply hseen
      simp [counted, hplan] at ht
      simp only [Finset.mem_union]
      grind

end Redo.Logs
