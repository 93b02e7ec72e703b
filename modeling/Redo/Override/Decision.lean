import Redo.State.Nodes

/-! # What a build decides before it starts

Both copies of the build look at the row and at the path in the same order: is the
file the user's, is it a source, is there a rule for it?
-/
namespace Redo.Override
open State

/-- What the first part of `build_one` and `schedule_build_one` decides. -/
inductive Decision where
  /-- Leave everything as it is. -/
  | skip
  /-- Save this row and stop. -/
  | record (sf : File)
  /-- Go on to the cache or to the recipe, holding this row. -/
  | build (sf : File)

/-- `present` is what `Path::exists` says. -/
def persistNewTargetIntent (present : Bool) (sf : File) : File :=
  if present || sf.isGenerated then sf else { sf with isGenerated := true, isOverride := false }

/-- The user has modified what redo left at the path. -/
def overridden (newstamp : Stamp) (sf : File) : Bool :=
  sf.isGenerated && newstamp != STAMP_MISSING &&
    (sf.isOverride || (sf.stamp.isSome && detectOverride (sf.stamp.getD "") newstamp))

/-- From the override check to the `.do` file; `hasRule` is whether one is found. -/
def decideBuild (R : RunId) (newstamp : Stamp) (present hasRule : Bool) (sf : File) : Decision :=
  if overridden newstamp sf then
    if sf.isOverride then .skip else .record (sf.setOverride R newstamp)
  else if present && !sf.isGenerated then .record (sf.setStatic R newstamp)
  else
    let sf := persistNewTargetIntent present sf
    if hasRule then .build sf
    else if present then .record (sf.setStatic R newstamp)
    else .record (sf.setFailed R newstamp)

/-- The row after a cache hit, local or remote, has been renamed into place. -/
def cacheHitRow (R : RunId) (newstamp : Stamp) (sf : File) : File :=
  { sf with isGenerated := true, isOverride := false, failedRunid := none, csum := none }.updateStamp
    R newstamp

/-- The outcomes of the override check, each with the tests that led there. -/
theorem decideBuild_cases (R : RunId) (newstamp : Stamp) (present hasRule : Bool) (sf : File) :
    (overridden newstamp sf = true ∧ sf.isOverride = true ∧
      decideBuild R newstamp present hasRule sf = .skip) ∨
    (overridden newstamp sf = true ∧ sf.isOverride = false ∧
      decideBuild R newstamp present hasRule sf = .record (sf.setOverride R newstamp)) ∨
    (overridden newstamp sf = false ∧ present = true ∧ sf.isGenerated = false ∧
      decideBuild R newstamp present hasRule sf = .record (sf.setStatic R newstamp)) ∨
    (overridden newstamp sf = false ∧ (present = true → sf.isGenerated = true) ∧
      decideBuild R newstamp present hasRule sf =
        if hasRule then .build (persistNewTargetIntent present sf)
        else if present then .record ((persistNewTargetIntent present sf).setStatic R newstamp)
        else .record ((persistNewTargetIntent present sf).setFailed R newstamp)) := by
  unfold decideBuild
  by_cases ho : overridden newstamp sf = true
  · by_cases hov : sf.isOverride = true
    · exact Or.inl ⟨ho, hov, by simp [ho, hov]⟩
    · rw [Bool.not_eq_true] at hov
      exact Or.inr (Or.inl ⟨ho, hov, by simp [ho, hov]⟩)
  · rw [Bool.not_eq_true] at ho
    by_cases hs : present = true ∧ sf.isGenerated = false
    · exact Or.inr (Or.inr (Or.inl ⟨ho, hs.1, hs.2, by simp [ho, hs.1, hs.2]⟩))
    · have hgen : present = true → sf.isGenerated = true := by
        intro hp
        by_contra hg
        exact hs ⟨hp, by simpa using hg⟩
      refine Or.inr (Or.inr (Or.inr ⟨ho, hgen, ?_⟩))
      have hcond : (present && !sf.isGenerated) = false := by
        cases present
        · rfl
        · rw [hgen rfl]
          rfl
      simp only [ho, hcond, Bool.false_eq_true, if_false]

theorem persistNewTargetIntent_id (present : Bool) (sf : File) :
    (persistNewTargetIntent present sf).id = sf.id := by
  unfold persistNewTargetIntent
  split <;> rfl

end Redo.Override
