import Mathlib.Logic.Relation
import Redo.Library.BreadthFirst

/-! # Everything that can be reached

A queue of points, and the points that were ever put in. A point that is taken out puts in those
next to it that are new.
-/
namespace Redo.Library
open Relation

variable {α : Type*} [DecidableEq α]

/-- All points that are ever in the queue. The fuel is for the points taken out. -/
def flood (next : α → List α) : ℕ → List α → List α → Option (List α)
  | _, [], seen => some seen
  | 0, _ :: _, _ => none
  | fuel + 1, a :: queue, seen =>
    flood next fuel (queue ++ enter (next a) seen) (seen ++ enter (next a) seen)

/-- The same, but it gives up when so many points have been put in. -/
def floodWithin (next : α → List α) (cap : ℕ) : ℕ → List α → List α → Option (List α)
  | _, [], seen => some seen
  | 0, _ :: _, _ => none
  | fuel + 1, a :: queue, seen =>
    if cap ≤ seen.length then none
    else floodWithin next cap fuel (queue ++ enter (next a) seen) (seen ++ enter (next a) seen)

/-- What is next to a point. -/
def Next (next : α → List α) (a b : α) : Prop := b ∈ next a

/-- The points taken out so far stand in front of the queue, and nothing next to them is missing. -/
structure Flooded (next : α → List α) (roots done queue seen : List α) : Prop where
  split : seen = done ++ queue
  nodup : seen.Nodup
  start : roots ⊆ seen
  closed : ∀ a ∈ done, next a ⊆ seen
  reached : ∀ b ∈ seen, ∃ a ∈ roots, ReflTransGen (Next next) a b

variable {next : α → List α} {roots done queue seen points found : List α} {a : α}
  {cap fuel : ℕ}

theorem flooded_enter (next : α → List α) (roots : List α) :
    Flooded next roots [] (enter roots []) (enter roots []) where
  split := rfl
  nodup := nodup_append_enter List.nodup_nil
  start b hb := by simpa [mem_enter] using hb
  closed a ha := by simp at ha
  reached b hb := ⟨b, (mem_enter.mp hb).1, .refl⟩

theorem Flooded.step (h : Flooded next roots done (a :: queue) seen) :
    Flooded next roots (done ++ [a]) (queue ++ enter (next a) seen) (seen ++ enter (next a) seen) where
  split := by simp [h.split]
  nodup := nodup_append_enter h.nodup
  start := fun b hb => List.mem_append_left _ (h.start hb)
  closed b hb c hc := by
    rw [mem_append_enter]
    rcases List.mem_append.mp hb with hdone | hself
    · exact .inl (h.closed b hdone hc)
    · rw [List.mem_singleton.mp hself] at hc
      exact .inr hc
  reached b hb := by
    rw [mem_append_enter] at hb
    rcases hb with hseen | hnext
    · exact h.reached b hseen
    · have ha : a ∈ seen := by simp [h.split]
      obtain ⟨root, hroot, hpath⟩ := h.reached a ha
      exact ⟨root, hroot, hpath.tail hnext⟩

omit [DecidableEq α] in
/-- At the end the points are those that can be reached. -/
theorem Flooded.mem_iff (h : Flooded next roots done [] seen) (b : α) :
    b ∈ seen ↔ ∃ a ∈ roots, ReflTransGen (Next next) a b := by
  refine ⟨h.reached b, ?_⟩
  rintro ⟨a, ha, hpath⟩
  induction hpath with
  | refl => exact h.start ha
  | tail _ hnext ih =>
    have hdone := ih
    rw [h.split, List.append_nil] at hdone
    exact h.closed _ hdone hnext

/-- With fuel for all points there are, the queue runs empty. -/
theorem Flooded.flood (h : Flooded next roots done queue seen) (hroots : roots ⊆ points)
    (hpoints : ∀ a, next a ⊆ points) (hfuel : points.length ≤ done.length + fuel) :
    ∃ found, flood next fuel queue seen = some found ∧ Flooded next roots found [] found := by
  have hsub : seen ⊆ points := by
    intro b hb
    obtain ⟨a, ha, hpath⟩ := h.reached b hb
    rcases ReflTransGen.cases_tail hpath with rfl | ⟨c, -, hnext⟩
    · exact hroots ha
    · exact hpoints c hnext
  induction fuel generalizing done queue seen with
  | zero =>
    cases queue with
    | nil =>
      have hseen : seen = done := by simpa using h.split
      exact ⟨seen, rfl, hseen ▸ h⟩
    | cons a queue =>
      have hlength := (h.nodup.subperm hsub).length_le
      rw [h.split, List.length_append, List.length_cons] at hlength
      omega
  | succ fuel ih =>
    cases queue with
    | nil =>
      have hseen : seen = done := by simpa using h.split
      exact ⟨seen, rfl, hseen ▸ h⟩
    | cons a queue =>
      have hstep := h.step
      refine ih hstep ?_ ?_
      · rw [List.length_append, List.length_singleton]
        omega
      · intro b hb
        rw [mem_append_enter] at hb
        rcases hb with hseen | hnext
        · exact hsub hseen
        · exact hpoints a hnext

theorem flood_iff (hroots : roots ⊆ points) (hpoints : ∀ a, next a ⊆ points)
    (hfuel : points.length ≤ fuel) :
    ∃ found, flood next fuel (enter roots []) (enter roots []) = some found ∧ found.Nodup ∧
      ∀ b, b ∈ found ↔ ∃ a ∈ roots, ReflTransGen (Next next) a b := by
  obtain ⟨found, hflood, hdone⟩ := (flooded_enter next roots).flood hroots hpoints (by simpa using hfuel)
  exact ⟨found, hflood, hdone.nodup, hdone.mem_iff⟩

theorem Flooded.within (h : Flooded next roots done queue seen)
    (hfound : floodWithin next cap fuel queue seen = some found) :
    Flooded next roots found [] found := by
  induction fuel generalizing done queue seen with
  | zero =>
    cases queue with
    | nil =>
      obtain rfl := Option.some.inj hfound
      have hseen : seen = done := by simpa using h.split
      exact hseen ▸ h
    | cons a queue => cases hfound
  | succ fuel ih =>
    cases queue with
    | nil =>
      obtain rfl := Option.some.inj hfound
      have hseen : seen = done := by simpa using h.split
      exact hseen ▸ h
    | cons a queue =>
      rw [floodWithin] at hfound
      split at hfound
      · cases hfound
      · exact ih h.step hfound

end Redo.Library
