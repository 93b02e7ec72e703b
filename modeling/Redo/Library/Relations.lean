import Mathlib.Logic.Relation
import Mathlib.Data.List.Basic
import Mathlib.Data.List.Perm.Subperm
import Mathlib.Tactic.Common

/-! # Relations without cycles below a point, and paths that cannot grow for ever -/

namespace Redo.Library
open Relation

variable {α : Type*} {r : α → α → Prop}

/-- An accessible point lies on no cycle. -/
theorem not_transGen_of_acc {a : α} (h : Acc r a) : ¬TransGen r a a := by
  have h' := h.transGen
  induction h' with
  | intro x _ ih =>
    intro hx
    exact ih x hx (h.inv_of_transGen hx) hx

/-- If everything below `a` is acyclic, stepping down keeps it so. -/
theorem acyclic_step {a b : α} (h : ∀ c, ReflTransGen r a c → ¬TransGen r c c) (hab : r a b) :
    ∀ c, ReflTransGen r b c → ¬TransGen r c c :=
  fun c hc => h c (.head hab hc)

/-- A budget for walks through the finite list `l`: one unit is left for every
element that the path `p` may still visit. -/
structure Room (l : List α) (n : ℕ) (p : List α) : Prop where
  nodup : p.Nodup
  subset : p ⊆ l
  budget : l.length < n + p.length

theorem Room.start (l : List α) : Room l (l.length + 1) [] :=
  ⟨List.nodup_nil, List.nil_subset l, by simp⟩

theorem Room.pos {l p : List α} (h : Room l 0 p) : False := by
  have hl := (h.nodup.subperm h.subset).length_le
  have hb := h.budget
  omega

theorem Room.step {l p : List α} {n : ℕ} {a : α} (h : Room l (n + 1) p) (ha : a ∉ p)
    (hl : a ∈ l) : Room l n (p ++ [a]) where
  nodup := by
    rw [List.nodup_append]
    refine ⟨h.nodup, by simp, ?_⟩
    rintro x hx y hy rfl
    exact ha (List.mem_singleton.mp hy ▸ hx)
  subset := List.append_subset.mpr ⟨h.subset, by simpa using hl⟩
  budget := by
    have hb := h.budget
    simp only [List.length_append, List.length_singleton]
    omega

/-- Every point of `p` leads to `a` by at least one step. -/
def LeadsTo (r : α → α → Prop) (p : List α) (a : α) : Prop := ∀ x ∈ p, TransGen r x a

theorem leadsTo_nil (a : α) : LeadsTo r [] a := by
  intro x hx
  cases hx

theorem LeadsTo.step {p : List α} {a b : α} (h : LeadsTo r p a) (hab : r a b) :
    LeadsTo r (p ++ [a]) b := by
  intro x hx
  rcases List.mem_append.mp hx with hx | hx
  · exact (h x hx).tail hab
  · rw [List.mem_singleton.mp hx]
    exact .single hab

theorem LeadsTo.not_mem {p : List α} {a : α} (h : LeadsTo r p a) (ha : ¬TransGen r a a) : a ∉ p :=
  fun hm => ha (h a hm)

/-- What holds at the start and is kept by the steps of `g` holds at the end of a run of `r`
exactly when all its steps are steps of `g`, if once lost it stays lost, and if every other
step of `r` loses it. -/
theorem run_iff {g : α → α → Prop} {P : α → Prop} {a b : α} (start : P a)
    (keep : ∀ {x y}, g x y → P x → P y) (back : ∀ {x y}, r x y → P y → P x)
    (need : ∀ {x y}, r x y → P y → g x y) (run : ReflTransGen r a b) :
    P b ↔ ReflTransGen g a b := by
  constructor
  · intro hlast
    induction run with
    | refl => exact .refl
    | tail _ hs ih => exact (ih (back hs hlast)).tail (need hs hlast)
  · intro hrun
    clear run
    induction hrun with
    | refl => exact start
    | tail _ hs ih => exact keep hs ih

section Throughout
variable {σ ε : Type*} (step : σ → ε → σ)

/-- The property holds in every state of a run. -/
def Throughout (P : σ → Prop) : σ → List ε → Prop
  | s, [] => P s
  | s, e :: l => P s ∧ Throughout P (step s e) l

/-- Each step of a run is one that the state before it is good for. -/
def EachStep (good : σ → ε → Prop) : σ → List ε → Prop
  | _, [] => True
  | s, e :: l => good s e ∧ EachStep good (step s e) l

instance (good : σ → ε → Prop) [∀ s e, Decidable (good s e)] (s : σ) (l : List ε) :
    Decidable (EachStep step good s l) :=
  match l with
  | [] => inferInstanceAs (Decidable True)
  | e :: l => @instDecidableAnd _ _ _ (instDecidableEachStep good (step s e) l)

/-- Where a step keeps the property just when the state is good for it, so does a run. -/
theorem throughout_iff {P : σ → Prop} {good : σ → ε → Prop}
    (h : ∀ s e, P s → (P (step s e) ↔ good s e)) {s : σ} (hs : P s) (l : List ε) :
    Throughout step P s l ↔ EachStep step good s l := by
  induction l generalizing s with
  | nil => exact iff_of_true hs trivial
  | cons e l ih =>
    constructor
    · rintro ⟨-, hrest⟩
      have hnext : P (step s e) := by
        cases l with
        | nil => exact hrest
        | cons e' l => exact hrest.1
      exact ⟨(h s e hs).mp hnext, (ih hnext).mp hrest⟩
    · rintro ⟨hgood, hrest⟩
      exact ⟨hs, (ih ((h s e hs).mpr hgood)).mpr hrest⟩

end Throughout
end Redo.Library
