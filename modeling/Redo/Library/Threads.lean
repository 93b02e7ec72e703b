import Mathlib.Logic.Relation
import Mathlib.Logic.Function.Basic
import Mathlib.Tactic.Common

/-! # Threads around a shared state

Any number of threads take turns on one shared state. A property of the shared state and
of each thread holds after every run, once each move keeps it and disturbs no other
thread's.
-/
namespace Redo.Library
open Relation

structure Crowd (ι σ τ : Type*) where
  shared : σ
  threads : ι → τ

/-- What one move does to the shared state and to the thread that makes it. -/
abbrev Moves (σ τ : Type*) := σ → τ → σ → τ → Prop

variable {ι σ τ : Type*} [DecidableEq ι]

inductive Crowd.Step (act : Moves σ τ) : Crowd ι σ τ → Crowd ι σ τ → Prop
  | move {c : Crowd ι σ τ} (i : ι) {s : σ} {t : τ} (h : act c.shared (c.threads i) s t) :
    Step act c ⟨s, Function.update c.threads i t⟩

/-- The moves of one thread while the others wait. -/
abbrev Moves.Alone (act : Moves σ τ) : σ × τ → σ × τ → Prop :=
  ReflTransGen fun x y => act x.1 x.2 y.1 y.2

/-- Only the moves with `guard`. -/
def Moves.given (act guard : Moves σ τ) : Moves σ τ :=
  fun s t s' t' => act s t s' t' ∧ guard s t s' t'

structure Keeps (act : Moves σ τ) (I : σ → Prop) (J : σ → τ → Prop) : Prop where
  shared : ∀ {s t s' t'}, act s t s' t' → I s → J s t → I s'
  own : ∀ {s t s' t'}, act s t s' t' → I s → J s t → J s' t'
  others : ∀ {s t s' t' u}, act s t s' t' → I s → J s t → J s u → J s' u

/-- The invariant of the crowd. -/
structure Crowd.Holds (I : σ → Prop) (J : σ → τ → Prop) (c : Crowd ι σ τ) : Prop where
  shared : I c.shared
  threads : ∀ i, J c.shared (c.threads i)

variable {act guard : Moves σ τ} {I : σ → Prop} {J : σ → τ → Prop} {c c' : Crowd ι σ τ}

theorem Keeps.step (h : Keeps act I J) (hc : c.Holds I J) (hs : c.Step act c') : c'.Holds I J := by
  cases hs with
  | move i hact =>
    constructor
    · exact h.shared hact hc.shared (hc.threads i)
    · intro j
      by_cases hj : j = i
      · subst hj
        simp only [Function.update_self]
        exact h.own hact hc.shared (hc.threads j)
      · simp only [Function.update_of_ne hj]
        exact h.others hact hc.shared (hc.threads i) (hc.threads j)

theorem Keeps.run (h : Keeps act I J) (hc : c.Holds I J)
    (hrun : ReflTransGen (Crowd.Step act) c c') : c'.Holds I J := by
  induction hrun with
  | refl => exact hc
  | tail _ hs ih => exact h.step ih hs

theorem Crowd.Step.of_given (hs : c.Step (act.given guard) c') : c.Step act c' := by
  cases hs with
  | move i hact => exact .move i hact.1

theorem Moves.Alone.head {s s' : σ} {t t' : τ} {x : σ × τ} (h : act s t s' t')
    (hrest : act.Alone (s', t') x) : act.Alone (s, t) x :=
  ReflTransGen.head (b := (s', t')) h hrest

theorem Crowd.alone (i : ι) {x : σ × τ} (h : act.Alone (c.shared, c.threads i) x) :
    ReflTransGen (Crowd.Step act) c ⟨x.1, Function.update c.threads i x.2⟩ := by
  induction h with
  | refl => rw [Function.update_eq_self]
  | @tail x y _ hact ih =>
    have hmove : act x.1 (Function.update c.threads i x.2 i) y.1 y.2 := by
      rwa [Function.update_self]
    have hstep : Crowd.Step act ⟨x.1, Function.update c.threads i x.2⟩
        ⟨y.1, Function.update (Function.update c.threads i x.2) i y.2⟩ := .move i hmove
    rw [Function.update_idem] at hstep
    exact ih.tail hstep

/-- A property that once lost stays lost, and that a move without the guard breaks, holds
at the end of a run exactly when every move of it had the guard. -/
theorem Keeps.run_iff (h : Keeps (act.given guard) I J) {P : σ → Prop} (hP : ∀ s, I s → P s)
    (back : ∀ {s t s' t'}, act s t s' t' → P s' → P s)
    (need : ∀ {s t s' t'}, act s t s' t' → J s t → P s' → guard s t s' t')
    (hc : c.Holds I J) (hrun : ReflTransGen (Crowd.Step act) c c') :
    P c'.shared ↔ ReflTransGen (Crowd.Step (act.given guard)) c c' := by
  constructor
  · intro hlast
    induction hrun with
    | refl => exact .refl
    | tail _ hs ih =>
      cases hs with
      | move i hact =>
        have hbefore := ih (back hact hlast)
        have hinv := (h.run hc hbefore).threads i
        exact hbefore.tail (.move i ⟨hact, need hact hinv hlast⟩)
  · intro hguarded
    exact hP _ (h.run hc hguarded).shared

end Redo.Library
