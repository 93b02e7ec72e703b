import Mathlib.Logic.Relation
import Mathlib.Logic.Function.Basic
import Mathlib.Tactic.Common

/-! # Programs of atomic statements over shared tables

Several parties run programs whose statements are atomic. The first write of a party
opens its transaction and takes the only write lock; until it commits or rolls back
nobody else writes, and nobody else sees what it has written. Nothing keeps a party
from writing what it has computed from an old read.
-/
namespace Redo.Library
open Relation

/-- A program over tables `σ`, writes `ω` and an outside world `δ`. What a `read` gives
is dated with the number of transactions committed by then. -/
inductive Program (σ δ ω α : Type) where
  | done (a : α)
  | read (k : ℕ → σ → Program σ δ ω α)
  | look (k : δ → Program σ δ ω α)
  | write (w : ω) (k : Program σ δ ω α)
  | commit (k : Program σ δ ω α)
  | rollback (k : Program σ δ ω α)

variable {ι σ δ ω α β : Type}

namespace Program

def bind : Program σ δ ω α → (α → Program σ δ ω β) → Program σ δ ω β
  | done a, f => f a
  | read k, f => read fun n t => (k n t).bind f
  | look k, f => look fun d => (k d).bind f
  | write w k, f => write w (k.bind f)
  | commit k, f => commit (k.bind f)
  | rollback k, f => rollback (k.bind f)

instance : Monad (Program σ δ ω) where
  pure := done
  bind := bind

/-- The program run by itself: its result, the tables as committed and as it leaves them. -/
def alone (apply : ω → σ → σ) (world : δ) (now : ℕ) : Program σ δ ω α → σ → σ → α × σ × σ
  | done a, c, t => (a, c, t)
  | read k, c, t => (k now t).alone apply world now c t
  | look k, c, t => (k world).alone apply world now c t
  | write w k, c, t => k.alone apply world now c (apply w t)
  | commit k, _, t => k.alone apply world now t t
  | rollback k, c, _ => k.alone apply world now c c

theorem alone_bind (apply : ω → σ → σ) (world : δ) (now : ℕ) (p : Program σ δ ω α)
    (f : α → Program σ δ ω β) (c t : σ) :
    (p >>= f).alone apply world now c t =
      (f (p.alone apply world now c t).1).alone apply world now
        (p.alone apply world now c t).2.1 (p.alone apply world now c t).2.2 := by
  change (p.bind f).alone apply world now c t = _
  induction p generalizing c t with
  | done a => rfl
  | read k ih => exact ih now t c t
  | look k ih => exact ih world c t
  | write w k ih => exact ih c (apply w t)
  | commit k ih => exact ih t t
  | rollback k ih => exact ih c c

/-- Every write that the program may make follows from what it has read by then. -/
def WritesFrom (ok : List (ℕ × σ) → ω → Prop) : Program σ δ ω α → List (ℕ × σ) → Prop
  | done _, _ => True
  | read k, reads => ∀ n t, (k n t).WritesFrom ok ((n, t) :: reads)
  | look k, reads => ∀ d, (k d).WritesFrom ok reads
  | write w k, reads => ok reads w ∧ k.WritesFrom ok reads
  | commit k, reads => k.WritesFrom ok reads
  | rollback k, reads => k.WritesFrom ok reads

variable {ok : List (ℕ × σ) → ω → Prop}

theorem WritesFrom.bind {p : Program σ δ ω α} {f : α → Program σ δ ω β} {reads : List (ℕ × σ)}
    (hp : p.WritesFrom ok reads)
    (hf : ∀ a reads', reads ⊆ reads' → (f a).WritesFrom ok reads') :
    (p >>= f).WritesFrom ok reads := by
  change (p.bind f).WritesFrom ok reads
  induction p generalizing reads with
  | done a => exact hf a reads (List.Subset.refl reads)
  | read k ih =>
    intro n t
    apply ih n t (hp n t)
    intro a reads' hsub
    exact hf a reads' fun r hr => hsub (List.mem_cons_of_mem (n, t) hr)
  | look k ih =>
    intro d
    exact ih d (hp d) hf
  | write w k ih => exact ⟨hp.1, ih hp.2 hf⟩
  | commit k ih => exact ih hp hf
  | rollback k ih => exact ih hp hf

end Program

/-- The parties, what is committed, and the transaction that is open, with its owner and
its copy of the tables. -/
structure System (ι σ δ ω α : Type) where
  committed : σ
  clock : ℕ
  tx : Option (ι × σ)
  world : δ
  programs : ι → Program σ δ ω α

variable [DecidableEq ι]

namespace System

/-- The tables as a party sees them. -/
def view (s : System ι σ δ ω α) (i : ι) : σ :=
  match s.tx with
  | some (j, t) => if j = i then t else s.committed
  | none => s.committed

def proceed (s : System ι σ δ ω α) (i : ι) (k : Program σ δ ω α) : System ι σ δ ω α :=
  { s with programs := Function.update s.programs i k }

/-- Party `i` has the lock, or it is free. -/
def MayWrite (s : System ι σ δ ω α) (i : ι) : Prop := ∀ j t, s.tx = some (j, t) → j = i

/-- A party takes its next statement, or the world changes. A write waits for the lock;
to end a transaction without having one does nothing. -/
inductive Step (apply : ω → σ → σ) : System ι σ δ ω α → System ι σ δ ω α → Prop where
  | read {s i k} (h : s.programs i = .read k) : Step apply s (s.proceed i (k s.clock (s.view i)))
  | look {s i k} (h : s.programs i = .look k) : Step apply s (s.proceed i (k s.world))
  | write {s i w k} (h : s.programs i = .write w k) (lock : s.MayWrite i) :
      Step apply s { s.proceed i k with tx := some (i, apply w (s.view i)) }
  | commit {s i k t} (h : s.programs i = .commit k) (owner : s.tx = some (i, t)) :
      Step apply s { s.proceed i k with committed := t, clock := s.clock + 1, tx := none }
  | rollback {s i k t} (h : s.programs i = .rollback k) (owner : s.tx = some (i, t)) :
      Step apply s { s.proceed i k with tx := none }
  | nothing {s i k} (h : s.programs i = .commit k ∨ s.programs i = .rollback k)
      (owner : ∀ t, s.tx ≠ some (i, t)) : Step apply s (s.proceed i k)
  | world {s} (d : δ) : Step apply s { s with world := d }

/-- The steps before which party `i` is not about to make a write without the property. -/
def StepIf (apply : ω → σ → σ) (i : ι) (meets : ω → Prop) (s s' : System ι σ δ ω α) : Prop :=
  Step apply s s' ∧ ∀ w k, s.programs i = .write w k → meets w

@[simp] theorem proceed_programs_self (s : System ι σ δ ω α) (i : ι) (k : Program σ δ ω α) :
    (s.proceed i k).programs i = k := by
  simp [proceed]

theorem proceed_programs_of_ne (s : System ι σ δ ω α) {i j : ι} (h : j ≠ i)
    (k : Program σ δ ω α) : (s.proceed i k).programs j = s.programs j := by
  simp [proceed, h]

section Dates
variable {apply : ω → σ → σ} {ok : List (ℕ × σ) → ω → Prop} {i : ι} {s s' : System ι σ δ ω α}

/-- What party `i` may still write follows from reads that are dated `n` at most. -/
def Dated (ok : List (ℕ × σ) → ω → Prop) (i : ι) (n : ℕ) (s : System ι σ δ ω α) : Prop :=
  ∃ reads, (s.programs i).WritesFrom ok reads ∧ ∀ r ∈ reads, r.1 ≤ n

omit [DecidableEq ι] in
theorem Dated.mono {m n : ℕ} (h : s.Dated ok i m) (hmn : m ≤ n) : s.Dated ok i n := by
  obtain ⟨reads, hw, hr⟩ := h
  exact ⟨reads, hw, fun r hmem => Nat.le_trans (hr r hmem) hmn⟩

/-- A statement that reads nothing leaves the reads as they are. -/
theorem Dated.proceed {n : ℕ} (h : s.Dated ok i n) {j : ι} {k : Program σ δ ω α}
    (hk : j = i → ∀ reads, (s.programs i).WritesFrom ok reads → k.WritesFrom ok reads) :
    (s.proceed j k).Dated ok i n := by
  obtain ⟨reads, hw, hr⟩ := h
  refine ⟨reads, ?_, hr⟩
  by_cases hj : j = i
  · subst hj
    rw [proceed_programs_self]
    exact hk rfl reads hw
  · rw [proceed_programs_of_ne s (Ne.symm hj)]
    exact hw

theorem Step.dated (h : Step apply s s') (hd : s.Dated ok i s.clock) :
    s'.Dated ok i s'.clock := by
  cases h with
  | @read j k h =>
    by_cases hj : j = i
    · subst hj
      obtain ⟨reads, hw, hr⟩ := hd
      rw [h] at hw
      refine ⟨(s.clock, s.view j) :: reads, ?_, ?_⟩
      · rw [proceed_programs_self]
        exact hw s.clock (s.view j)
      · intro r hmem
        rcases List.mem_cons.mp hmem with rfl | hmem
        · exact Nat.le_refl s.clock
        · exact hr r hmem
    · exact hd.proceed fun h => absurd h hj
  | look h =>
    apply hd.proceed
    rintro rfl reads hw
    rw [h] at hw
    exact hw s.world
  | write h _ =>
    apply hd.proceed
    rintro rfl reads hw
    rw [h] at hw
    exact hw.2
  | commit h _ =>
    apply Dated.mono (n := s.clock + 1) _ (Nat.le_refl _)
    apply (hd.mono s.clock.le_succ).proceed
    rintro rfl reads hw
    rw [h] at hw
    exact hw
  | rollback h _ =>
    apply hd.proceed
    rintro rfl reads hw
    rw [h] at hw
    exact hw
  | nothing h _ =>
    apply hd.proceed
    rintro rfl reads hw
    rcases h with h | h <;> rw [h] at hw <;> exact hw
  | world => exact hd

theorem dated_of_run {s₀ : System ι σ δ ω α} (h : ReflTransGen (Step apply) s₀ s)
    (hd : s₀.Dated ok i s₀.clock) : s.Dated ok i s.clock := by
  induction h with
  | refl => exact hd
  | tail _ hstep ih => exact hstep.dated ih

end Dates

/-- A party commits the transaction that it has open. -/
def Commits (j : ι) (s s' : System ι σ δ ω α) : Prop :=
  ∃ k t, s.programs j = .commit k ∧ s.tx = some (j, t) ∧
    s' = { s.proceed j k with committed := t, clock := s.clock + 1, tx := none }

section Kept
variable {apply : ω → σ → σ} {ok : List (ℕ × σ) → ω → Prop} {i : ι} {s s' : System ι σ δ ω α}
  {P : σ → Prop} {c : ℕ}

/-- Only party `i` is left, the tables have the property, committed or not, and so had
they whenever it has read them from date `c` on. -/
structure Holds (ok : List (ℕ × σ) → ω → Prop) (i : ι) (P : σ → Prop) (c : ℕ)
    (s : System ι σ δ ω α) : Prop where
  committed : P s.committed
  tx : ∀ j t, s.tx = some (j, t) → P t
  others : ∀ j, j ≠ i → ∃ a, s.programs j = .done a
  reads : ∃ reads, (s.programs i).WritesFrom ok reads ∧ ∀ r ∈ reads, c ≤ r.1 → P r.2

theorem Holds.view (h : s.Holds ok i P c) (j : ι) : P (s.view j) := by
  unfold System.view
  split
  · rename_i k t htx
    split
    · exact h.tx k t htx
    · exact h.committed
  · exact h.committed

theorem Holds.acts (h : s.Holds ok i P c) {j : ι} (hj : ∀ a, s.programs j ≠ .done a) : j = i := by
  by_contra hne
  obtain ⟨a, ha⟩ := h.others j hne
  exact hj a ha

theorem Holds.proceed (h : s.Holds ok i P c) {k : Program σ δ ω α}
    (hk : ∃ reads, k.WritesFrom ok reads ∧ ∀ r ∈ reads, c ≤ r.1 → P r.2) :
    (s.proceed i k).Holds ok i P c where
  committed := h.committed
  tx := h.tx
  others j hj := by
    rw [proceed_programs_of_ne s hj]
    exact h.others j hj
  reads := by
    rw [proceed_programs_self]
    exact hk

/-- Writes that follow from what was read after the date keep the property. -/
theorem Holds.step {meets : ω → Prop}
    (safe : ∀ reads w t, ok reads w → meets w → (∀ r ∈ reads, c ≤ r.1 → P r.2) → P t →
      P (apply w t))
    (h : s.Holds ok i P c) (hstep : StepIf apply i meets s s') : s'.Holds ok i P c := by
  obtain ⟨reads, hw, hr⟩ := h.reads
  obtain ⟨hstep, hmeets⟩ := hstep
  cases hstep with
  | @read j k hp =>
    have hj : j = i := h.acts (by simp [hp])
    subst hj
    rw [hp] at hw
    apply h.proceed
    refine ⟨_, hw s.clock (s.view j), ?_⟩
    intro r hmem hc
    rcases List.mem_cons.mp hmem with rfl | hmem
    · exact h.view j
    · exact hr r hmem hc
  | @look j k hp =>
    have hj : j = i := h.acts (by simp [hp])
    subst hj
    rw [hp] at hw
    exact h.proceed ⟨reads, hw s.world, hr⟩
  | @write j w k hp _ =>
    have hj : j = i := h.acts (by simp [hp])
    subst hj
    rw [hp] at hw
    have hk := h.proceed ⟨reads, hw.2, hr⟩
    refine ⟨hk.committed, ?_, hk.others, hk.reads⟩
    rintro _ _ ⟨⟩
    exact safe reads w (s.view j) hw.1 (hmeets w k hp) hr (h.view j)
  | @commit j k t hp owner =>
    have hj : j = i := h.acts (by simp [hp])
    subst hj
    rw [hp] at hw
    have hk : (s.proceed j k).Holds ok j P c := h.proceed ⟨reads, hw, hr⟩
    exact ⟨h.tx j t owner, by simp, hk.others, hk.reads⟩
  | @rollback j k t hp _ =>
    have hj : j = i := h.acts (by simp [hp])
    subst hj
    rw [hp] at hw
    have hk : (s.proceed j k).Holds ok j P c := h.proceed ⟨reads, hw, hr⟩
    exact ⟨hk.committed, by simp, hk.others, hk.reads⟩
  | @nothing j k hp _ =>
    have hj : j = i := h.acts (by rcases hp with hp | hp <;> simp [hp])
    subst hj
    have hwk : k.WritesFrom ok reads := by
      rcases hp with hp | hp <;> rw [hp] at hw <;> exact hw
    exact h.proceed ⟨reads, hwk, hr⟩
  | world d => exact ⟨h.committed, h.tx, h.others, h.reads⟩

/-- From a commit after which the other parties are done, the property holds as long as
party `i` writes only what follows from reads after the commit. -/
theorem holds_of_commit {meets : ω → Prop} {j : ι} {s₀ s₁ s₂ : System ι σ δ ω α}
    (safe : ∀ reads w t, ok reads w → meets w → (∀ r ∈ reads, s₁.clock ≤ r.1 → P r.2) → P t →
      P (apply w t))
    (hd : s₀.Dated ok i s₀.clock) (before : ReflTransGen (Step apply) s₀ s)
    (hc : Commits j s s₁) (others : ∀ k, k ≠ i → ∃ a, s₁.programs k = .done a)
    (hp : P s₁.committed) (after : ReflTransGen (StepIf apply i meets) s₁ s₂) :
    s₂.Holds ok i P s₁.clock := by
  have hstart : s₁.Holds ok i P s₁.clock := by
    obtain ⟨k, t, hk, -, rfl⟩ := hc
    have hdated : (s.proceed j k).Dated ok i s.clock := by
      apply (dated_of_run before hd).proceed
      rintro rfl reads hw
      rw [hk] at hw
      exact hw
    obtain ⟨reads, hw, hr⟩ := hdated
    refine ⟨hp, by simp, others, reads, hw, ?_⟩
    intro r hmem hclock
    exact absurd (hr r hmem) (Nat.not_le.mpr hclock)
  induction after with
  | refl => exact hstart
  | tail _ hstep ih => exact ih.step safe hstep

end Kept
end System
end Redo.Library
