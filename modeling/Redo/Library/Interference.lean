import Mathlib.Logic.Relation
import Redo.Library.Scripts

/-! # Programs that interfere with each other

The threads of a pool run programs on one memory, call by call in any order. Each thread
relies on what the others leave alone; a program is sound when each of its calls keeps the
invariant of the memory and leaves alone what the other threads rely on.
-/
namespace Redo.Library
open Relation

structure Pool (ι M Op : Type) (Ans : Op → Type) where
  memory : M
  threads : ι → Script Op Ans Unit

/-- What thread `i` may get as the answer to a call, and the memory after it. -/
abbrev Acts (ι M Op : Type) (Ans : Op → Type) := ι → (op : Op) → M → Ans op → M → Prop

variable {ι M Op : Type} {Ans : Op → Type}

/-- What holds of the memory, what each step keeps, and what a thread relies on. -/
structure Contract (ι M : Type) where
  inv : M → Prop
  keeps : M → M → Prop
  rely : ι → M → M → Prop
  keeps_refl : ∀ m, keeps m m
  keeps_trans : ∀ {m m' m''}, keeps m m' → keeps m' m'' → keeps m m''
  rely_refl : ∀ i m, rely i m m
  rely_trans : ∀ {i m m' m''}, rely i m m' → rely i m' m'' → rely i m m''

variable (C : Contract ι M) (acts : Acts ι M Op Ans)

/-- One step of thread `i`, as the others are promised it. -/
structure Contract.Honours (i : ι) (m m' : M) : Prop where
  inv : C.inv m'
  keeps : C.keeps m m'
  others : ∀ j, j ≠ i → C.rely j m m'

/-- From `m` on each call of the program honours the contract, whatever the other threads do
before it, and the program ends with `Q`. -/
def Contract.Sound (i : ι) {α : Type} (Q : α → M → Prop) : Script Op Ans α → M → Prop
  | .done a, m => ∀ m', C.inv m' → C.rely i m m' → Q a m'
  | .call op next, m => ∀ m', C.inv m' → C.rely i m m' → ∀ a m'', acts i op m' a m'' →
    C.Honours i m' m'' ∧ Sound i Q (next a) m''

variable {C acts} {i : ι} {α β : Type} {Q : α → M → Prop} {m m' : M}

theorem Contract.Sound.later {p : Script Op Ans α} (h : C.Sound acts i Q p m)
    (hr : C.rely i m m') : C.Sound acts i Q p m' := by
  cases p with
  | done a => exact fun m'' hinv hr' => h m'' hinv (C.rely_trans hr hr')
  | call op next => exact fun m'' hinv hr' => h m'' hinv (C.rely_trans hr hr')

theorem Contract.Sound.imp {Q' : α → M → Prop} {p : Script Op Ans α} (h : C.Sound acts i Q p m)
    (hQ : ∀ a m, C.inv m → Q a m → Q' a m) : C.Sound acts i Q' p m := by
  induction p generalizing m with
  | done a => exact fun m' hinv hr => hQ a m' hinv (h m' hinv hr)
  | call op next ih =>
    intro m' hinv hr a m'' hact
    obtain ⟨hhonours, hnext⟩ := h m' hinv hr a m'' hact
    exact ⟨hhonours, ih a hnext⟩

theorem Contract.Sound.of_later {p : Script Op Ans α}
    (h : ∀ m', C.inv m' → C.rely i m m' → C.Sound acts i Q p m') : C.Sound acts i Q p m := by
  cases p with
  | done a => exact fun m' hinv hr => h m' hinv hr m' hinv (C.rely_refl i m')
  | call op next => exact fun m' hinv hr => h m' hinv hr m' hinv (C.rely_refl i m')

/-- A program goes on from what the part before it ends with. -/
theorem Contract.Sound.bind {Q' : β → M → Prop} {p : Script Op Ans α} {f : α → Script Op Ans β}
    (h : C.Sound acts i Q p m) (hf : ∀ a m, C.inv m → Q a m → C.Sound acts i Q' (f a) m) :
    C.Sound acts i Q' (p >>= f) m := by
  induction p generalizing m with
  | done a => exact .of_later fun m' hinv hr => hf a m' hinv (h m' hinv hr)
  | call op next ih =>
    intro m' hinv hr a m'' hact
    obtain ⟨hhonours, hnext⟩ := h m' hinv hr a m'' hact
    exact ⟨hhonours, ih a hnext⟩

theorem Contract.Sound.perform {op : Op} {Q : Ans op → M → Prop}
    (h : ∀ m', C.inv m' → C.rely i m m' → ∀ a m'', acts i op m' a m'' →
      C.Honours i m' m'' ∧ ∀ m''', C.inv m''' → C.rely i m'' m''' → Q a m''') :
    C.Sound acts i Q (Script.perform op) m := h

variable [DecidableEq ι]

inductive Pool.Step (acts : Acts ι M Op Ans) (starts : Script Op Ans Unit → Prop)
    (outside : M → M → Prop) : Pool ι M Op Ans → Pool ι M Op Ans → Prop
  | call {c : Pool ι M Op Ans} (i : ι) {op : Op} {next : Ans op → Script Op Ans Unit}
    (h : c.threads i = .call op next) {a : Ans op} {m : M} (hact : acts i op c.memory a m) :
    Step acts starts outside c ⟨m, Function.update c.threads i (next a)⟩
  | start {c : Pool ι M Op Ans} (i : ι) (h : c.threads i = .done ()) {p : Script Op Ans Unit}
    (hp : starts p) : Step acts starts outside c ⟨c.memory, Function.update c.threads i p⟩
  | kill {c : Pool ι M Op Ans} (i : ι) :
    Step acts starts outside c ⟨c.memory, Function.update c.threads i (.done ())⟩
  | outside {c : Pool ι M Op Ans} {m : M} (h : outside c.memory m) :
    Step acts starts outside c ⟨m, c.threads⟩

variable {starts : Script Op Ans Unit → Prop} {outside : M → M → Prop}

/-- The invariant of a pool. -/
structure Pool.Holds (C : Contract ι M) (acts : Acts ι M Op Ans) (c : Pool ι M Op Ans) : Prop where
  inv : C.inv c.memory
  threads : ∀ i, C.Sound acts i (fun _ _ => True) (c.threads i) c.memory

/-- What may be started, and what happens around the pool. -/
structure Contract.Admits (C : Contract ι M) (acts : Acts ι M Op Ans)
    (starts : Script Op Ans Unit → Prop) (outside : M → M → Prop) : Prop where
  starts : ∀ p, starts p → ∀ i m, C.inv m → C.Sound acts i (fun _ _ => True) p m
  inv : ∀ m m', C.inv m → outside m m' → C.inv m'
  keeps : ∀ m m', C.inv m → outside m m' → C.keeps m m'
  rely : ∀ m m', C.inv m → outside m m' → ∀ i, C.rely i m m'

theorem Pool.Holds.update {c : Pool ι M Op Ans} (h : c.Holds C acts) (i : ι)
    {p : Script Op Ans Unit} (hp : C.Sound acts i (fun _ _ => True) p c.memory) :
    Pool.Holds C acts ⟨c.memory, Function.update c.threads i p⟩ := by
  refine ⟨h.inv, ?_⟩
  intro j
  by_cases hj : j = i
  · subst hj
    simpa using hp
  · simpa [hj] using h.threads j

theorem Pool.Step.holds {c c' : Pool ι M Op Ans} (hC : C.Admits acts starts outside)
    (hs : Pool.Step acts starts outside c c') (h : c.Holds C acts) :
    c'.Holds C acts ∧ C.keeps c.memory c'.memory := by
  cases hs with
  | call i hi hact =>
    have hsound := h.threads i
    rw [hi] at hsound
    obtain ⟨hhonours, hnext⟩ := hsound _ h.inv (C.rely_refl i _) _ _ hact
    refine ⟨⟨hhonours.inv, ?_⟩, hhonours.keeps⟩
    intro j
    by_cases hj : j = i
    · subst hj
      simpa using hnext
    · simpa [hj] using (h.threads j).later (hhonours.others j hj)
  | start i hi hp => exact ⟨h.update i (hC.starts _ hp i _ h.inv), C.keeps_refl _⟩
  | kill i => exact ⟨h.update i fun _ _ _ => trivial, C.keeps_refl _⟩
  | outside hout =>
    refine ⟨⟨hC.inv _ _ h.inv hout, ?_⟩, hC.keeps _ _ h.inv hout⟩
    exact fun i => (h.threads i).later (hC.rely _ _ h.inv hout i)

theorem Pool.run_holds {c c' : Pool ι M Op Ans} (hC : C.Admits acts starts outside)
    (hrun : ReflTransGen (Pool.Step acts starts outside) c c') (h : c.Holds C acts) :
    c'.Holds C acts ∧ C.keeps c.memory c'.memory := by
  induction hrun with
  | refl => exact ⟨h, C.keeps_refl _⟩
  | tail _ hs ih =>
    obtain ⟨hholds, hkeeps⟩ := hs.holds hC ih.1
    exact ⟨hholds, C.keeps_trans ih.2 hkeeps⟩

/-- Each call of the program is made where `G` allows it. -/
def Script.Meets {A : Type} (handle : (op : Op) → M → Outcome M A (Ans op)) (G : Op → M → Prop)
    {α : Type} : Script Op Ans α → M → Prop
  | .done _, _ => True
  | .call op next, m => G op m ∧ (next (handle op m).answer).Meets handle G (handle op m).after

instance Script.decidableMeets {A : Type} (handle : (op : Op) → M → Outcome M A (Ans op))
    (G : Op → M → Prop) [∀ op m, Decidable (G op m)] {α : Type} :
    (p : Script Op Ans α) → (m : M) → Decidable (p.Meets handle G m)
  | .done _, _ => .isTrue trivial
  | .call op next, m =>
    have := decidableMeets handle G (next (handle op m).answer) (handle op m).after
    inferInstanceAs (Decidable (_ ∧ _))

/-- A thread may run to its end while the others wait. -/
theorem Pool.run_thread {A : Type} {handle : (op : Op) → M → Outcome M A (Ans op)} {i : ι}
    {G : Op → M → Prop} (h : ∀ op m, G op m → acts i op m (handle op m).answer (handle op m).after)
    (p : Script Op Ans Unit) (m : M) (hp : p.Meets handle G m) (threads : ι → Script Op Ans Unit)
    (hi : threads i = p) :
    ReflTransGen (Pool.Step acts starts outside) ⟨m, threads⟩
      ⟨(p.run handle m).after, Function.update threads i (.done ())⟩ := by
  induction p generalizing m threads with
  | done a =>
    rw [Script.run_done, ← hi, Function.update_eq_self]
  | call op next ih =>
    have hstep : Pool.Step acts starts outside ⟨m, threads⟩
        ⟨(handle op m).after, Function.update threads i (next (handle op m).answer)⟩ :=
      .call i hi (h op m hp.1)
    have hrest := ih (handle op m).answer (handle op m).after hp.2
      (Function.update threads i (next (handle op m).answer)) (Function.update_self ..)
    rw [Function.update_idem] at hrest
    exact .head hstep hrest

end Redo.Library
