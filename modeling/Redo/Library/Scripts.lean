import Mathlib.Tactic.Common

/-! # Programs that call on a memory

A program is a tree of calls with a branch for each answer. A handler answers the calls on a
memory and notes the areas that it has looked at or changed. What a program answers and
leaves behind depends on the noted areas only, and no other area is changed.
-/
namespace Redo.Library

inductive Script (Op : Type) (Ans : Op → Type) (α : Type)
  | done (a : α)
  | call (op : Op) (next : Ans op → Script Op Ans α)

namespace Script
variable {Op : Type} {Ans : Op → Type} {α β : Type}

def bind : Script Op Ans α → (α → Script Op Ans β) → Script Op Ans β
  | .done a, f => f a
  | .call op next, f => .call op fun x => (next x).bind f

instance : Monad (Script Op Ans) where
  pure := .done
  bind := bind

def perform (op : Op) : Script Op Ans (Ans op) := .call op .done

@[simp] theorem pure_eq (a : α) : (pure a : Script Op Ans α) = .done a := rfl

@[simp] theorem done_bind (a : α) (f : α → Script Op Ans β) : (.done a >>= f) = f a := rfl

@[simp] theorem call_bind (op : Op) (next : Ans op → Script Op Ans α)
    (f : α → Script Op Ans β) : (.call op next >>= f) = .call op fun x => next x >>= f := rfl

@[simp] theorem perform_bind (op : Op) (f : Ans op → Script Op Ans β) :
    (perform op >>= f) = .call op f := rfl

/-- Every call that the program can make is allowed, whatever the answers are. -/
def Only (allowed : Op → Prop) : Script Op Ans α → Prop
  | .done _ => True
  | .call op next => allowed op ∧ ∀ x, (next x).Only allowed

theorem Only.bind {allowed : Op → Prop} {p : Script Op Ans α} {f : α → Script Op Ans β}
    (h : p.Only allowed) (hf : ∀ a, (f a).Only allowed) : (p >>= f).Only allowed := by
  induction p with
  | done a => exact hf a
  | call op next ih => exact ⟨h.1, fun x => ih x (h.2 x)⟩

/-- The program can only end with a value that has `P`. -/
def Yields (P : α → Prop) : Script Op Ans α → Prop
  | .done a => P a
  | .call _ next => ∀ x, (next x).Yields P

theorem yields_true (p : Script Op Ans α) : p.Yields fun _ => True := by
  induction p with
  | done a => trivial
  | call op next ih => exact ih

theorem Yields.bind {Q : α → Prop} {P : β → Prop} {p : Script Op Ans α} {f : α → Script Op Ans β}
    (h : p.Yields Q) (hf : ∀ a, Q a → (f a).Yields P) : (p >>= f).Yields P := by
  induction p with
  | done a => exact hf a h
  | call op next ih => exact fun x => ih x (h x)

/-- Whatever comes before the end does not matter to how it ends. -/
theorem yields_bind {P : β → Prop} (p : Script Op Ans α) {f : α → Script Op Ans β}
    (hf : ∀ a, (f a).Yields P) : (p >>= f).Yields P :=
  p.yields_true.bind fun a _ => hf a

/-- The program can come to this end. Each call shows something of itself and of its answer; all that
is shown on the way there is listed. -/
inductive Shows {Obs : Type} (observe : (op : Op) → Ans op → List Obs) :
    Script Op Ans α → List Obs → α → Prop
  | done (a : α) : Shows observe (.done a) [] a
  | call {op : Op} {next : Ans op → Script Op Ans α} (x : Ans op) {os : List Obs} {a : α}
      (h : Shows observe (next x) os a) : Shows observe (.call op next) (observe op x ++ os) a

section Shows
variable {Obs : Type} {observe : (op : Op) → Ans op → List Obs} {os : List Obs}

theorem shows_done {a b : α} : Shows observe (.done a : Script Op Ans α) os b ↔ os = [] ∧ b = a := by
  constructor
  · intro h
    cases h
    exact ⟨rfl, rfl⟩
  · rintro ⟨rfl, rfl⟩
    exact .done _

theorem shows_call {op : Op} {next : Ans op → Script Op Ans α} {a : α} :
    Shows observe (.call op next) os a ↔ ∃ x os', os = observe op x ++ os' ∧ Shows observe (next x) os' a := by
  constructor
  · intro h
    cases h with
    | call x h => exact ⟨x, _, rfl, h⟩
  · rintro ⟨x, os', rfl, h⟩
    exact .call x h

theorem shows_bind {p : Script Op Ans α} {f : α → Script Op Ans β} {b : β} (h : Shows observe (p >>= f) os b) :
    ∃ os₁ a os₂, os = os₁ ++ os₂ ∧ Shows observe p os₁ a ∧ Shows observe (f a) os₂ b := by
  induction p generalizing os with
  | done a => exact ⟨[], a, os, rfl, .done a, h⟩
  | call op next ih =>
    obtain ⟨x, rest, rfl, hrest⟩ := shows_call.mp h
    obtain ⟨os₁, a, os₂, rfl, hp, hf⟩ := ih x hrest
    exact ⟨observe op x ++ os₁, a, os₂, (List.append_assoc ..).symm, .call x hp, hf⟩

end Shows

end Script

/-- What a computation answers and leaves behind, and the areas that it has touched. -/
structure Outcome (M A α : Type) where
  answer : α
  after : M
  touched : List A

namespace Script
variable {Op : Type} {Ans : Op → Type} {M A α β : Type}

def run (handle : (op : Op) → M → Outcome M A (Ans op)) :
    Script Op Ans α → M → Outcome M A α
  | .done a, m => ⟨a, m, []⟩
  | .call op next, m =>
    let first := handle op m
    let rest := (next first.answer).run handle first.after
    ⟨rest.answer, rest.after, first.touched ++ rest.touched⟩

variable {handle : (op : Op) → M → Outcome M A (Ans op)}

@[simp] theorem run_done (a : α) (m : M) : (done a : Script Op Ans α).run handle m = ⟨a, m, []⟩ :=
  rfl

theorem run_call (op : Op) (next : Ans op → Script Op Ans α) (m : M) :
    (call op next).run handle m =
      ⟨((next (handle op m).answer).run handle (handle op m).after).answer,
        ((next (handle op m).answer).run handle (handle op m).after).after,
        (handle op m).touched ++
          ((next (handle op m).answer).run handle (handle op m).after).touched⟩ := rfl

theorem Yields.run {P : α → Prop} {p : Script Op Ans α} (h : p.Yields P) (m : M) :
    P (p.run handle m).answer := by
  induction p generalizing m with
  | done a => exact h
  | call op next ih => exact ih _ (h _) _

theorem run_bind (p : Script Op Ans α) (f : α → Script Op Ans β) (m : M) :
    (p >>= f).run handle m =
      ⟨((f (p.run handle m).answer).run handle (p.run handle m).after).answer,
        ((f (p.run handle m).answer).run handle (p.run handle m).after).after,
        (p.run handle m).touched ++
          ((f (p.run handle m).answer).run handle (p.run handle m).after).touched⟩ := by
  induction p generalizing m with
  | done a => simp
  | call op next ih => simp only [call_bind, run_call, ih, List.append_assoc]

end Script

namespace Script
variable {Op : Type} {Ans : Op → Type} {M A α β : Type}

/-- From every memory with `I` the program touches only areas with `P`, and leaves a memory with `J`. -/
def Keeps (handle : (op : Op) → M → Outcome M A (Ans op)) (P : A → Prop) (I J : M → Prop)
    (p : Script Op Ans α) : Prop :=
  ∀ m, I m → (∀ a ∈ (p.run handle m).touched, P a) ∧ J (p.run handle m).after

variable {handle : (op : Op) → M → Outcome M A (Ans op)} {P : A → Prop} {I J K : M → Prop}

theorem keeps_pure (a : α) : Keeps handle P I I (pure a : Script Op Ans α) := by
  intro m hm
  simpa using hm

theorem keeps_perform {op : Op} (h : ∀ m, I m → (∀ a ∈ (handle op m).touched, P a) ∧ J (handle op m).after) :
    Keeps handle P I J (perform op) := by
  intro m hm
  obtain ⟨htouched, hafter⟩ := h m hm
  rw [perform, run_call]
  exact ⟨by simpa using htouched, hafter⟩

theorem Keeps.bind {p : Script Op Ans α} {f : α → Script Op Ans β} (h : Keeps handle P I J p)
    (hf : ∀ a, Keeps handle P J K (f a)) : Keeps handle P I K (p >>= f) := by
  intro m hm
  obtain ⟨htouched, hafter⟩ := h m hm
  obtain ⟨htouched', hafter'⟩ := hf _ _ hafter
  rw [run_bind]
  refine ⟨fun a ha => ?_, hafter'⟩
  rcases List.mem_append.mp ha with ha | ha
  · exact htouched a ha
  · exact htouched' a ha

/-- A weaker memory is enough before, and a stronger one is more than enough afterwards. -/
theorem Keeps.mono {I' J' : M → Prop} {p : Script Op Ans α} (h : Keeps handle P I J p)
    (hI : ∀ m, I' m → I m) (hJ : ∀ m, J m → J' m) : Keeps handle P I' J' p :=
  fun m hm => ⟨(h m (hI m hm)).1, hJ _ (h m (hI m hm)).2⟩

end Script

section
variable {M A κ v α β : Type} (covers : A → κ → Prop) (view : M → κ → v)

/-- Two memories look the same in the areas. -/
def Agree (areas : List A) (m m' : M) : Prop :=
  ∀ a ∈ areas, ∀ k, covers a k → view m k = view m' k

/-- Nothing is changed that no touched area covers. -/
def Frames (f : M → Outcome M A α) : Prop :=
  ∀ m k, (∀ a ∈ (f m).touched, ¬covers a k) → view (f m).after k = view m k

structure Local (f : M → Outcome M A α) : Prop where
  frame : Frames covers view f
  answer : ∀ m m', Agree covers view (f m).touched m m' → (f m').answer = (f m).answer
  touched : ∀ m m', Agree covers view (f m).touched m m' → (f m').touched = (f m).touched
  after : ∀ m m', Agree covers view (f m).touched m m' →
    Agree covers view (f m).touched (f m).after (f m').after

variable {covers view}

theorem Agree.left {areas more : List A} {m m' : M} (h : Agree covers view (areas ++ more) m m') :
    Agree covers view areas m m' :=
  fun a ha => h a (List.mem_append_left _ ha)

theorem Agree.right {areas more : List A} {m m' : M} (h : Agree covers view (areas ++ more) m m') :
    Agree covers view more m m' :=
  fun a ha => h a (List.mem_append_right _ ha)

/-- Memories that agreed on more than was touched still do. -/
theorem Local.agree {f : M → Outcome M A α} (h : Local covers view f) {areas : List A} {m m' : M}
    (hf : Agree covers view (f m).touched m m') (hm : Agree covers view areas m m') :
    Agree covers view areas (f m).after (f m').after := by
  intro a ha k hk
  by_cases hcovered : ∃ b ∈ (f m).touched, covers b k
  · obtain ⟨b, hb, hbk⟩ := hcovered
    exact h.after m m' hf b hb k hbk
  · have hfree : ∀ b ∈ (f m).touched, ¬covers b k := fun b hb hbk => hcovered ⟨b, hb, hbk⟩
    rw [h.frame m k hfree, hm a ha k hk, h.frame m' k]
    rw [h.touched m m' hf]
    exact hfree

variable {Op : Type} {Ans : Op → Type} {handle : (op : Op) → M → Outcome M A (Ans op)}

theorem Script.run_frames (h : ∀ op, Frames covers view (handle op)) (p : Script Op Ans α) :
    Frames covers view (p.run handle) := by
  induction p with
  | done a => exact fun m k _ => rfl
  | call op next ih =>
    intro m k hfree
    rw [run_call] at hfree ⊢
    rw [ih _ _ k fun a ha => hfree a (List.mem_append_right _ ha)]
    exact h op m k fun a ha => hfree a (List.mem_append_left _ ha)

theorem Script.run_local (h : ∀ op, Local covers view (handle op)) (p : Script Op Ans α) :
    Local covers view (p.run handle) := by
  induction p with
  | done a =>
    constructor
    · exact fun m k _ => rfl
    · exact fun m m' _ => rfl
    · exact fun m m' _ => rfl
    · exact fun m m' hm => hm
  | call op next ih =>
    constructor
    · exact run_frames (fun op => (h op).frame) (.call op next)
    · intro m m' hm
      have hrest := (h op).agree hm.left hm.right
      simp only [run_call, (h op).answer m m' hm.left]
      exact (ih _).answer _ _ hrest
    · intro m m' hm
      have hrest := (h op).agree hm.left hm.right
      simp only [run_call, (h op).answer m m' hm.left, (h op).touched m m' hm.left]
      rw [(ih _).touched _ _ hrest]
    · intro m m' hm
      have hfirst := (h op).agree hm.left hm
      have hrest := (h op).agree hm.left hm.right
      simp only [run_call, (h op).answer m m' hm.left]
      exact (ih _).agree hrest hfirst

/-- A computation that touches a region only: memories that look the same there give the same
answer and look the same there afterwards. -/
theorem Local.within {f : M → Outcome M A α} (h : Local covers view f) {region : κ → Prop}
    {m m' : M} (hregion : ∀ a ∈ (f m).touched, ∀ k, covers a k → region k)
    (hm : ∀ k, region k → view m k = view m' k) :
    (f m').answer = (f m).answer ∧ (∀ k, region k → view (f m).after k = view (f m').after k) ∧
      ∀ k, ¬region k → view (f m').after k = view m' k := by
  have htouched : Agree covers view (f m).touched m m' :=
    fun a ha k hk => hm k (hregion a ha k hk)
  have houtside : ∀ {x : M}, (f x).touched = (f m).touched → ∀ k, ¬region k →
      view (f x).after k = view x k := by
    intro x hx k hk
    apply h.frame
    rw [hx]
    exact fun a ha hak => hk (hregion a ha k hak)
  refine ⟨h.answer m m' htouched, ?_, houtside (h.touched m m' htouched)⟩
  intro k hk
  by_cases hcovered : ∃ b ∈ (f m).touched, covers b k
  · obtain ⟨b, hb, hbk⟩ := hcovered
    exact h.after m m' htouched b hb k hbk
  · have hfree : ∀ b ∈ (f m).touched, ¬covers b k := fun b hb hbk => hcovered ⟨b, hb, hbk⟩
    rw [h.frame m k hfree, hm k hk, h.frame m' k]
    rw [h.touched m m' htouched]
    exact hfree

end

end Redo.Library
