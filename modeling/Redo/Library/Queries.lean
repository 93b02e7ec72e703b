import Mathlib.Data.Nat.Notation
import Mathlib.Tactic.Common

/-! # Programs that ask

A deterministic program asks for values by name, one after the other, and ends with a value. What
it asks for next depends on the answers so far. Where programs stand under names themselves, the
answers come from other programs, and without circles every name has one value at most.
-/
namespace Redo.Library

universe u v

inductive Query (N : Type u) (V : Type v) where
  | done (v : V)
  | ask (n : N) (next : V → Query N V)

namespace Query
variable {N : Type u} {V : Type v} {q r : Query N V} {env env' : N → Option V}

/-- What the program ends with. Where it gets no answer it does not end. -/
def eval (env : N → Option V) : Query N V → Option V
  | done v => some v
  | ask n next => (env n).bind fun v => (next v).eval env

/-- `q` has been given these answers and goes on as `r`. -/
inductive After (q : Query N V) : List (N × V) → Query N V → Prop
  | start : After q [] q
  | answer {as : List (N × V)} {n : N} {next : V → Query N V} (v : V) (h : After q as (ask n next)) :
      After q (as ++ [(n, v)]) (next v)

/-- Whatever the answers, the program asks for these names only. -/
inductive Within (P : N → Prop) : Query N V → Prop
  | done (v : V) : Within P (done v)
  | ask {n : N} {next : V → Query N V} (hn : P n) (h : ∀ v, Within P (next v)) : Within P (ask n next)

theorem eval_congr {P : N → Prop} (h : q.Within P) (henv : ∀ n, P n → env n = env' n) :
    q.eval env = q.eval env' := by
  induction h with
  | done v => rfl
  | ask hn h ih =>
    rw [eval, eval, henv _ hn]
    apply Option.bind_congr
    intro v _
    exact ih v

/-- Answers that the names have anyway lead to the value that the program has anyway. -/
theorem After.eval_eq {as : List (N × V)} (h : After q as r)
    (has : ∀ a ∈ as, env a.1 = some a.2) : q.eval env = r.eval env := by
  induction h with
  | start => rfl
  | @answer as n next v h ih =>
    have hlast : env n = some v := has (n, v) (List.mem_append_right _ (List.mem_singleton.mpr rfl))
    have hbefore : ∀ a ∈ as, env a.1 = some a.2 := by
      intro a ha
      apply has
      exact List.mem_append_left _ ha
    rw [ih hbefore, eval, hlast]
    rfl

end Query

/-- Programs under names; each asks only for names of lower levels. -/
structure Rules (N : Type u) (V : Type v) where
  rule : N → Option (Query N V)
  level : N → ℕ
  acyclic : ∀ n q, rule n = some q → q.Within fun m => level m < level n

namespace Rules
variable {N : Type u} {V : Type v} (rules : Rules N V) (given : N → V)

/-- The values of the names below a level; without a program a name has the value it is given. -/
def below : ℕ → N → Option V
  | 0, _ => none
  | k + 1, n =>
    match rules.rule n with
    | none => some (given n)
    | some q => q.eval (below k)

def value (n : N) : Option V := rules.below given (rules.level n + 1) n

variable {rules given} {n : N} {q : Query N V}

theorem below_eq {k k' : ℕ} (h : rules.level n < k) (h' : rules.level n < k') :
    rules.below given k n = rules.below given k' n := by
  induction k generalizing n k' with
  | zero => omega
  | succ k ih =>
    cases k' with
    | zero => omega
    | succ k' =>
      rw [below, below]
      cases hq : rules.rule n with
      | none => rfl
      | some q =>
        apply Query.eval_congr (rules.acyclic n q hq)
        intro m hm
        exact ih (by omega) (by omega)

/-- A value depends only on what the names without a program are given. -/
theorem value_congr {given' : N → V} (h : ∀ n, rules.rule n = none → given n = given' n) (n : N) :
    rules.value given n = rules.value given' n := by
  suffices hbelow : ∀ k n, rules.below given k n = rules.below given' k n from hbelow _ n
  intro k
  induction k with
  | zero => exact fun _ => rfl
  | succ k ih =>
    intro n
    rw [below, below]
    cases hq : rules.rule n with
    | none => rw [h n hq]
    | some q => rw [funext ih]

theorem value_given (h : rules.rule n = none) : rules.value given n = some (given n) := by
  simp [value, below, h]

theorem value_rule (h : rules.rule n = some q) :
    rules.value given n = q.eval (rules.value given) := by
  rw [value, below, h]
  apply Query.eval_congr (rules.acyclic n q h)
  intro m hm
  exact below_eq hm (Nat.lt_succ_self _)

/-- A program that has been given the values of what it has asked for ends with its own. -/
theorem value_of_answers {as : List (N × V)} {v : V} (hq : rules.rule n = some q)
    (h : q.After as (.done v)) (has : ∀ a ∈ as, rules.value given a.1 = some a.2) :
    rules.value given n = some v := by
  rw [value_rule hq, h.eval_eq has]
  rfl

end Rules
end Redo.Library
