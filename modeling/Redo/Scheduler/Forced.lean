import Mathlib.Data.Int.Order.Basic
import Mathlib.Data.List.Perm.Basic
import Mathlib.Logic.Relation
import Mathlib.Tactic.Common

/-! # The targets of `redo`

`redo` builds what it is given without a look at the dependencies. With more than one job and more
than one target every target gets a process of its own; else one is built after the other.
-/
namespace Redo.Scheduler.Forced
open Relation

/-- What is found at a target. -/
inductive Seen where
  | missing
  | generated
  | source
  /-- A source without a row, for which `by_name` inserts one. -/
  | newSource
deriving DecidableEq

/-- "exists and not marked as generated; not redoing." -/
def Seen.skips : Seen → Bool
  | .source | .newSource => true
  | .missing | .generated => false

inductive Ended where
  | code (rc : ℤ)
  | error
deriving DecidableEq

/-- Without a newline and not empty. -/
def IsTarget (t : String) : Prop := '\n' ∉ t.toList ∧ t ≠ ""

instance (t : String) : Decidable (IsTarget t) := inferInstanceAs (Decidable (_ ∧ _))

section Sequential
variable {σ : Type}

/-- What a target comes to, in a world that the builds change; there may be errors. -/
structure Builder (σ : Type) where
  look : σ → String → Option Seen × σ
  buildOne : σ → String → Option ℤ × σ

def Builder.loop (b : Builder σ) (keepGoing : Bool) : List String → ℤ → σ → Ended × σ
  | [], rc, s => (.code rc, s)
  | t :: rest, rc, s =>
    if ¬IsTarget t then (.code 204, s)
    else
      match b.look s t with
      | (none, s) => (.error, s)
      | (some seen, s) =>
        if seen.skips then b.loop keepGoing rest rc s
        else
          match b.buildOne s t with
          | (none, s) => (.error, s)
          | (some rv, s) =>
            if rv = 0 then b.loop keepGoing rest rc s
            else if keepGoing then b.loop keepGoing rest 1 s
            else (.code 1, s)

/-- A world that stays as it is. -/
def Builder.steady (seen : String → Seen) (rv : String → ℤ) : Builder Unit where
  look _ t := (some (seen t), ())
  buildOne _ t := (some (rv t), ())

end Sequential

inductive Ctl where
  | check (rest : List String)
  | start (rest : List String)
  /-- `ensure_token_or_cheat` for a target. -/
  | token (t : String) (rest : List String)
  | waitAll
  | ended (r : Ended)
deriving DecidableEq

structure Driver where
  ctl : Ctl
  looked : List (String × Seen) := []
  todo : List String := []
  started : List String := []
  /-- The processes that have not been waited for. -/
  running : List String := []
  exits : List (String × ℤ) := []

namespace Driver

def given (targets : List String) : Driver := { ctl := .check targets }

/-- `rc_flag` -/
def Failed (s : Driver) : Prop := ∃ e ∈ s.exits, e.2 ≠ 0

/-- `by_name` has written, and there has been no commit since. -/
def Wrote (s : Driver) : Prop := ∃ p ∈ s.looked, p.2 = .newSource

def goto (s : Driver) (k : Ctl) : Driver := { s with ctl := k }

def look (s : Driver) (t : String) (seen : Seen) (rest : List String) : Driver :=
  { s with
    ctl := .check rest
    looked := s.looked ++ [(t, seen)]
    todo := if seen.skips then s.todo else s.todo ++ [t] }

def start (s : Driver) (t : String) (rest : List String) : Driver :=
  { s with ctl := .start rest, started := s.started ++ [t], running := s.running ++ [t] }

def reap (s : Driver) (t : String) (rv : ℤ) : Driver :=
  { s with running := s.running.erase t, exits := s.exits ++ [(t, rv)] }

end Driver

open Driver

/-- With processes of their own. What the system and the processes do is open. -/
inductive Step (keepGoing : Bool) : Driver → Driver → Prop where
  | bad {s t rest} (at_ : s.ctl = .check (t :: rest)) (hbad : ¬IsTarget t) :
      Step keepGoing s (s.goto (.ended (.code 204)))
  | lookError {s t rest} (at_ : s.ctl = .check (t :: rest)) (hgood : IsTarget t) :
      Step keepGoing s (s.goto (.ended .error))
  | look {s t rest} (at_ : s.ctl = .check (t :: rest)) (hgood : IsTarget t) (seen : Seen) :
      Step keepGoing s (s.look t seen rest)
  | checked {s} (at_ : s.ctl = .check []) : Step keepGoing s (s.goto (.start s.todo))
  | stop {s t rest} (at_ : s.ctl = .start (t :: rest)) (hstop : s.Failed ∧ keepGoing = false) :
      Step keepGoing s (s.goto .waitAll)
  | goOn {s t rest} (at_ : s.ctl = .start (t :: rest)) (hgo : ¬(s.Failed ∧ keepGoing = false)) :
      Step keepGoing s (s.goto (.token t rest))
  | allStarted {s} (at_ : s.ctl = .start []) : Step keepGoing s (s.goto .waitAll)
  | reap {s t} (rv : ℤ) (at_ : (∃ u rest, s.ctl = .token u rest) ∨ s.ctl = .waitAll)
      (hrunning : t ∈ s.running) : Step keepGoing s (s.reap t rv)
  /-- There is no token, no process, or something is not committed. -/
  | startError {s t rest} (at_ : s.ctl = .token t rest) : Step keepGoing s (s.goto (.ended .error))
  | start {s t rest} (at_ : s.ctl = .token t rest) (hflushed : ¬s.Wrote) :
      Step keepGoing s (s.start t rest)
  | waitError {s} (at_ : s.ctl = .waitAll) : Step keepGoing s (s.goto (.ended .error))
  | finish {s} (at_ : s.ctl = .waitAll) (hdone : s.running = []) (rc : ℤ)
      (hrc : rc = 1 ∧ s.Failed ∨ rc = 0 ∧ ¬s.Failed) :
      Step keepGoing s (s.goto (.ended (.code rc)))

variable {keepGoing : Bool} {ts : List String} {s s' : Driver}

/-- All are started, or one has failed before that. -/
def Driver.Stopped (keepGoing : Bool) (s : Driver) : Prop :=
  s.started <+: s.todo ∧ (s.started = s.todo ∨ s.Failed ∧ keepGoing = false)

/-- Where the driver is among the targets. -/
def Driver.Within (keepGoing : Bool) (ts : List String) (s : Driver) : Ctl → Prop
  | .check rest => s.looked.map Prod.fst ++ rest = ts ∧ s.started = [] ∧ s.running = []
  | .start rest => s.looked.map Prod.fst = ts ∧ s.started ++ rest = s.todo
  | .token t rest => s.looked.map Prod.fst = ts ∧ s.started ++ t :: rest = s.todo
  | .waitAll => s.looked.map Prod.fst = ts ∧ s.Stopped keepGoing
  | .ended .error => True
  | .ended (.code rc) => rc = 204 ∧ (∃ t ∈ ts, ¬IsTarget t) ∧ s.started = [] ∨
      (s.looked.map Prod.fst = ts ∧ s.Stopped keepGoing ∧ s.running = [] ∧
        (rc = 1 ∧ s.Failed ∨ rc = 0 ∧ ¬s.Failed))

structure Driver.Inv (keepGoing : Bool) (ts : List String) (s : Driver) : Prop where
  good : ∀ p ∈ s.looked, IsTarget p.1
  todo : s.todo = (s.looked.filter (!·.2.skips)).map Prod.fst
  each : (s.exits.map Prod.fst ++ s.running).Perm s.started
  flushed : s.started ≠ [] → ¬s.Wrote
  within : s.Within keepGoing ts s.ctl

theorem given_inv (keepGoing : Bool) (ts : List String) : (given ts).Inv keepGoing ts where
  good := by simp [given]
  todo := rfl
  each := .refl []
  flushed := fun h => absurd rfl h
  within := ⟨rfl, rfl, rfl⟩

/-- Steps that start and reap nothing. -/
theorem Driver.Inv.goto (h : s.Inv keepGoing ts) {k : Ctl} (hk : s.Within keepGoing ts k) :
    (s.goto k).Inv keepGoing ts :=
  { h with within := by cases k <;> exact hk }

theorem Driver.Inv.start (h : s.Inv keepGoing ts) {t : String} {rest : List String}
    (hat : s.ctl = .token t rest) (hflushed : ¬s.Wrote) : (s.start t rest).Inv keepGoing ts where
  good := h.good
  todo := h.todo
  each := by
    rw [Driver.start, ← List.append_assoc]
    exact h.each.append_right [t]
  flushed := fun _ => hflushed
  within := by
    have hwithin := h.within
    rw [hat] at hwithin
    exact ⟨hwithin.1, by rw [Driver.start, List.append_assoc]; exact hwithin.2⟩

theorem Driver.Inv.look (h : s.Inv keepGoing ts) {t : String} {rest : List String}
    (hat : s.ctl = .check (t :: rest)) (hgood : IsTarget t) (seen : Seen) :
    (s.look t seen rest).Inv keepGoing ts := by
  have hwithin := h.within
  rw [hat] at hwithin
  obtain ⟨hlooked, hstarted, hrunning⟩ := hwithin
  refine ⟨?_, ?_, h.each, fun hne => absurd hstarted hne, ?_, hstarted, hrunning⟩
  · intro p hp
    rcases List.mem_append.mp hp with hp | hp
    · exact h.good p hp
    · rw [List.mem_singleton.mp hp]
      exact hgood
  · simp only [Driver.look, h.todo, List.filter_append, List.map_append]
    cases seen <;> simp [Seen.skips]
  · simpa [Driver.look] using hlooked

theorem Driver.Inv.reap (h : s.Inv keepGoing ts) {t : String} (rv : ℤ)
    (hat : (∃ u rest, s.ctl = .token u rest) ∨ s.ctl = .waitAll) (hrunning : t ∈ s.running) :
    (s.reap t rv).Inv keepGoing ts where
  good := h.good
  todo := h.todo
  each := by
    have hmove : (s.exits.map Prod.fst ++ t :: s.running.erase t).Perm s.started :=
      ((List.perm_cons_erase hrunning).symm.append_left _).trans h.each
    simpa [Driver.reap] using hmove
  flushed := h.flushed
  within := by
    have hwithin := h.within
    have hfailed : s.Failed → (s.reap t rv).Failed := fun ⟨e, he, hne⟩ =>
      ⟨e, List.mem_append_left _ he, hne⟩
    rcases hat with ⟨u, rest, hctl⟩ | hctl
    · rw [hctl] at hwithin
      change (s.reap t rv).Within keepGoing ts s.ctl
      rw [hctl]
      exact hwithin
    · rw [hctl] at hwithin
      change (s.reap t rv).Within keepGoing ts s.ctl
      rw [hctl]
      exact ⟨hwithin.1, hwithin.2.1, hwithin.2.2.imp_right fun hf => ⟨hfailed hf.1, hf.2⟩⟩

theorem Step.inv (hstep : Step keepGoing s s') (h : s.Inv keepGoing ts) : s'.Inv keepGoing ts := by
  have hwithin := h.within
  cases hstep with
  | bad hat hbad =>
    rw [hat] at hwithin
    refine h.goto (.inl ⟨rfl, ⟨_, ?_, hbad⟩, hwithin.2.1⟩)
    rw [← hwithin.1]
    simp
  | lookError | startError | waitError => exact h.goto trivial
  | look hat hgood seen => exact h.look hat hgood seen
  | checked hat =>
    rw [hat] at hwithin
    refine h.goto ⟨by simpa using hwithin.1, by rw [hwithin.2.1]; rfl⟩
  | stop hat hstop =>
    rw [hat] at hwithin
    exact h.goto ⟨hwithin.1, ⟨_, hwithin.2⟩, .inr hstop⟩
  | goOn hat =>
    rw [hat] at hwithin
    exact h.goto hwithin
  | allStarted hat =>
    rw [hat] at hwithin
    have hall : s.started = s.todo := by simpa using hwithin.2
    exact h.goto ⟨hwithin.1, hall ▸ List.prefix_rfl, .inl hall⟩
  | reap rv hat hrunning => exact h.reap rv hat hrunning
  | start hat hflushed => exact h.start hat hflushed
  | finish hat hdone rc hrc =>
    rw [hat] at hwithin
    exact h.goto (.inr ⟨hwithin.1, hwithin.2, hdone, hrc⟩)

theorem run_inv (hrun : ReflTransGen (Step keepGoing) (given ts) s) : s.Inv keepGoing ts := by
  induction hrun with
  | refl => exact given_inv keepGoing ts
  | tail _ hstep ih => exact hstep.inv ih

/-- Steps that are left at most. -/
def Driver.left (s : Driver) : ℕ :=
  s.running.length +
    match s.ctl with
    | .check rest => 6 * rest.length + 5 * s.todo.length + 3
    | .start rest => 5 * rest.length + 2
    | .token _ rest => 5 * rest.length + 5
    | .waitAll => 1
    | .ended _ => 0

theorem Step.left_lt (hstep : Step keepGoing s s') : s'.left < s.left := by
  cases hstep with
  | bad hat | lookError hat | checked hat | stop hat | goOn hat | allStarted hat | startError hat
  | waitError hat | finish hat =>
    simp only [Driver.left, Driver.goto, hat, List.length_cons, List.length_nil]
    omega
  | look hat hgood seen =>
    simp only [Driver.left, Driver.look, hat, List.length_cons]
    cases seen <;> simp [Seen.skips] <;> omega
  | start hat =>
    simp only [Driver.left, Driver.start, hat, List.length_append, List.length_singleton]
    omega
  | @reap t rv hat hrunning =>
    have hlength := List.length_erase_of_mem hrunning
    have hpos := List.length_pos_of_mem hrunning
    simp only [Driver.left, Driver.reap]
    omega

/-- There is always a next step until the end. -/
theorem next_or_ended (keepGoing : Bool) (s : Driver) :
    (∃ s', Step keepGoing s s') ∨ ∃ r, s.ctl = .ended r := by
  cases hat : s.ctl with
  | check rest =>
    cases rest with
    | nil => exact .inl ⟨_, .checked hat⟩
    | cons t rest =>
      by_cases hgood : IsTarget t
      · exact .inl ⟨_, .look hat hgood .missing⟩
      · exact .inl ⟨_, .bad hat hgood⟩
  | start rest =>
    cases rest with
    | nil => exact .inl ⟨_, .allStarted hat⟩
    | cons t rest =>
      by_cases hstop : s.Failed ∧ keepGoing = false
      · exact .inl ⟨_, .stop hat hstop⟩
      · exact .inl ⟨_, .goOn hat hstop⟩
  | token t rest =>
    by_cases hwrote : s.Wrote
    · exact .inl ⟨_, .startError hat⟩
    · exact .inl ⟨_, .start hat hwrote⟩
  | waitAll =>
    cases hrunning : s.running with
    | nil =>
      by_cases hfailed : s.Failed
      · exact .inl ⟨_, .finish hat hrunning 1 (.inl ⟨rfl, hfailed⟩)⟩
      · exact .inl ⟨_, .finish hat hrunning 0 (.inr ⟨rfl, hfailed⟩)⟩
    | cons t rest => exact .inl ⟨_, .reap 0 (.inr hat) (hrunning ▸ List.mem_cons_self)⟩
  | ended r => exact .inr ⟨r, rfl⟩

theorem left_run {f : ℕ → Driver} {n : ℕ} (hsteps : ∀ i < n, Step keepGoing (f i) (f (i + 1))) :
    n + (f n).left ≤ (f 0).left := by
  induction n with
  | zero => simp
  | succ n ih =>
    have hn := ih fun i hi => hsteps i (Nat.lt_succ_of_lt hi)
    have hlt := (hsteps n (Nat.lt_succ_self n)).left_lt
    omega

/-- One after the other: the code tells whether any of the builds has failed, with or without `-k`. -/
theorem loop_steady {seen : String → Seen} {rv : String → ℤ} (hgood : ∀ t ∈ ts, IsTarget t) (rc : ℤ) :
    (Builder.steady seen rv).loop keepGoing ts rc () =
      (.code (if ∃ t ∈ ts, (seen t).skips = false ∧ rv t ≠ 0 then 1 else rc), ()) := by
  induction ts generalizing rc with
  | nil => simp [Builder.loop]
  | cons t rest ih =>
    have hrest := ih (fun u hu => hgood u (List.mem_cons_of_mem t hu)) rc
    rw [Builder.loop, if_neg (not_not.mpr (hgood t List.mem_cons_self))]
    by_cases hskips : (seen t).skips = true
    · simp [Builder.steady, hskips, ← hrest]
    · by_cases hrv : rv t = 0
      · simp [Builder.steady, hskips, hrv, ← hrest]
      · have hone := ih (fun u hu => hgood u (List.mem_cons_of_mem t hu)) 1
        cases keepGoing
        · simp [Builder.steady, hskips, hrv]
        · simpa [Builder.steady, hskips, hrv] using hone

/-- What there is to know of a call that has ended. -/
structure Outcome (keepGoing : Bool) (ts : List String) (s : Driver) (r : Ended) : Prop where
  bad : r = .code 204 → (∃ t ∈ ts, ¬IsTarget t) ∧ s.started = []
  code : ∀ rc, r = .code rc → rc ≠ 204 →
    (s.exits.map Prod.fst).Perm s.started ∧ s.started <+: s.todo ∧
      (rc = 1 ∧ s.Failed ∨ rc = 0 ∧ ¬s.Failed) ∧ (rc = 0 ∨ keepGoing = true → s.started = s.todo)
  /-- A source that is new to the tables keeps all others from being built. -/
  wrote : s.Wrote → (∀ t ∈ ts, IsTarget t) → s.todo ≠ [] → r = .error ∧ s.started = []
  /-- In a steady world the code is that of the other way to build. -/
  sequential : ∀ seen rv, (∀ p ∈ s.looked, p.2 = seen p.1) → (∀ e ∈ s.exits, e.2 = rv e.1) →
    (∀ t ∈ ts, IsTarget t) → r ≠ .error → (Builder.steady seen rv).loop keepGoing ts 0 () = (r, ())

theorem Driver.Inv.outcome (h : s.Inv keepGoing ts) {r : Ended} (hat : s.ctl = .ended r) :
    Outcome keepGoing ts s r := by
  have hwithin := h.within
  rw [hat] at hwithin
  have hcode : ∀ rc, r = .code rc → (∀ t ∈ ts, IsTarget t) → s.looked.map Prod.fst = ts ∧
      s.Stopped keepGoing ∧ s.running = [] ∧ (rc = 1 ∧ s.Failed ∨ rc = 0 ∧ ¬s.Failed) := by
    rintro rc rfl hall
    rcases hwithin with ⟨-, ⟨t, ht, hbad⟩, -⟩ | hdone
    · exact absurd (hall t ht) hbad
    · exact hdone
  have heach : s.running = [] → (s.exits.map Prod.fst).Perm s.started := fun hnil => by
    simpa [hnil] using h.each
  refine ⟨?_, ?_, ?_, ?_⟩
  · rintro rfl
    rcases hwithin with ⟨-, hbad, hstarted⟩ | ⟨-, -, -, ⟨hrc, -⟩ | ⟨hrc, -⟩⟩
    · exact ⟨hbad, hstarted⟩
    · exact absurd hrc (by decide)
    · exact absurd hrc (by decide)
  · rintro rc rfl hne
    obtain ⟨-, ⟨hfirsts, hstopped⟩, hrunning, hrc⟩ := hwithin.resolve_left fun hbad => hne hbad.1
    refine ⟨heach hrunning, hfirsts, hrc, ?_⟩
    rintro (rfl | hkeep)
    · have hnot : ¬s.Failed := by
        rcases hrc with ⟨hrc, -⟩ | ⟨-, hnot⟩
        · exact absurd hrc (by decide)
        · exact hnot
      exact hstopped.resolve_right fun hf => hnot hf.1
    · exact hstopped.resolve_right fun hf => by simp [hkeep] at hf
  · intro hwrote hall htodo
    have hstarted : s.started = [] := by
      by_contra hne
      exact h.flushed hne hwrote
    refine ⟨?_, hstarted⟩
    cases r with
    | error => rfl
    | code rc =>
      obtain ⟨-, ⟨-, hstopped⟩, hrunning, -⟩ := hcode rc rfl hall
      have hexits : s.exits = [] := by simpa [hstarted] using heach hrunning
      rcases hstopped with hsame | ⟨⟨e, he, -⟩, -⟩
      · exact absurd (hsame.symm.trans hstarted) htodo
      · rw [hexits] at he
        cases he
  · intro seen rv hseen hrv hall hne
    cases r with
    | error => exact absurd rfl hne
    | code rc =>
      obtain ⟨hlooked, ⟨hfirsts, hstopped⟩, hrunning, hrc⟩ := hcode rc rfl hall
      have hmem : ∀ t, t ∈ s.todo ↔ t ∈ ts ∧ (seen t).skips = false := by
        intro t
        rw [h.todo, ← hlooked]
        simp only [List.mem_map, List.mem_filter, Bool.not_eq_true']
        constructor
        · rintro ⟨p, ⟨hp, hskips⟩, rfl⟩
          exact ⟨⟨p, hp, rfl⟩, hseen p hp ▸ hskips⟩
        · rintro ⟨⟨p, hp, rfl⟩, hskips⟩
          exact ⟨p, ⟨hp, (hseen p hp).symm ▸ hskips⟩, rfl⟩
      have hexit : ∀ t, t ∈ s.exits.map Prod.fst ↔ t ∈ s.started := fun t =>
        (heach hrunning).mem_iff
      have hfailed : s.Failed ↔ ∃ t ∈ ts, (seen t).skips = false ∧ rv t ≠ 0 := by
        constructor
        · rintro ⟨e, he, hne⟩
          have htodo := hfirsts.subset ((hexit e.1).mp (List.mem_map_of_mem he))
          exact ⟨e.1, ((hmem e.1).mp htodo).1, ((hmem e.1).mp htodo).2, hrv e he ▸ hne⟩
        · rintro ⟨t, ht, hskips, hne⟩
          rcases hstopped with hsame | hf
          · have hstarted : t ∈ s.started := hsame ▸ (hmem t).mpr ⟨ht, hskips⟩
            obtain ⟨e, he, rfl⟩ := List.mem_map.mp ((hexit t).mpr hstarted)
            exact ⟨e, he, (hrv e he).symm ▸ hne⟩
          · exact hf.1
      rw [loop_steady hall]
      rcases hrc with ⟨rfl, hf⟩ | ⟨rfl, hf⟩
      · rw [if_pos (hfailed.mp hf)]
      · rw [if_neg (mt hfailed.mpr hf)]

/-- With processes of their own the targets come to an end, whatever the order in which the processes
exit: every run can go on until it has ended, no run is longer than its targets allow, and its code is
that of the builds that have been waited for. -/
theorem forced_parallel (keepGoing : Bool) (ts : List String) :
    (∀ (f : ℕ → Driver) (n : ℕ), f 0 = given ts → (∀ i < n, Step keepGoing (f i) (f (i + 1))) →
      n ≤ 6 * ts.length + 3) ∧
    ∀ s, ReflTransGen (Step keepGoing) (given ts) s →
      (∃ s', Step keepGoing s s') ∨ ∃ r, s.ctl = .ended r ∧ Outcome keepGoing ts s r := by
  refine ⟨fun f n hgiven hsteps => ?_, fun s hrun => ?_⟩
  · have hleft := left_run hsteps
    have hfirst : (given ts).left = 6 * ts.length + 3 := by simp [given, Driver.left]
    rw [hgiven, hfirst] at hleft
    omega
  · rcases next_or_ended keepGoing s with hnext | ⟨r, hat⟩
    · exact .inl hnext
    · exact .inr ⟨r, hat, (run_inv hrun).outcome hat⟩

end Redo.Scheduler.Forced
