import Mathlib.Algebra.BigOperators.Group.Finset.Piecewise
import Mathlib.Algebra.Order.Ring.Int
import Mathlib.Logic.Relation
import Redo.Processes.Cycles

/-! # The tokens of one jobserver

Every process that uses the jobserver starts with the one token that the job it belongs to has
paid for, counts what it takes and gives, and can cheat. What it has and what its jobs hold must
be paid back when it ends, for its parent then takes one token back for the job.
-/
namespace Redo.Processes
open Relation

/-- A process of the tree. What is not `redo` (a recipe, `redo-unlocked`) has no counters, and
keeps them as they are. A job goes by the process that was started for it. -/
structure Member where
  redo : Bool
  /-- The jobs whose pipe it has inherited; a job is done when nobody has its pipe any more. -/
  holds : List Pid
  /-- `MYTOKENS`. -/
  my : ℤ
  /-- `CHEATS`. -/
  cheats : ℕ
  /-- `WAITFDS`. -/
  jobs : List Pid

namespace Member

def createToken (P : Member) : Member :=
  if 0 < P.cheats then { P with cheats := P.cheats - 1 } else { P with my := P.my + 1 }

/-- One turn of the loop in `release`, with what it adds to `to_share`. -/
def giveOne (P : Member) : Member × ℕ :=
  if 0 < P.cheats then ({ P with my := P.my - 1, cheats := P.cheats - 1 }, 0)
  else ({ P with my := P.my - 1 }, 1)

def release : ℕ → Member → Member × ℕ
  | 0, P => (P, 0)
  | n + 1, P => ((release n P.giveOne.1).1, P.giveOne.2 + (release n P.giveOne.1).2)

def releaseExceptMine (P : Member) : Member × ℕ :=
  if 1 < P.my then release (P.my - 1).toNat P else (P, 0)

/-- `destroy_tokens(1)`, and the new entry of `WAITFDS`. -/
def startJob (P : Member) (q : Pid) : Member := { P with my := P.my - 1, jobs := q :: P.jobs }

/-- `wait` for a job that is done, without a byte from the cheat pipe. -/
def jobDone (P : Member) (q : Pid) : Member × ℕ :=
  let P := { P with jobs := P.jobs.erase q }.createToken
  if 1 ≤ P.my then P.releaseExceptMine else (P, 0)

/-- A process as it starts. -/
def fresh (redo : Bool) (holds : List Pid) : Member := ⟨redo, holds, 1, 0, []⟩

/-- `setup` of a new jobserver. -/
def setup (realmax : ℕ) : Member × ℕ :=
  (createToken^[realmax - 1] (fresh true [])).releaseExceptMine

/-- What a process has beyond the token that it started with, and owes. -/
def weight (P : Member) : ℤ := P.my + P.jobs.length - P.cheats - 1

structure Sane (P : Member) : Prop where
  nonneg : 0 ≤ P.my
  le_one : P.my ≤ 1
  cheats_le : (P.cheats : ℤ) ≤ P.my + P.jobs.length

variable {P : Member} {q : Pid} {n : ℕ}

theorem weight_createToken (P : Member) : P.createToken.weight = P.weight + 1 := by
  rw [createToken]
  split_ifs with h
  · simp only [weight]
    omega
  · simp only [weight]
    omega

theorem weight_giveOne (P : Member) : P.giveOne.1.weight + P.giveOne.2 = P.weight := by
  rw [giveOne]
  split_ifs with h
  · simp only [weight]
    omega
  · simp only [weight]
    omega

theorem weight_release (n : ℕ) (P : Member) :
    (release n P).1.weight + (release n P).2 = P.weight := by
  induction n generalizing P with
  | zero => simp [release]
  | succ n ih =>
    have hrest := ih P.giveOne.1
    have hone := weight_giveOne P
    rw [release]
    push_cast
    omega

theorem weight_releaseExceptMine (P : Member) :
    P.releaseExceptMine.1.weight + P.releaseExceptMine.2 = P.weight := by
  rw [releaseExceptMine]
  split_ifs
  · exact weight_release _ P
  · simp

theorem weight_startJob : (P.startJob q).weight = P.weight := by
  simp only [weight, startJob, List.length_cons]
  omega

theorem weight_jobDone (h : q ∈ P.jobs) :
    (P.jobDone q).1.weight + (P.jobDone q).2 = P.weight := by
  have hlen := List.length_erase_of_mem h
  have hpos := List.length_pos_of_mem h
  have hcreate := weight_createToken { P with jobs := P.jobs.erase q }
  have herase : weight { P with jobs := P.jobs.erase q } = P.weight - 1 := by
    simp only [weight]
    omega
  rw [jobDone]
  split_ifs
  · have hrel := weight_releaseExceptMine { P with jobs := P.jobs.erase q }.createToken
    omega
  · show { P with jobs := P.jobs.erase q }.createToken.weight + ((0 : ℕ) : ℤ) = P.weight
    omega

theorem Sane.giveOne (h : P.Sane) (hmy : 1 ≤ P.my) : P.giveOne.1.Sane := by
  have hc := h.cheats_le
  have hle := h.le_one
  rw [Member.giveOne]
  split_ifs with hcheats
  · constructor
    · show 0 ≤ P.my - 1
      omega
    · show P.my - 1 ≤ 1
      omega
    · show ((P.cheats - 1 : ℕ) : ℤ) ≤ P.my - 1 + P.jobs.length
      omega
  · constructor
    · show 0 ≤ P.my - 1
      omega
    · show P.my - 1 ≤ 1
      omega
    · show (P.cheats : ℤ) ≤ P.my - 1 + P.jobs.length
      omega

theorem Sane.startJob (h : P.Sane) (hmy : 1 ≤ P.my) : (P.startJob q).Sane := by
  have hc := h.cheats_le
  have hle := h.le_one
  constructor
  · show 0 ≤ P.my - 1
    omega
  · show P.my - 1 ≤ 1
    omega
  · show (P.cheats : ℤ) ≤ P.my - 1 + ((q :: P.jobs).length : ℕ)
    rw [List.length_cons]
    omega

theorem sane_releaseExceptMine (hmy : 1 ≤ P.my) (hle : P.my ≤ 2)
    (hc : (P.cheats : ℤ) ≤ P.my + P.jobs.length) : P.releaseExceptMine.1.Sane := by
  rw [releaseExceptMine]
  split_ifs with h
  · have hone : (P.my - 1).toNat = 1 := by omega
    rw [hone]
    show P.giveOne.1.Sane
    rw [Member.giveOne]
    split_ifs with hcheats
    · constructor
      · show 0 ≤ P.my - 1
        omega
      · show P.my - 1 ≤ 1
        omega
      · show ((P.cheats - 1 : ℕ) : ℤ) ≤ P.my - 1 + P.jobs.length
        omega
    · constructor
      · show 0 ≤ P.my - 1
        omega
      · show P.my - 1 ≤ 1
        omega
      · show (P.cheats : ℤ) ≤ P.my - 1 + P.jobs.length
        omega
  · rw [not_lt] at h
    exact ⟨le_trans Int.one_nonneg hmy, h, hc⟩

/-- With a job gone and its token not back yet, one cheat too many is allowed for. -/
theorem createToken_bounds (hnonneg : 0 ≤ P.my) (hle : P.my ≤ 1)
    (hc : (P.cheats : ℤ) ≤ P.my + P.jobs.length + 1) :
    0 ≤ P.createToken.my ∧ P.createToken.my ≤ 2 ∧
      (P.createToken.cheats : ℤ) ≤ P.createToken.my + P.createToken.jobs.length := by
  rw [createToken]
  split_ifs with hcheats
  · dsimp only
    omega
  · dsimp only
    omega

theorem Sane.jobDone (h : P.Sane) (hq : q ∈ P.jobs) : (P.jobDone q).1.Sane := by
  have hc := h.cheats_le
  have hlen := List.length_erase_of_mem hq
  have hpos := List.length_pos_of_mem hq
  have hc' : (P.cheats : ℤ) ≤ P.my + ((P.jobs.erase q).length : ℕ) + 1 := by omega
  obtain ⟨hzero, htwo, hle⟩ := createToken_bounds (P := { P with jobs := P.jobs.erase q })
    h.nonneg h.le_one hc'
  rw [Member.jobDone]
  split_ifs with hone
  · exact sane_releaseExceptMine hone htwo hle
  · rw [not_le] at hone
    exact ⟨hzero, hone.le, hle⟩

/-- Tokens aside, a process stays what it is. -/
structure Same (P Q : Member) : Prop where
  redo : Q.redo = P.redo
  holds : Q.holds = P.holds
  jobs : Q.jobs = P.jobs

theorem same_giveOne (P : Member) : Same P P.giveOne.1 := by
  rw [giveOne]
  split_ifs <;> exact ⟨rfl, rfl, rfl⟩

theorem same_release (n : ℕ) (P : Member) : Same P (release n P).1 := by
  induction n generalizing P with
  | zero => exact ⟨rfl, rfl, rfl⟩
  | succ n ih =>
    have hone := same_giveOne P
    have hrest := ih P.giveOne.1
    exact ⟨hrest.redo.trans hone.redo, hrest.holds.trans hone.holds, hrest.jobs.trans hone.jobs⟩

theorem same_jobDone (P : Member) (q : Pid) :
    Same { P with jobs := P.jobs.erase q } (P.jobDone q).1 := by
  have hcreate : Same { P with jobs := P.jobs.erase q }
      { P with jobs := P.jobs.erase q }.createToken := by
    rw [createToken]
    split_ifs <;> exact ⟨rfl, rfl, rfl⟩
  rw [jobDone]
  split_ifs
  · rw [releaseExceptMine]
    split_ifs
    · have hrel := same_release ({ P with jobs := P.jobs.erase q }.createToken.my - 1).toNat
        { P with jobs := P.jobs.erase q }.createToken
      exact ⟨hrel.redo.trans hcreate.redo, hrel.holds.trans hcreate.holds,
        hrel.jobs.trans hcreate.jobs⟩
    · exact hcreate
  · exact hcreate

end Member

/-- The pipes, and the processes that are alive. -/
structure Server where
  pipe : ℕ
  cheatPipe : ℕ
  live : Finset Pid
  proc : Pid → Member
  /-- "token accounting mismatch on exit" has been raised. -/
  mismatch : Bool
  /-- Not in the source: what the processes that have ended had beyond what they owed. -/
  unpaid : ℤ

namespace Server

/-- A process has changed its counters, and may have written to the token pipe. -/
def put (s : Server) (p : Pid) (r : Member × ℕ) : Server :=
  { s with proc := Function.update s.proc p r.1, pipe := s.pipe + r.2 }

def fork (s : Server) (q : Pid) (Q : Member) : Server :=
  { s with live := insert q s.live, proc := Function.update s.proc q Q }

/-- No process has this id, and no job is named after it. -/
def Fresh (s : Server) (q : Pid) : Prop :=
  q ∉ s.live ∧ ∀ p ∈ s.live, q ∉ (s.proc p).holds ∧ q ∉ (s.proc p).jobs

/-- The end of `wait_all` at top level, up to the count: the own token is released. -/
def giveBack (s : Server) (top : Pid) : Server :=
  if 1 ≤ (s.proc top).my then s.put top (Member.release 1 (s.proc top)) else s

/-- All bytes are read from both pipes; if the numbers are right the tokens are written back. -/
def account (s : Server) (top : Pid) (toplevel : ℕ) : Server :=
  let s := s.giveBack top
  if (s.pipe : ℤ) - s.cheatPipe ≠ toplevel then
    { s with pipe := 0, cheatPipe := 0, mismatch := true }
  else { s with cheatPipe := 0 }

end Server

inductive Event where
  | exit (p : Pid)
  | poolWait (p : Pid)
  | other

/-- The steps of the processes that share a jobserver. -/
inductive Uses (top : Pid) (toplevel : ℕ) : Server → Event → Server → Prop where
  /-- `jobserver::start`. -/
  | start {s : Server} {p q : Pid} (live : p ∈ s.live) (user : (s.proc p).redo = true)
      (token : 1 ≤ (s.proc p).my) (fresh : s.Fresh q) (redo : Bool) :
      Uses top toplevel s .other
        ((s.put p ((s.proc p).startJob q, 0)).fork q (.fresh redo (q :: (s.proc p).holds)))
  /-- A recipe runs a command, and `redo-unlocked` runs `redo-ifchange`. -/
  | spawn {s : Server} {p q : Pid} (live : p ∈ s.live) (user : (s.proc p).redo = false)
      (fresh : s.Fresh q) (redo : Bool) :
      Uses top toplevel s .other (s.fork q (.fresh redo (s.proc p).holds))
  /-- `ensure_token` reads only without a token. -/
  | read {s : Server} {p : Pid} (live : p ∈ s.live) (user : (s.proc p).redo = true)
      (needs : (s.proc p).my < 1) {n : ℕ} (byte : s.pipe = n + 1) :
      Uses top toplevel s .other
        { s.put p ({ s.proc p with my := (s.proc p).my + 1 }, 0) with pipe := n }
  /-- `ensure_token_or_cheat`, when the cheat function returns 1. -/
  | cheat {s : Server} {p : Pid} (live : p ∈ s.live) (user : (s.proc p).redo = true)
      (needs : (s.proc p).my = 0) :
      Uses top toplevel s .other (s.put p ({ s.proc p with
        my := (s.proc p).my + 1, cheats := (s.proc p).cheats + 1 }, 0))
  /-- The scheduler has ensured a token when it releases one to wait for a lock or a pool, and
  `wait_all` looks. -/
  | release {s : Server} {p : Pid} (live : p ∈ s.live) (user : (s.proc p).redo = true)
      (token : 1 ≤ (s.proc p).my) :
      Uses top toplevel s .other (s.put p (Member.release 1 (s.proc p)))
  /-- `build_one` waits for a pool, and releases a token without looking. -/
  | poolWait {s : Server} {p : Pid} (live : p ∈ s.live) (user : (s.proc p).redo = true) :
      Uses top toplevel s (.poolWait p) (s.put p (Member.release 1 (s.proc p)))
  | reap {s : Server} {p q : Pid} (live : p ∈ s.live) (user : (s.proc p).redo = true)
      (job : q ∈ (s.proc p).jobs) (done : ∀ r ∈ s.live, q ∉ (s.proc r).holds) :
      Uses top toplevel s .other (s.put p ((s.proc p).jobDone q))
  /-- A byte on the cheat pipe stands for a token that the job has not given back. -/
  | reapPaid {s : Server} {p q : Pid} (live : p ∈ s.live) (user : (s.proc p).redo = true)
      (job : q ∈ (s.proc p).jobs) (done : ∀ r ∈ s.live, q ∉ (s.proc r).holds) {n : ℕ}
      (byte : s.cheatPipe = n + 1) :
      Uses top toplevel s .other
        { s.put p ({ s.proc p with jobs := (s.proc p).jobs.erase q }, 0) with cheatPipe := n }
  | account {s : Server} (idle : (s.proc top).jobs = []) :
      Uses top toplevel s .other (s.account top toplevel)
  /-- No process calls `force_return_tokens` on its way out. -/
  | exit {s : Server} {p : Pid} (live : p ∈ s.live) (inner : p ≠ top) :
      Uses top toplevel s (.exit p) { s with
        live := s.live.erase p, unpaid := s.unpaid + (s.proc p).weight }

/-- `TOPLEVEL`. -/
def toplevel (maxjobs : ℕ) : ℕ := if 0 < maxjobs then maxjobs else 1

/-- The process `top` has set up the jobserver. -/
def serverStart (top : Pid) (maxjobs : ℕ) : Server where
  pipe := (Member.setup (toplevel maxjobs)).2
  cheatPipe := 0
  live := {top}
  proc := fun _ => (Member.setup (toplevel maxjobs)).1
  mismatch := false
  unpaid := 0

namespace Server

/-- Tokens in the pipe and beyond what is owed, in whatever hands. -/
def total (s : Server) : ℤ :=
  s.pipe - s.cheatPipe + (∑ p ∈ s.live, (s.proc p).weight) + s.unpaid

/-- What holds in every state, as long as no process releases a token that it does not have. -/
structure Inv (top : Pid) (toplevel : ℕ) (s : Server) : Prop where
  total : s.total = toplevel - 1
  noCheatPipe : s.cheatPipe = 0
  sound : s.mismatch = false
  top_live : top ∈ s.live
  top_redo : (s.proc top).redo = true
  sane : ∀ p ∈ s.live, (s.proc p).Sane
  plain : ∀ p ∈ s.live, (s.proc p).redo = false → (s.proc p).weight = 0
  /-- Whoever is alive belongs to a job of the top level that is not done. -/
  under : ∀ p ∈ s.live, p ≠ top → ∃ q ∈ (s.proc top).jobs, q ∈ (s.proc p).holds

variable {top : Pid} {toplevel : ℕ} {s s' : Server} {p q : Pid} {P : Member} {e : Event}

theorem sum_update (hp : p ∈ s.live) :
    ∑ m ∈ s.live, (Function.update s.proc p P m).weight =
      (∑ m ∈ s.live, (s.proc m).weight) - (s.proc p).weight + P.weight := by
  have hnew := Finset.add_sum_erase s.live (fun m => (Function.update s.proc p P m).weight) hp
  have hold := Finset.add_sum_erase s.live (fun m => (s.proc m).weight) hp
  have hrest : ∑ m ∈ s.live.erase p, (Function.update s.proc p P m).weight =
      ∑ m ∈ s.live.erase p, (s.proc m).weight := by
    apply Finset.sum_congr rfl
    intro m hm
    rw [Function.update_of_ne (Finset.ne_of_mem_erase hm)]
  simp only [Function.update_self] at hnew
  omega

/-- One process changes its counters and the token pipe, and nothing is lost. -/
theorem Inv.change (hs : Inv top toplevel s) (hp : p ∈ s.live) (user : (s.proc p).redo = true)
    (hlive : s'.live = s.live) (hproc : s'.proc = Function.update s.proc p P)
    (hcheat : s'.cheatPipe = 0) (hsound : s'.mismatch = s.mismatch) (hunpaid : s'.unpaid = s.unpaid)
    (hw : P.weight + s'.pipe = (s.proc p).weight + s.pipe) (hsane : P.Sane)
    (hredo : P.redo = (s.proc p).redo) (hholds : P.holds = (s.proc p).holds)
    (hjobs : ∀ q ∈ (s.proc p).jobs, q ∈ P.jobs ∨ ∀ m ∈ s.live, q ∉ (s.proc m).holds) :
    Inv top toplevel s' where
  total := by
    have ht := hs.total
    rw [Server.total, hs.noCheatPipe] at ht
    rw [Server.total, hlive, hproc, hcheat, hunpaid, sum_update hp]
    omega
  noCheatPipe := hcheat
  sound := hsound.trans hs.sound
  top_live := by
    rw [hlive]
    exact hs.top_live
  top_redo := by
    rw [hproc]
    by_cases hpt : top = p
    · subst hpt
      rw [Function.update_self, hredo]
      exact user
    · rw [Function.update_of_ne hpt]
      exact hs.top_redo
  sane m hm := by
    rw [hlive] at hm
    rw [hproc]
    by_cases hmp : m = p
    · subst hmp
      rw [Function.update_self]
      exact hsane
    · rw [Function.update_of_ne hmp]
      exact hs.sane m hm
  plain m hm hplain := by
    rw [hlive] at hm
    rw [hproc] at hplain ⊢
    by_cases hmp : m = p
    · subst hmp
      rw [Function.update_self, hredo, user] at hplain
      cases hplain
    · rw [Function.update_of_ne hmp] at hplain ⊢
      exact hs.plain m hm hplain
  under m hm hmt := by
    rw [hlive] at hm
    obtain ⟨q, hq, hqm⟩ := hs.under m hm hmt
    have hholds' : (s'.proc m).holds = (s.proc m).holds := by
      rw [hproc]
      by_cases hmp : m = p
      · subst hmp
        rw [Function.update_self, hholds]
      · rw [Function.update_of_ne hmp]
    refine ⟨q, ?_, by rw [hholds']; exact hqm⟩
    rw [hproc]
    by_cases hpt : top = p
    · subst hpt
      rw [Function.update_self]
      exact (hjobs q hq).resolve_right fun hno => hno m hm hqm
    · rw [Function.update_of_ne hpt]
      exact hq

/-- A process that is new has nothing and owes nothing. -/
theorem Inv.fork (hs : Inv top toplevel s) (hq : q ∉ s.live) (redo : Bool) (holds : List Pid)
    (hunder : ∃ g ∈ (s.proc top).jobs, g ∈ holds) :
    Inv top toplevel (s.fork q (.fresh redo holds)) := by
  have hold : ∀ m ∈ s.live, (s.fork q (.fresh redo holds)).proc m = s.proc m := by
    intro m hm
    apply Function.update_of_ne
    rintro rfl
    exact hq hm
  have hnew : (s.fork q (.fresh redo holds)).proc q = .fresh redo holds := Function.update_self ..
  have hmem : ∀ m, m ∈ (s.fork q (.fresh redo holds)).live ↔ m = q ∨ m ∈ s.live :=
    fun m => Finset.mem_insert
  constructor
  · have hsum : ∑ m ∈ insert q s.live, ((s.fork q (.fresh redo holds)).proc m).weight =
        ∑ m ∈ s.live, (s.proc m).weight := by
      rw [Finset.sum_insert hq, hnew]
      have hzero : (Member.fresh redo holds).weight = 0 := rfl
      rw [hzero, zero_add]
      apply Finset.sum_congr rfl
      intro m hm
      rw [hold m hm]
    have ht := hs.total
    rw [Server.total] at ht
    show (s.pipe : ℤ) - s.cheatPipe +
      (∑ m ∈ insert q s.live, ((s.fork q (.fresh redo holds)).proc m).weight) + s.unpaid = _
    rw [hsum]
    exact ht
  · exact hs.noCheatPipe
  · exact hs.sound
  · exact (hmem top).mpr (Or.inr hs.top_live)
  · rw [hold top hs.top_live]
    exact hs.top_redo
  · intro m hm
    rcases (hmem m).mp hm with rfl | hm
    · rw [hnew]
      exact ⟨Int.one_nonneg, le_refl 1, Int.one_nonneg⟩
    · rw [hold m hm]
      exact hs.sane m hm
  · intro m hm hplain
    rcases (hmem m).mp hm with rfl | hm
    · rw [hnew]
      rfl
    · rw [hold m hm] at hplain ⊢
      exact hs.plain m hm hplain
  · intro m hm hmt
    rw [hold top hs.top_live]
    rcases (hmem m).mp hm with rfl | hm
    · rw [hnew]
      exact hunder
    · rw [hold m hm]
      exact hs.under m hm hmt

/-- A process ends: what it had beyond what it owed is gone with it. -/
theorem Inv.exit (hs : Inv top toplevel s) (hp : p ∈ s.live) (hne : p ≠ top) :
    Inv top toplevel { s with
      live := s.live.erase p, unpaid := s.unpaid + (s.proc p).weight } where
  total := by
    have ht := hs.total
    have hsum := Finset.add_sum_erase s.live (fun m => (s.proc m).weight) hp
    rw [Server.total] at ht
    show (s.pipe : ℤ) - s.cheatPipe + (∑ m ∈ s.live.erase p, (s.proc m).weight) +
      (s.unpaid + (s.proc p).weight) = _
    omega
  noCheatPipe := hs.noCheatPipe
  sound := hs.sound
  top_live := Finset.mem_erase.mpr ⟨hne.symm, hs.top_live⟩
  top_redo := hs.top_redo
  sane m hm := hs.sane m (Finset.mem_of_mem_erase hm)
  plain m hm := hs.plain m (Finset.mem_of_mem_erase hm)
  under m hm := hs.under m (Finset.mem_of_mem_erase hm)

/-- With no job left the top level is alone. -/
theorem Inv.alone (hs : Inv top toplevel s) (idle : (s.proc top).jobs = []) :
    s.live = {top} := by
  ext m
  rw [Finset.mem_singleton]
  constructor
  · intro hm
    by_contra hmt
    obtain ⟨q, hq, -⟩ := hs.under m hm hmt
    rw [idle] at hq
    cases hq
  · rintro rfl
    exact hs.top_live

theorem Inv.giveOne (hs : Inv top toplevel s) (hp : p ∈ s.live) (user : (s.proc p).redo = true)
    (token : 1 ≤ (s.proc p).my) :
    Inv top toplevel (s.put p (Member.release 1 (s.proc p))) := by
  have hw := Member.weight_release 1 (s.proc p)
  have hsame := Member.same_release 1 (s.proc p)
  refine hs.change hp user rfl rfl hs.noCheatPipe rfl rfl ?_ ((hs.sane p hp).giveOne token) hsame.redo
    hsame.holds ?_
  · show (Member.release 1 (s.proc p)).1.weight +
      ((s.pipe + (Member.release 1 (s.proc p)).2 : ℕ) : ℤ) = _
    push_cast
    omega
  · intro q hq
    rw [hsame.jobs]
    exact Or.inl hq

/-- At the count the pipe is short of the tokens, or over, by what was left unpaid. -/
theorem Inv.giveBack (hs : Inv top toplevel s) (idle : (s.proc top).jobs = []) :
    Inv top toplevel (s.giveBack top) ∧
      ((s.giveBack top).pipe : ℤ) + s.unpaid = toplevel + (s.giveBack top).cheatPipe := by
  have hsane := hs.sane top hs.top_live
  have hc := hsane.cheats_le
  have hle := hsane.le_one
  have hnonneg := hsane.nonneg
  have ht := hs.total
  rw [Server.total, hs.alone idle, Finset.sum_singleton, hs.noCheatPipe, Member.weight, idle] at ht
  rw [idle] at hc
  simp only [List.length_nil] at hc ht
  rw [Server.giveBack]
  split_ifs with hone
  · refine ⟨hs.giveOne hs.top_live hs.top_redo hone, ?_⟩
    show ((s.pipe + (Member.release 1 (s.proc top)).2 : ℕ) : ℤ) + s.unpaid = toplevel + s.cheatPipe
    rw [hs.noCheatPipe]
    have hgive : (Member.release 1 (s.proc top)).2 = if 0 < (s.proc top).cheats then 0 else 1 := by
      show (s.proc top).giveOne.2 + 0 = _
      rw [Member.giveOne]
      split_ifs <;> rfl
    rw [hgive]
    split_ifs <;> omega
  · refine ⟨hs, ?_⟩
    rw [hs.noCheatPipe]
    omega

theorem giveBack_mismatch : (s.giveBack top).mismatch = s.mismatch := by
  rw [Server.giveBack]
  split_ifs <;> rfl

theorem giveBack_unpaid : (s.giveBack top).unpaid = s.unpaid := by
  rw [Server.giveBack]
  split_ifs <;> rfl

/-- The count is right if and only if nothing was left unpaid. -/
theorem Inv.account (hs : Inv top toplevel s) (idle : (s.proc top).jobs = []) :
    if s.unpaid = 0 then
      Inv top toplevel (s.account top toplevel) ∧ (s.account top toplevel).pipe = toplevel
    else (s.account top toplevel).mismatch = true := by
  obtain ⟨hinv, hpipe⟩ := hs.giveBack idle
  split_ifs with hu
  · have hright : ¬((s.giveBack top).pipe : ℤ) - (s.giveBack top).cheatPipe ≠ toplevel := by
      omega
    have heq : s.account top toplevel = { s.giveBack top with cheatPipe := 0 } := if_neg hright
    rw [heq]
    refine ⟨⟨?_, rfl, hinv.sound, hinv.top_live, hinv.top_redo, hinv.sane, hinv.plain,
      hinv.under⟩, ?_⟩
    · have ht := hinv.total
      rw [Server.total, hinv.noCheatPipe] at ht
      exact ht
    · show (s.giveBack top).pipe = toplevel
      rw [hinv.noCheatPipe] at hpipe
      omega
  · have hwrong : ((s.giveBack top).pipe : ℤ) - (s.giveBack top).cheatPipe ≠ toplevel := by
      omega
    have heq : s.account top toplevel =
        { s.giveBack top with pipe := 0, cheatPipe := 0, mismatch := true } := if_pos hwrong
    rw [heq]

end Server

namespace Event

/-- A process waits for a pool with a token in hand. -/
def Covered (s : Server) : Event → Prop
  | .poolWait p => 1 ≤ (s.proc p).my
  | _ => True

/-- A process ends with its own token, one for each cheat, and one for each job that it leaves
running that it has not taken from the pipe. -/
def Repaid (s : Server) : Event → Prop
  | .exit p => (s.proc p).redo = true →
      (s.proc p).my + (s.proc p).jobs.length = 1 + (s.proc p).cheats
  | _ => True

end Event

section Runs
open Server
variable {top : Pid} {n : ℕ} {s s' : Server} {e : Event}

theorem Uses.inv (hstep : Uses top n s e s') (hcov : e.Covered s) (hs : Server.Inv top n s) :
    s'.mismatch = true ∨ Server.Inv top n s' := by
  cases hstep with
  | @start p q live user token fresh redo =>
    right
    have hput : Server.Inv top n (s.put p ((s.proc p).startJob q, 0)) := by
      refine hs.change live user rfl rfl hs.noCheatPipe rfl rfl ?_ ((hs.sane p live).startJob token)
        rfl rfl ?_
      · rw [Member.weight_startJob]
        rfl
      · exact fun g hg => Or.inl (List.mem_cons_of_mem q hg)
    apply hput.fork fresh.1
    by_cases hpt : p = top
    · subst hpt
      refine ⟨q, ?_, List.mem_cons_self⟩
      show q ∈ (Function.update s.proc p ((s.proc p).startJob q) p).jobs
      rw [Function.update_self]
      exact List.mem_cons_self
    · obtain ⟨g, hg, hgp⟩ := hs.under p live hpt
      refine ⟨g, ?_, List.mem_cons_of_mem q hgp⟩
      show g ∈ (Function.update s.proc p ((s.proc p).startJob q) top).jobs
      rw [Function.update_of_ne (Ne.symm hpt)]
      exact hg
  | @spawn p q live user fresh redo =>
    right
    apply hs.fork fresh.1
    apply hs.under p live
    rintro rfl
    rw [hs.top_redo] at user
    cases user
  | @read p live user needs m byte =>
    right
    have hsane := hs.sane p live
    have hc := hsane.cheats_le
    have hnonneg := hsane.nonneg
    refine hs.change (P := { s.proc p with my := (s.proc p).my + 1 }) live user rfl rfl
      hs.noCheatPipe rfl rfl ?_ ⟨?_, ?_, ?_⟩ rfl rfl fun g hg => Or.inl hg
    · show (s.proc p).my + 1 + (s.proc p).jobs.length - (s.proc p).cheats - 1 + (m : ℤ) = _
      rw [byte, Member.weight]
      push_cast
      omega
    · show 0 ≤ (s.proc p).my + 1
      omega
    · show (s.proc p).my + 1 ≤ 1
      omega
    · show ((s.proc p).cheats : ℤ) ≤ (s.proc p).my + 1 + (s.proc p).jobs.length
      omega
  | @cheat p live user needs =>
    right
    have hc := (hs.sane p live).cheats_le
    refine hs.change (P := { s.proc p with
        my := (s.proc p).my + 1, cheats := (s.proc p).cheats + 1 }) live user rfl rfl
      hs.noCheatPipe rfl rfl ?_ ⟨?_, ?_, ?_⟩ rfl rfl fun g hg => Or.inl hg
    · show (s.proc p).my + 1 + (s.proc p).jobs.length - ((s.proc p).cheats + 1 : ℕ) - 1 +
        ((s.pipe + 0 : ℕ) : ℤ) = _
      rw [Member.weight]
      push_cast
      omega
    · show 0 ≤ (s.proc p).my + 1
      omega
    · show (s.proc p).my + 1 ≤ 1
      omega
    · show (((s.proc p).cheats + 1 : ℕ) : ℤ) ≤ (s.proc p).my + 1 + (s.proc p).jobs.length
      omega
  | release live user token => exact Or.inr (hs.giveOne live user token)
  | poolWait live user => exact Or.inr (hs.giveOne live user hcov)
  | @reap p q live user job done =>
    right
    have hw := Member.weight_jobDone job
    have hsame := Member.same_jobDone (s.proc p) q
    refine hs.change live user rfl rfl hs.noCheatPipe rfl rfl ?_ ((hs.sane p live).jobDone job)
      hsame.redo hsame.holds ?_
    · show ((s.proc p).jobDone q).1.weight + ((s.pipe + ((s.proc p).jobDone q).2 : ℕ) : ℤ) = _
      push_cast
      omega
    · intro g hg
      rw [hsame.jobs]
      by_cases hgq : g = q
      · subst hgq
        exact Or.inr done
      · exact Or.inl ((List.mem_erase_of_ne hgq).mpr hg)
  | reapPaid live user job done byte =>
    rw [hs.noCheatPipe] at byte
    cases byte
  | account idle =>
    have ha := hs.account idle
    split_ifs at ha with hu
    · exact Or.inr ha.1
    · exact Or.inl ha
  | exit live inner => exact Or.inr (hs.exit live inner)

theorem Uses.mismatch (hstep : Uses top n s e s') (hs : s.mismatch = true) :
    s'.mismatch = true := by
  cases hstep with
  | account idle =>
    rw [Server.account]
    split_ifs
    · rfl
    · rw [giveBack_mismatch]
      exact hs
  | _ => exact hs

/-- Who repays what it owes leaves nothing unpaid. -/
theorem Uses.unpaid (hstep : Uses top n s e s') (hrep : e.Repaid s) (hs : Server.Inv top n s) :
    s'.unpaid = s.unpaid := by
  cases hstep with
  | @exit p live inner =>
    have hzero : (s.proc p).weight = 0 := by
      cases hr : (s.proc p).redo with
      | true =>
        have hrep' := hrep hr
        rw [Member.weight]
        omega
      | false => exact hs.plain p live hr
    show s.unpaid + (s.proc p).weight = s.unpaid
    rw [hzero, add_zero]
  | account idle =>
    rw [Server.account]
    split_ifs <;> exact giveBack_unpaid
  | _ => rfl

/-- A step of which the condition `C` holds before it. -/
def UsesIf (top : Pid) (n : ℕ) (C : Server → Event → Prop) (s s' : Server) : Prop :=
  ∃ e, Uses top n s e s' ∧ C s e

theorem createToken_iterate (k : ℕ) :
    Member.createToken^[k] (.fresh true []) = ⟨true, [], 1 + k, 0, []⟩ := by
  induction k with
  | zero => rfl
  | succ k ih =>
    rw [Function.iterate_succ_apply', ih, Member.createToken, if_neg (lt_irrefl 0)]
    congr 1

theorem release_of_honest (k : ℕ) (P : Member) (h : P.cheats = 0) :
    Member.release k P = ({ P with my := P.my - k }, k) := by
  induction k generalizing P with
  | zero => simp [Member.release]
  | succ k ih =>
    have hone : P.giveOne = ({ P with my := P.my - 1 }, 1) := by
      rw [Member.giveOne, if_neg (by omega)]
    rw [Member.release, hone, ih { P with my := P.my - 1 } h]
    have hmy : P.my - 1 - (k : ℤ) = P.my - (k + 1 : ℕ) := by omega
    refine Prod.ext ?_ (Nat.add_comm 1 k)
    dsimp only
    rw [hmy]

theorem setup_eq {k : ℕ} (hk : 0 < k) : Member.setup k = (.fresh true [], k - 1) := by
  rw [Member.setup, createToken_iterate, Member.releaseExceptMine]
  have hpred : (1 : ℤ) + (k - 1 : ℕ) - 1 = (k - 1 : ℕ) := add_sub_cancel_left _ _
  by_cases hone : k = 1
  · subst hone
    rfl
  · rw [if_pos (by show (1 : ℤ) < 1 + (k - 1 : ℕ); omega), hpred, Int.toNat_natCast,
      release_of_honest _ _ rfl]
    dsimp only
    rw [add_sub_cancel_right]
    rfl

theorem toplevel_pos (maxjobs : ℕ) : 0 < toplevel maxjobs := by
  rw [toplevel]
  split_ifs with h
  · exact h
  · exact Nat.one_pos

theorem serverStart_inv (top : Pid) (maxjobs : ℕ) :
    Server.Inv top (toplevel maxjobs) (serverStart top maxjobs) := by
  have hpos := toplevel_pos maxjobs
  have hproc : ∀ m, (serverStart top maxjobs).proc m = .fresh true [] := by
    intro m
    show (Member.setup (toplevel maxjobs)).1 = _
    rw [setup_eq hpos]
  constructor
  · show (((Member.setup (toplevel maxjobs)).2 : ℕ) : ℤ) - ((0 : ℕ) : ℤ) +
      (∑ m ∈ {top}, ((serverStart top maxjobs).proc m).weight) + 0 = _
    rw [Finset.sum_singleton, hproc, setup_eq hpos]
    have hzero : (Member.fresh true []).weight = 0 := rfl
    rw [hzero]
    omega
  · rfl
  · rfl
  · exact Finset.mem_singleton_self top
  · rw [hproc]
    rfl
  · intro m _
    rw [hproc]
    exact ⟨Int.one_nonneg, le_refl 1, Int.one_nonneg⟩
  · intro m _ _
    rw [hproc]
    rfl
  · intro m hm hmt
    exact absurd (Finset.mem_singleton.mp hm) hmt

theorem uses_inv {C : Server → Event → Prop} (hcov : ∀ s e, C s e → e.Covered s)
    {maxjobs : ℕ} (hrun : ReflTransGen (UsesIf top (toplevel maxjobs) C)
      (serverStart top maxjobs) s) :
    s.mismatch = true ∨ Server.Inv top (toplevel maxjobs) s := by
  induction hrun with
  | refl => exact Or.inr (serverStart_inv top maxjobs)
  | tail _ hlast ih =>
    obtain ⟨e, hstep, hC⟩ := hlast
    rcases ih with hm | hinv
    · exact Or.inl (hstep.mismatch hm)
    · exact hstep.inv (hcov _ e hC) hinv

theorem uses_unpaid {maxjobs : ℕ} (hrun : ReflTransGen
      (UsesIf top (toplevel maxjobs) fun s e => e.Covered s ∧ e.Repaid s)
      (serverStart top maxjobs) s) :
    Server.Inv top (toplevel maxjobs) s ∧ s.unpaid = 0 := by
  induction hrun with
  | refl => exact ⟨serverStart_inv top maxjobs, rfl⟩
  | tail _ hlast ih =>
    obtain ⟨e, hstep, hcov, hrep⟩ := hlast
    obtain ⟨hinv, hu⟩ := ih
    have hu' := (hstep.unpaid hrep hinv).trans hu
    rcases hstep.inv hcov hinv with hm | hinv'
    · cases hstep with
      | account idle =>
        have ha := hinv.account idle
        rw [if_pos hu] at ha
        exact ⟨ha.1, hu'⟩
      | _ => exact absurd (hm.symm.trans hinv.sound) nofun
    · exact ⟨hinv', hu'⟩

/-- Tokens are conserved where every process repays what it owes and releases only what it has:
the count at top level is right, and leaves all tokens in the pipe. Where processes leave
something unpaid, the count is right only if that comes to nothing. -/
theorem tokens_conserved (top : Pid) (maxjobs : ℕ) :
    (∀ s, ReflTransGen (UsesIf top (toplevel maxjobs) fun s e => e.Covered s ∧ e.Repaid s)
        (serverStart top maxjobs) s →
      s.mismatch = false ∧ (∀ p ∈ s.live, 0 ≤ (s.proc p).my) ∧
        ((s.proc top).jobs = [] →
          (s.giveBack top).pipe = toplevel maxjobs + (s.giveBack top).cheatPipe ∧
          (s.account top (toplevel maxjobs)).mismatch = false ∧
          (s.account top (toplevel maxjobs)).pipe = toplevel maxjobs)) ∧
    (∀ s, ReflTransGen (UsesIf top (toplevel maxjobs) fun s e => e.Covered s)
        (serverStart top maxjobs) s →
      s.mismatch = false → (s.proc top).jobs = [] →
        ((s.account top (toplevel maxjobs)).mismatch = false ↔ s.unpaid = 0)) := by
  constructor
  · intro s hrun
    obtain ⟨hinv, hu⟩ := uses_unpaid hrun
    refine ⟨hinv.sound, fun p hp => (hinv.sane p hp).nonneg, ?_⟩
    intro idle
    have ha := hinv.account idle
    rw [if_pos hu] at ha
    have hpipe := (hinv.giveBack idle).2
    rw [hu] at hpipe
    exact ⟨by omega, ha.1.sound, ha.2⟩
  · intro s hrun hsound idle
    have hinv := (uses_inv (fun _ _ h => h) hrun).resolve_left (by simp [hsound])
    have ha := hinv.account idle
    constructor
    · intro hm
      by_contra hu
      rw [if_neg hu] at ha
      rw [ha] at hm
      cases hm
    · intro hu
      rw [if_pos hu] at ha
      exact ha.1.sound

/-- `redo a` with one token: the recipe of `a` has been started, has ended and has been reaped. -/
theorem tokens_conserved_single : ∃ s : Server, s.unpaid = 0 ∧
    (s.account 0 (toplevel 1)).mismatch = false ∧ (s.account 0 (toplevel 1)).pipe = 1 := by
  have hstart : ReflTransGen (UsesIf 0 (toplevel 1) fun s e => e.Covered s ∧ e.Repaid s)
      (serverStart 0 1) _ :=
    .single ⟨_, .start (p := 0) (q := 1) (by decide) rfl (by decide) ⟨by decide, by decide⟩ false,
      trivial, trivial⟩
  have hexit := hstart.tail ⟨_, .exit (p := 1) (by decide) (by decide), trivial, nofun⟩
  have hreap := hexit.tail ⟨_, .reap (p := 0) (q := 1) (by decide) rfl (by decide) (by decide),
    trivial, trivial⟩
  exact ⟨_, rfl, (((tokens_conserved 0 1).1 _ hreap).2.2 rfl).2⟩

/-- `redo a b` with one token: after the count for `a` there is none left to release when the pool
of `b` turns out to be full. -/
theorem not_tokens_conserved : ¬∀ (top : Pid) (maxjobs : ℕ) (s : Server),
    ReflTransGen (UsesIf top (toplevel maxjobs) fun _ _ => True) (serverStart top maxjobs) s →
      ∀ p ∈ s.live, 0 ≤ (s.proc p).my := by
  intro hall
  have hstart : ReflTransGen (UsesIf 0 (toplevel 1) fun _ _ => True) (serverStart 0 1) _ :=
    .single ⟨_, .start (p := 0) (q := 1) (by decide) rfl (by decide) ⟨by decide, by decide⟩ false,
      trivial⟩
  have hexit := hstart.tail ⟨_, .exit (p := 1) (by decide) (by decide), trivial⟩
  have hreap := hexit.tail ⟨_, .reap (p := 0) (q := 1) (by decide) rfl (by decide) (by decide),
    trivial⟩
  have hcount := hreap.tail ⟨_, .account rfl, trivial⟩
  have hwait := hcount.tail ⟨_, .poolWait (p := 0) (by decide) rfl, trivial⟩
  exact absurd (hall 0 1 _ hwait 0 (by decide)) (by decide)

end Runs

end Redo.Processes
