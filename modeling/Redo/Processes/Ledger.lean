import Redo.Processes.Tokens

/-! # The token counters of one process

`MYTOKENS` and `CHEATS` are changed in many places, in loops that wait for jobs and for bytes.
Together with the jobs and with what has gone through the pipes they give one number, and only a
`start` that comes to nothing changes it.
-/
namespace Redo.Processes

/-- The counters of `jobserver`, and what has gone through its pipes so far. -/
structure Ledger where
  /-- `MYTOKENS`. -/
  my : ℤ := 1
  /-- `CHEATS`. -/
  cheats : ℤ := 0
  /-- The keys of `WAITFDS`. -/
  jobs : List ℕ := []
  /-- `TOPLEVEL`. -/
  toplevel : ℤ := 0
  /-- Whether there are `TOKENFDS`. -/
  ready : Bool := false
  written : ℕ := 0
  read : ℕ := 0
  /-- Bytes taken from the cheat pipe. -/
  cheatBytes : ℕ := 0
  /-- How often the process has waited or has looked for a token. -/
  clock : ℕ := 0
deriving DecidableEq, Repr

/-- What is found in the token pipe. -/
inductive Token where
  | byte
  | nothing
  | err
deriving DecidableEq, Repr

/-- What is not decided in the process, by the time of the clock. -/
structure Surroundings where
  /-- The pipes that `select` finds at their end, each with whether a byte is in the cheat pipe
  when that job is taken out; or an error. -/
  select : ℕ → Option (List (ℕ × Bool))
  token : ℕ → Token
  /-- Whether the cheat function returns 1. -/
  cheat : ℕ → Bool

/-- How `start` fares: a transaction is open, or there is no pipe or no process, or there is a job. -/
inductive Started where
  | notFlushed
  | failed
  /-- With the new key of `WAITFDS`. -/
  | job (fd : ℕ)
deriving DecidableEq, Repr

/-- How a call ends, if it does. -/
inductive Ended (σ : Type) where
  | ok (s : σ)
  | err (s : σ)
  | waiting
deriving DecidableEq, Repr

namespace Ended
variable {σ : Type}

def andThen (r : Ended σ) (k : σ → Ended σ) : Ended σ :=
  match r with
  | .ok s => k s
  | .err s => .err s
  | .waiting => .waiting

/-- In whatever state it ends. -/
def All (P : σ → Prop) : Ended σ → Prop
  | .ok s => P s
  | .err s => P s
  | .waiting => True

theorem All.andThen {P : σ → Prop} {r : Ended σ} {k : σ → Ended σ} (h : r.All P)
    (hk : ∀ s, P s → (k s).All P) : (r.andThen k).All P := by
  cases r with
  | ok s => exact hk s h
  | err s => exact h
  | waiting => trivial

end Ended

namespace Ledger

def tick (b : Ledger) : Ledger := { b with clock := b.clock + 1 }

/-- One turn of the loop in `create_tokens`. -/
def createOne (b : Ledger) : Ledger :=
  if 0 < b.cheats then { b with cheats := b.cheats - 1 } else { b with my := b.my + 1 }

def createTokens (n : ℤ) (b : Ledger) : Ledger := createOne^[n.toNat] b

def destroyTokens (n : ℤ) (b : Ledger) : Ledger := { b with my := b.my - n }

/-- One turn of the loop in `release`, with `to_share`. -/
def releaseOne (p : Ledger × ℕ) : Ledger × ℕ :=
  if 0 < p.1.cheats then ({ p.1 with my := p.1.my - 1, cheats := p.1.cheats - 1 }, p.2)
  else ({ p.1 with my := p.1.my - 1 }, p.2 + 1)

/-- The process has both ends of the pipe, so the bytes go into it. -/
def release (n : ℤ) (b : Ledger) : Ledger :=
  let (b, toShare) := releaseOne^[n.toNat] (b, 0)
  { b with written := b.written + toShare }

def hasToken (b : Ledger) : Bool := 1 ≤ b.my

def releaseMine (b : Ledger) : Ledger := b.release 1

def releaseExceptMine (b : Ledger) : Ledger := if 1 < b.my then b.release (b.my - 1) else b

/-- `setup`, with whether the jobserver of the parent is inherited, and its pipes made. -/
def setup (maxjobs : ℤ) (inherited made : Bool) (b : Ledger) : Ended Ledger :=
  if b.ready then .ok b
  else if !made then .err b
  else if inherited && maxjobs = 0 then .ok { b with ready := true }
  else
    let realmax := if 0 < maxjobs then maxjobs else 1
    .ok (({ b with toplevel := realmax, ready := true }.createTokens (realmax - 1)).releaseExceptMine)

/-- What `wait` does about one pipe at its end. -/
def jobDone (b : Ledger) (p : ℕ × Bool) : Ledger :=
  if p.1 ∈ b.jobs then
    let b := { b with jobs := b.jobs.erase p.1 }
    if p.2 then { b with cheatBytes := b.cheatBytes + 1 }
    else
      let b := b.createTokens 1
      if b.hasToken then b.releaseExceptMine else b
  else b

def wait (env : Surroundings) (b : Ledger) : Ended Ledger :=
  match env.select b.clock with
  | none => .err b.tick
  | some done => .ok (done.foldl jobDone b).tick

/-- `ensure_token`, with or without a delay. -/
def ensureToken (env : Surroundings) (delay : Bool) : ℕ → Ledger → Ended Ledger
  | 0, _ => .waiting
  | fuel + 1, b =>
    if b.hasToken then .ok b
    else (b.wait env).andThen fun b =>
      if b.hasToken then .ok b
      else match env.token b.clock with
        | .byte => .ok { b.tick with my := b.my + 1, read := b.read + 1 }
        | .err => .err b.tick
        | .nothing => if delay then .ok b.tick else ensureToken env delay fuel b.tick

/-- The inner loop of `ensure_token_or_cheat`. -/
def awaitJobs (env : Surroundings) : ℕ → Ledger → Ended Ledger
  | 0, _ => .waiting
  | fuel + 1, b =>
    if !b.jobs.isEmpty && !b.hasToken then
      (b.ensureToken env false fuel).andThen (awaitJobs env fuel)
    else .ok b

def ensureTokenOrCheat (env : Surroundings) : ℕ → Ledger → Ended Ledger
  | 0, _ => .waiting
  | fuel + 1, b =>
    if b.hasToken then .ok b
    else (b.awaitJobs env fuel).andThen fun b => (b.ensureToken env true fuel).andThen fun b =>
      if b.hasToken then ensureTokenOrCheat env fuel b
      else if b.my ≠ 0 then ensureTokenOrCheat env fuel b
      else if env.cheat b.clock then .ok { b with my := b.my + 1, cheats := b.cheats + 1 }
      else ensureTokenOrCheat env fuel b

def start (outcome : Started) (b : Ledger) : Ended Ledger :=
  match outcome with
  | .notFlushed => .err b
  | .failed => if b.hasToken then .err (b.destroyTokens 1) else .err b
  | .job fd =>
    if b.hasToken then .ok { b.destroyTokens 1 with jobs := b.jobs.insert fd } else .err b

/-- The loop of `wait_all`. -/
def waitAll (env : Surroundings) : ℕ → Ledger → Ended Ledger
  | 0, _ => .waiting
  | fuel + 1, b =>
    if b.jobs.isEmpty then .ok b
    else
      let b := (fun b => b.release 1)^[(b.my - 1).toNat] b
      let b := if 1 ≤ b.my then b.releaseMine else b
      (b.wait env).andThen (waitAll env fuel)

/-- What tokens there are in the process and from it. -/
def quantity (b : Ledger) : ℤ :=
  b.my - b.cheats + b.jobs.length + b.written - b.read + b.cheatBytes

end Ledger

/-- The calls that the scheduler makes. -/
inductive Call where
  | setup (maxjobs : ℤ) (inherited made : Bool)
  | start (outcome : Started)
  | ensureToken (delay : Bool)
  | ensureTokenOrCheat
  | releaseMine
  | waitAll
deriving DecidableEq, Repr

namespace Call

/-- `start` and `release_mine` are called while holding a token, and the descriptor of a new pipe
is not one that is open. -/
def Allowed (b : Ledger) : Call → Prop
  | .start (.job fd) => 1 ≤ b.my ∧ fd ∉ b.jobs
  | .start _ => 1 ≤ b.my
  | .releaseMine => 1 ≤ b.my
  | _ => True

def run (env : Surroundings) (fuel : ℕ) (b : Ledger) : Call → Ended Ledger
  | .setup maxjobs inherited made => b.setup maxjobs inherited made
  | .start outcome => b.start outcome
  | .ensureToken delay => b.ensureToken env delay fuel
  | .ensureTokenOrCheat => b.ensureTokenOrCheat env fuel
  | .releaseMine => .ok b.releaseMine
  | .waitAll => b.waitAll env fuel

end Call

/-- The calls that have been made after the first `setup`, each of which has returned. -/
inductive Calling (env : Surroundings) (b₀ : Ledger) : List Call → Ledger → Prop where
  | start : Calling env b₀ [] b₀
  | ok {calls : List Call} {b b' : Ledger} (run : Calling env b₀ calls b) (c : Call) (fuel : ℕ)
      (allowed : c.Allowed b) (returns : c.run env fuel b = .ok b') :
      Calling env b₀ (calls ++ [c]) b'
  | err {calls : List Call} {b b' : Ledger} (run : Calling env b₀ calls b) (c : Call) (fuel : ℕ)
      (allowed : c.Allowed b) (returns : c.run env fuel b = .err b') :
      Calling env b₀ (calls ++ [c]) b'

namespace Ledger
variable {env : Surroundings} {b : Ledger} {q : ℤ}

/-- Between calls. -/
structure Kept (q : ℤ) (b : Ledger) : Prop where
  ready : b.ready = true
  nonneg : 0 ≤ b.my
  le_one : b.my ≤ 1
  cheats : 0 ≤ b.cheats
  quantity : b.quantity = q

theorem Kept.self (h : b.Kept q) : b.Kept b.quantity := by
  rw [h.quantity]
  exact h

theorem iterate_releaseOne (n : ℕ) (p : Ledger × ℕ) :
    (releaseOne^[n] p).1.ready = p.1.ready ∧ (releaseOne^[n] p).1.my = p.1.my - n ∧
      (0 ≤ p.1.cheats → 0 ≤ (releaseOne^[n] p).1.cheats) ∧
      (releaseOne^[n] p).1.quantity + (releaseOne^[n] p).2 = p.1.quantity + p.2 := by
  induction n generalizing p with
  | zero => simp
  | succ n ih =>
    obtain ⟨hready, hmy, hcheats, hquantity⟩ := ih (releaseOne p)
    rw [Function.iterate_succ_apply, hready, hmy, hquantity]
    unfold releaseOne at hcheats ⊢
    push_cast
    split_ifs at hcheats ⊢ with hpos
    · refine ⟨rfl, by dsimp only; omega, fun _ => hcheats (by dsimp only; omega), ?_⟩
      simp only [Ledger.quantity]
      omega
    · refine ⟨rfl, by dsimp only; omega, hcheats, ?_⟩
      simp only [Ledger.quantity]
      push_cast
      omega

/-- What `release` leaves, with the tokens that it has put into the pipe. -/
theorem release_spec (n : ℤ) (b : Ledger) :
    (b.release n).ready = b.ready ∧ (b.release n).my = b.my - n.toNat ∧
      (0 ≤ b.cheats → 0 ≤ (b.release n).cheats) ∧ (b.release n).quantity = b.quantity := by
  obtain ⟨hready, hmy, hcheats, hquantity⟩ := iterate_releaseOne n.toNat (b, 0)
  refine ⟨hready, hmy, hcheats, ?_⟩
  simp only [Ledger.quantity] at hquantity
  simp only [release, Ledger.quantity]
  push_cast at hquantity ⊢
  omega

theorem createOne_spec (b : Ledger) :
    b.createOne.ready = b.ready ∧ b.createOne.my ≤ b.my + 1 ∧ b.my ≤ b.createOne.my ∧
      (0 ≤ b.cheats → 0 ≤ b.createOne.cheats) ∧ b.createOne.quantity = b.quantity + 1 := by
  unfold createOne
  split_ifs with hpos
  · refine ⟨rfl, by dsimp only; omega, by dsimp only; omega, fun _ => by dsimp only; omega, ?_⟩
    simp only [Ledger.quantity]
    omega
  · refine ⟨rfl, by dsimp only; omega, by dsimp only; omega, id, ?_⟩
    simp only [Ledger.quantity]
    omega

/-- Whatever is beyond one token is shared. -/
theorem releaseExceptMine_kept (hready : b.ready = true) (hmy : 0 ≤ b.my) (hcheats : 0 ≤ b.cheats) :
    b.releaseExceptMine.Kept b.quantity := by
  unfold releaseExceptMine
  split_ifs with hmany
  · obtain ⟨hready', hmy', hcheats', hquantity⟩ := release_spec (b.my - 1) b
    exact ⟨hready'.trans hready, by omega, by omega, hcheats' hcheats, hquantity⟩
  · exact ⟨hready, hmy, by omega, hcheats, rfl⟩

theorem Kept.jobDone (h : b.Kept q) (p : ℕ × Bool) : (b.jobDone p).Kept q := by
  unfold Ledger.jobDone
  split_ifs with hmem hbyte
  · have hlen := List.length_erase_of_mem hmem
    have hpos := List.length_pos_of_mem hmem
    refine ⟨h.ready, h.nonneg, h.le_one, h.cheats, ?_⟩
    rw [← h.quantity]
    simp only [Ledger.quantity]
    push_cast
    omega
  · have hlen := List.length_erase_of_mem hmem
    have hpos := List.length_pos_of_mem hmem
    obtain ⟨hready, hle, hge, hcheats, hquantity⟩ :=
      createOne_spec { b with jobs := b.jobs.erase p.1 }
    have hq : ({ b with jobs := b.jobs.erase p.1 } : Ledger).createOne.quantity = q := by
      rw [hquantity, ← h.quantity]
      simp only [Ledger.quantity]
      omega
    have hmy : 0 ≤ ({ b with jobs := b.jobs.erase p.1 } : Ledger).my := h.nonneg
    have hle' : ({ b with jobs := b.jobs.erase p.1 } : Ledger).my ≤ 1 := h.le_one
    simp only [createTokens, Int.toNat_one, Function.iterate_one]
    split_ifs with htoken
    · rw [← hq]
      exact releaseExceptMine_kept (hready.trans h.ready) (by omega) (hcheats h.cheats)
    · rw [hasToken, decide_eq_true_eq] at htoken
      exact ⟨hready.trans h.ready, by omega, by omega, hcheats h.cheats, hq⟩
  · exact h

theorem Kept.tick (h : b.Kept q) : b.tick.Kept q := ⟨h.ready, h.nonneg, h.le_one, h.cheats, h.quantity⟩

theorem Kept.wait (h : b.Kept q) (env : Surroundings) : (b.wait env).All (Kept q) := by
  unfold Ledger.wait
  cases env.select b.clock with
  | none => exact h.tick
  | some done =>
    have hdone : (done.foldl Ledger.jobDone b).Kept q := by
      induction done generalizing b with
      | nil => exact h
      | cons p done ih => exact ih (h.jobDone p)
    exact hdone.tick

theorem Kept.ensureToken (h : b.Kept q) (env : Surroundings) (delay : Bool) (fuel : ℕ) :
    (b.ensureToken env delay fuel).All (Kept q) := by
  induction fuel generalizing b with
  | zero => trivial
  | succ fuel ih =>
    rw [Ledger.ensureToken]
    by_cases hhas : b.hasToken = true
    · rw [if_pos hhas]
      exact h
    · rw [if_neg hhas]
      refine (h.wait env).andThen fun b h => ?_
      by_cases htoken : b.hasToken = true
      · rw [if_pos htoken]
        exact h
      · rw [if_neg htoken]
        rw [hasToken, decide_eq_true_eq] at htoken
        have hmy := h.nonneg
        cases env.token b.clock with
        | byte =>
          refine ⟨h.ready, ?_, ?_, h.cheats, ?_⟩
          · show 0 ≤ b.my + 1
            omega
          · show b.my + 1 ≤ 1
            omega
          · rw [← h.quantity]
            simp only [Ledger.quantity, Ledger.tick]
            push_cast
            omega
        | err => exact h.tick
        | nothing =>
          cases delay with
          | true => exact h.tick
          | false => exact ih h.tick

theorem Kept.awaitJobs (h : b.Kept q) (env : Surroundings) (fuel : ℕ) :
    (b.awaitJobs env fuel).All (Kept q) := by
  induction fuel generalizing b with
  | zero => trivial
  | succ fuel ih =>
    rw [Ledger.awaitJobs]
    split_ifs
    · exact (h.ensureToken env false fuel).andThen fun b h => ih h
    · exact h

theorem Kept.ensureTokenOrCheat (h : b.Kept q) (env : Surroundings) (fuel : ℕ) :
    (b.ensureTokenOrCheat env fuel).All (Kept q) := by
  induction fuel generalizing b with
  | zero => trivial
  | succ fuel ih =>
    rw [Ledger.ensureTokenOrCheat]
    split_ifs
    · exact h
    · refine (h.awaitJobs env fuel).andThen fun b h => ?_
      refine (h.ensureToken env true fuel).andThen fun b h => ?_
      split_ifs with htoken hzero hcheat
      · exact ih h
      · exact ih h
      · have hcheats := h.cheats
        refine ⟨h.ready, ?_, ?_, ?_, ?_⟩
        · show 0 ≤ b.my + 1
          omega
        · show b.my + 1 ≤ 1
          omega
        · show 0 ≤ b.cheats + 1
          omega
        · rw [← h.quantity]
          simp only [Ledger.quantity]
          omega
      · exact ih h

theorem Kept.release (h : b.Kept q) (htoken : 1 ≤ b.my) : (b.release 1).Kept q := by
  obtain ⟨hready, hmy, hcheats, hquantity⟩ := release_spec 1 b
  rw [Int.toNat_one] at hmy
  have hle := h.le_one
  exact ⟨hready.trans h.ready, by omega, by omega, hcheats h.cheats, hquantity.trans h.quantity⟩

theorem Kept.waitAll (h : b.Kept q) (env : Surroundings) (fuel : ℕ) :
    (b.waitAll env fuel).All (Kept q) := by
  induction fuel generalizing b with
  | zero => trivial
  | succ fuel ih =>
    rw [Ledger.waitAll]
    split_ifs with hjobs
    · exact h
    · have hone : (b.my - 1).toNat = 0 := by
        have hle := h.le_one
        omega
      simp only [hone, Function.iterate_zero, id_eq]
      split_ifs with htoken
      · exact ((h.release htoken).wait env).andThen fun b h => ih h
      · exact (h.wait env).andThen fun b h => ih h

theorem iterate_createOne (n : ℕ) (b : Ledger) (hb : b.cheats = 0) :
    createOne^[n] b = { b with my := b.my + n } := by
  induction n generalizing b with
  | zero => simp
  | succ n ih =>
    have hone : b.createOne = { b with my := b.my + 1 } := by simp [createOne, hb]
    have hrest := ih { b with my := b.my + 1 } hb
    rw [Function.iterate_succ_apply, hone, hrest]
    simp only [mk.injEq, and_true]
    push_cast
    omega

/-- A new jobserver gets its tokens. -/
theorem filled_kept (n : ℤ) :
    Kept (({ toplevel := n, ready := true } : Ledger).createTokens (n - 1)).releaseExceptMine.quantity
      (({ toplevel := n, ready := true } : Ledger).createTokens (n - 1)).releaseExceptMine := by
  rw [createTokens, iterate_createOne _ _ rfl]
  have hmy : (0 : ℤ) ≤ 1 + (n - 1).toNat := by omega
  exact (releaseExceptMine_kept rfl hmy le_rfl).self

/-- The first `setup` that succeeds. -/
theorem setup_kept {maxjobs : ℤ} {inherited made : Bool} {b₀ : Ledger}
    (h : ({} : Ledger).setup maxjobs inherited made = .ok b₀) : b₀.Kept b₀.quantity := by
  have hready : ¬({} : Ledger).ready = true := Bool.false_ne_true
  rw [setup, if_neg hready] at h
  cases made with
  | false => cases h
  | true =>
    rw [if_neg (by decide)] at h
    by_cases hinherited : (inherited && decide (maxjobs = 0)) = true
    · rw [if_pos hinherited] at h
      cases h
      exact ⟨rfl, Int.one_nonneg, le_rfl, le_rfl, rfl⟩
    · rw [if_neg hinherited] at h
      cases h
      exact filled_kept _

/-- A start without a process behind it has given up the token for nothing. -/
theorem Kept.start (h : b.Kept q) {outcome : Started} (allowed : (Call.start outcome).Allowed b) :
    (b.start outcome).All (Kept (if outcome = .failed then q - 1 else q)) := by
  have hle := h.le_one
  have hquantity := h.quantity
  cases outcome with
  | notFlushed => exact h
  | failed =>
    have htoken : b.hasToken = true := decide_eq_true allowed
    rw [Ledger.start, if_pos htoken, if_pos rfl]
    refine ⟨h.ready, ?_, ?_, h.cheats, ?_⟩
    · show 0 ≤ b.my - 1
      exact Int.sub_nonneg_of_le allowed
    · show b.my - 1 ≤ 1
      omega
    · rw [← hquantity]
      simp only [Ledger.quantity, destroyTokens]
      omega
  | job fd =>
    have htoken : b.hasToken = true := decide_eq_true allowed.1
    rw [Ledger.start, if_pos htoken, if_neg (by simp)]
    have hmy := allowed.1
    refine ⟨h.ready, ?_, ?_, h.cheats, ?_⟩
    · show 0 ≤ b.my - 1
      omega
    · show b.my - 1 ≤ 1
      omega
    · rw [← hquantity]
      simp only [Ledger.quantity, destroyTokens, List.insert_of_not_mem allowed.2, List.length_cons]
      push_cast
      omega

end Ledger

/-- The calls of `start` for which no process is forked. -/
def Call.failed (c : Call) : Bool := c = .start .failed

variable {env : Surroundings} {b₀ b b' : Ledger} {q : ℤ} {calls : List Call}

theorem Call.run_kept {c : Call} (h : b.Kept q) (allowed : c.Allowed b) (fuel : ℕ) :
    (c.run env fuel b).All (Ledger.Kept (if c.failed then q - 1 else q)) := by
  cases c with
  | setup maxjobs inherited made =>
    show (b.setup maxjobs inherited made).All (Ledger.Kept q)
    rw [Ledger.setup, if_pos h.ready]
    exact h
  | start outcome =>
    have hstart := h.start allowed
    simpa [Call.failed, Call.run] using hstart
  | ensureToken delay => exact h.ensureToken env delay fuel
  | ensureTokenOrCheat => exact h.ensureTokenOrCheat env fuel
  | releaseMine => exact h.release allowed
  | waitAll => exact h.waitAll env fuel

theorem countP_failed (calls : List Call) (c : Call) (q : ℤ) :
    q - (calls ++ [c]).countP Call.failed =
      if c.failed then q - calls.countP Call.failed - 1 else q - calls.countP Call.failed := by
  rw [List.countP_append, List.countP_singleton]
  split_ifs
  · push_cast
    omega
  · push_cast
    omega

theorem Calling.kept (h : Calling env b₀ calls b) (h₀ : b₀.Kept q) :
    b.Kept (q - calls.countP Call.failed) := by
  induction h with
  | start => simpa using h₀
  | @ok calls b b' _ c fuel allowed returns ih =>
    have hc : (c.run env fuel b).All _ := Call.run_kept ih allowed fuel
    rw [returns] at hc
    rw [countP_failed]
    exact hc
  | @err calls b b' _ c fuel allowed returns ih =>
    have hc : (c.run env fuel b).All _ := Call.run_kept ih allowed fuel
    rw [returns] at hc
    rw [countP_failed]
    exact hc

/-- Between calls the process has at most one token and no negative number of cheats, and the
number made of its tokens, its jobs and the pipes has stayed the same exactly if every `start`
has got its process. -/
theorem ledger_kept {env : Surroundings} {maxjobs : ℤ} {inherited made : Bool} {b₀ b : Ledger}
    {calls : List Call} (setup : ({} : Ledger).setup maxjobs inherited made = .ok b₀)
    (run : Calling env b₀ calls b) :
    (0 ≤ b.my ∧ b.my ≤ 1 ∧ 0 ≤ b.cheats ∧ (b.hasToken = true → b.my = 1)) ∧
      (b.quantity = b₀.quantity ↔ .start .failed ∉ calls) := by
  have hkept := run.kept (Ledger.setup_kept setup)
  have hnonneg := hkept.nonneg
  have hle := hkept.le_one
  refine ⟨⟨hnonneg, hle, hkept.cheats, ?_⟩, ?_⟩
  · intro htoken
    rw [Ledger.hasToken, decide_eq_true_eq] at htoken
    omega
  · have hcount : calls.countP Call.failed = 0 ↔ .start .failed ∉ calls := by
      rw [List.countP_eq_zero]
      simp only [Call.failed, decide_eq_true_eq]
      exact ⟨fun h hmem => h _ hmem rfl, fun h c hc he => h (he ▸ hc)⟩
    rw [← hcount, hkept.quantity]
    omega

/-- Job 5 has come to its end, and there is nothing in the pipes. -/
def jobEnds : Surroundings where
  select _ := some [(5, false)]
  token _ := .nothing
  cheat _ := false

/-- A jobserver with two tokens. -/
def twoTokens : Ledger := { toplevel := 2, ready := true, written := 1 }

/-- The process starts a job and waits for it. -/
theorem ledger_kept_job : ({ twoTokens with clock := 1 } : Ledger).quantity = twoTokens.quantity := by
  have hsetup : ({} : Ledger).setup 2 false true = .ok twoTokens := by decide
  have hstart : Calling jobEnds twoTokens [.start (.job 5)]
      { twoTokens with my := 0, jobs := [5] } :=
    Calling.start.ok (.start (.job 5)) 0 ⟨le_rfl, List.not_mem_nil⟩ rfl
  have hrun : Calling jobEnds twoTokens [.start (.job 5), .waitAll] { twoTokens with clock := 1 } :=
    hstart.ok .waitAll 2 trivial (by decide)
  exact (ledger_kept hsetup hrun).2.mpr (by decide)

/-- There is no process for the job, and its token is gone. -/
theorem not_ledger_kept : ¬∀ (env : Surroundings) (maxjobs : ℤ) (inherited made : Bool)
    (b₀ b : Ledger) (calls : List Call), ({} : Ledger).setup maxjobs inherited made = .ok b₀ →
      Calling env b₀ calls b → b.quantity = b₀.quantity := by
  intro h
  have hrun : Calling jobEnds twoTokens [.start .failed] { twoTokens with my := 0 } :=
    Calling.start.err (.start .failed) 0 le_rfl rfl
  have hquantity := h jobEnds 2 false true twoTokens _ _ (by decide) hrun
  exact absurd hquantity (by decide)

end Redo.Processes
