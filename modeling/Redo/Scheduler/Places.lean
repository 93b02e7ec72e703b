import Redo.Scheduler.Locks

/-! # Where each target is

A requested target is at one place at a time: still unvisited, waiting for its lock, deferred by a
pool, running, or resolved. Code 0 means that all of them have been resolved well.
-/
namespace Redo.Scheduler
open State Relation

/-- The first occurrences of the names that have not been seen. -/
def firsts : List String → List String → List String
  | _, [] => []
  | seen, t :: rest => if t ∈ seen then firsts seen rest else t :: firsts (t :: seen) rest

/-- The target that the process has its hands on. -/
def Ctl.inHand : Ctl → Option (String × Origin)
  | .token t => some (t, .first)
  | .newLock h | .trylock h | .waitlock h | .retoken h | .owned h | .deps h | .nestedNew h _
  | .nestedLock h _ | .nestedBlocked h _ | .nestedOwned h _ | .nestedWait h _
  | .startToken h => some (h.t, h.origin)
  | _ => none

def Ctl.inHandFrom (k : Ctl) (o : Origin) : List String :=
  (k.inHand.toList.filter (·.2 = o)).map (·.1)

namespace Run

def unvisited (r : Run) : List String := r.sched.ctl.inHandFrom .first ++ firsts r.seen r.todo

def waiting (r : Run) : List String :=
  r.sched.ctl.inHandFrom .locked ++ r.sched.locked.map (·.tArg)

def deferred (r : Run) : List String :=
  r.sched.ctl.inHandFrom .poolBlocked ++ r.sched.poolBlocked.map (·.tArg)

def running (r : Run) : List String := (r.sched.jobs.filter (·.kind ≠ .nested)).map (·.reason)

def resolved (r : Run) : List String := r.sched.log.map (·.t)

end Run

/-- Found clean, accepted as it is, or finished with code 0. -/
def Outcome.Done : Outcome → Prop
  | .clean | .static | .overridden | .cacheHit => True
  | .recipe rv | .unlocked rv => rv = 0
  | .noRule | .missingDep | .failedElsewhere => False

def reasons (jobs : List Job) : List String := (jobs.filter (·.kind ≠ .nested)).map (·.reason)

/-- All places but the argument list. -/
def Sched.places (s : Sched) : List String :=
  s.ctl.inHand.toList.map (·.1) ++ (s.locked.map (·.tArg) ++ (s.poolBlocked.map (·.tArg) ++
    (reasons s.jobs ++ s.log.map (·.t))))

variable {c : Config} {s s' : Sched} {h : Hand} {d : FileId} {k : Ctl} {x : String}

@[simp] theorem Origin.inHand_loop (o : Origin) : o.loop.inHand = none := by cases o <;> rfl

theorem reasons_cons (j : Job) (jobs : List Job) :
    reasons (j :: jobs) = if j.kind = .nested then reasons jobs else j.reason :: reasons jobs := by
  by_cases hj : j.kind = .nested
  · simp [reasons, hj]
  · simp [reasons, hj]

theorem reasons_perm {jobs jobs' : List Job} (hp : jobs.Perm jobs') :
    (reasons jobs).Perm (reasons jobs') := (hp.filter _).map _

theorem count_inHand (k : Ctl) (x : String) :
    (k.inHand.toList.map (·.1)).count x = (k.inHandFrom .first).count x +
      (k.inHandFrom .locked).count x + (k.inHandFrom .poolBlocked).count x := by
  rw [Ctl.inHandFrom, Ctl.inHandFrom, Ctl.inHandFrom]
  cases k.inHand with
  | none => rfl
  | some p =>
    obtain ⟨t, o⟩ := p
    cases o <;> simp

/-- A target goes from one place to another. -/
def Moves (s s' : Sched) : Prop := ∀ x, s'.places.count x = s.places.count x

theorem Moves.goto (hk : k.inHand = s.ctl.inHand) : Moves s (s.goto k) := by
  intro x
  rw [Sched.places, Sched.goto_ctl, hk]
  rfl

/-- The table of locks is no place for targets. -/
theorem Moves.setHeld_goto {f : FileId} {b : Option Bool} (hk : k.inHand = s.ctl.inHand) :
    Moves s ((s.setHeld f b).goto k) := Moves.goto (s := s.setHeld f b) hk

theorem Moves.settle (hh : s.ctl.inHand = some (h.t, h.origin)) (o : Outcome) :
    Moves s (s.settle h o) := by
  intro x
  rw [Sched.places, Sched.places, Sched.settle_ctl, Origin.inHand_loop, hh]
  show (s.locked.map (·.tArg) ++ (s.poolBlocked.map (·.tArg) ++ (reasons s.jobs ++
    h.t :: s.log.map (·.t)))).count x = _
  simp only [List.count_append, List.count_cons, Option.toList_some, List.map_cons, List.map_nil,
    List.count_nil]
  omega

theorem Moves.settleWith (hh : s.ctl.inHand = some (h.t, h.origin)) (o : Outcome) (rc : ℕ) :
    Moves s (s.settleWith h o rc) := by
  intro x
  show (s.settle h o).places.count x = s.places.count x
  exact Moves.settle hh o x

theorem Moves.start (hh : s.ctl.inHand = some (h.t, h.origin)) {kind : Kind}
    (hk : kind ≠ .nested) : Moves s (s.start h kind) := by
  intro x
  rw [Sched.places, Sched.places, Sched.start_ctl, Origin.inHand_loop, hh]
  show (s.locked.map (·.tArg) ++ (s.poolBlocked.map (·.tArg) ++
    (reasons (⟨h.t, h.fid, kind⟩ :: s.jobs) ++ s.log.map (·.t)))).count x = _
  rw [reasons_cons, if_neg hk]
  simp only [List.count_append, List.count_cons, Option.toList_some, List.map_cons, List.map_nil,
    List.count_nil]
  omega

theorem Moves.pushLocked (hh : s.ctl.inHand = some (h.t, h.origin)) :
    Moves s (s.pushLocked h) := by
  intro x
  rw [Sched.places, Sched.places, Sched.pushLocked_ctl, Origin.inHand_loop, hh]
  show ((s.locked ++ [LockedTarget.mk h.fid h.t]).map (·.tArg) ++ (s.poolBlocked.map (·.tArg) ++
    (reasons s.jobs ++ s.log.map (·.t)))).count x = _
  simp only [List.map_append, List.count_append, List.count_cons, Option.toList_some,
    List.map_cons, List.map_nil, List.count_nil]
  omega

theorem Moves.pushPoolBlocked (hh : s.ctl.inHand = some (h.t, h.origin)) :
    Moves s (s.pushPoolBlocked h) := by
  intro x
  rw [Sched.places, Sched.places, Sched.pushPoolBlocked_ctl, Origin.inHand_loop, hh]
  show (s.locked.map (·.tArg) ++ ((s.poolBlocked ++ [LockedTarget.mk h.fid h.t]).map (·.tArg) ++
    (reasons s.jobs ++ s.log.map (·.t)))).count x = _
  simp only [List.map_append, List.count_append, List.count_cons, Option.toList_some,
    List.map_cons, List.map_nil, List.count_nil]
  omega

theorem Moves.reap {j : Job} (hj : j ∈ s.jobs) (rv : ℤ) : Moves s (s.reap j rv) := by
  intro x
  have hp := (reasons_perm (List.perm_cons_erase hj)).count_eq x
  rw [reasons_cons] at hp
  rw [Sched.places, Sched.places, Sched.reap_ctl]
  by_cases hk : j.kind = .nested
  · rw [if_pos hk] at hp
    rw [Sched.reap, if_pos hk]
    simp only [List.count_append, hp]
  · rw [if_neg hk] at hp
    rw [Sched.reap, if_neg hk]
    show (_ ++ (s.locked.map (·.tArg) ++ (s.poolBlocked.map (·.tArg) ++
      (reasons (s.jobs.erase j) ++ j.reason :: s.log.map (·.t))))).count x = _
    simp only [List.count_append, List.count_cons, hp]
    omega

theorem Moves.nestedDone (hh : s.ctl.inHand = some (h.t, h.origin)) (rv : ℤ) :
    Moves s (s.nestedDone h d rv) := by
  by_cases hrv : rv = 0
  · rw [Sched.nestedDone, if_pos hrv]
    exact Moves.goto (s := s.drop d) hh.symm
  · rw [Sched.nestedDone, if_neg hrv]
    exact Moves.settle (s := s.drop d) hh .missingDep

theorem Step.moves (hstep : Step c s s') : s'.ctl.Returned ∨ Moves s s' := by
  cases hstep with
  | take at_ go => exact Or.inr (Moves.goto (by rw [at_]; rfl))
  | reap at_ mem rv => exact Or.inr (Moves.reap mem rv)
  | newLock at_ new =>
    obtain ⟨-, rfl⟩ := newLock_eq_some.mp new
    exact Or.inr (Moves.setHeld_goto (by rw [at_]; rfl))
  | own at_ => exact Or.inr (Moves.setHeld_goto (by rw [at_]; rfl))
  | queue at_ origin => exact Or.inr (Moves.pushLocked (by rw [at_]; rfl))
  | wait at_ origin => exact Or.inr (Moves.goto (by rw [at_]; rfl))
  | waited at_ => exact Or.inr (Moves.setHeld_goto (by rw [at_]; rfl))
  | retry at_ => exact Or.inr (Moves.goto (by rw [at_]; rfl))
  | failedElsewhere at_ origin => exact Or.inr (Moves.settleWith (by rw [at_]; rfl) _ _)
  | clean at_ => exact Or.inr (Moves.settle (by rw [at_]; rfl) _)
  | unlocked at_ oob files other => exact Or.inr (Moves.start (by rw [at_]; rfl) nofun)
  | overridden at_ => exact Or.inr (Moves.settle (by rw [at_]; rfl) _)
  | static at_ => exact Or.inr (Moves.settle (by rw [at_]; rfl) _)
  | defer at_ => exact Or.inr (Moves.pushPoolBlocked (by rw [at_]; rfl))
  | noRule at_ => exact Or.inr (Moves.settleWith (by rw [at_]; rfl) _ _)
  | rule at_ => exact Or.inr (Moves.goto (by rw [at_]; rfl))
  | missingSource at_ => exact Or.inr (Moves.settleWith (by rw [at_]; rfl) _ _)
  | nested at_ ne => exact Or.inr (Moves.goto (by rw [at_]; rfl))
  | nestedNew at_ new =>
    obtain ⟨-, rfl⟩ := newLock_eq_some.mp new
    exact Or.inr (Moves.setHeld_goto (by rw [at_]; rfl))
  | nestedCyclic at_ => exact Or.inr (Moves.nestedDone (by rw [at_]; rfl) 208)
  | nestedFree at_ => exact Or.inr (Moves.setHeld_goto (by rw [at_]; rfl))
  | nestedBlock at_ => exact Or.inr (Moves.goto (by rw [at_]; rfl))
  | nestedUnblock at_ => exact Or.inr (Moves.setHeld_goto (by rw [at_]; rfl))
  | nestedSkip at_ rv => exact Or.inr (Moves.nestedDone (by rw [at_]; rfl) rv)
  | nestedStart at_ reason =>
    right
    intro x
    rw [Sched.places, Sched.places, Sched.startNested_ctl, at_]
    show (_ ++ (_ ++ (_ ++ (reasons (⟨reason, _, .nested⟩ :: s.jobs) ++ _)))).count x = _
    rw [reasons_cons, if_pos rfl]
    rfl
  | nestedDone at_ idle rv => exact Or.inr (Moves.nestedDone (by rw [at_]; rfl) rv)
  | cacheHit at_ => exact Or.inr (Moves.settle (by rw [at_]; rfl) _)
  | miss at_ => exact Or.inr (Moves.goto (by rw [at_]; rfl))
  | start at_ => exact Or.inr (Moves.start (by rw [at_]; rfl) nofun)
  | waitAll at_ more => exact Or.inr (Moves.goto (by rw [at_]; rfl))
  | allDone at_ idle => exact Or.inr (Moves.goto (by rw [at_]; rfl))
  | nothing at_ go drained => exact Or.inr (Moves.goto (by rw [at_]; rfl))
  | pickPoolBlocked at_ go none head =>
    right
    intro x
    rw [Sched.places, Sched.places, at_, head]
    simp [Sched.goto, Ctl.inHand, none, List.count_cons]
  | pickLocked at_ go head =>
    right
    intro x
    rw [Sched.places, Sched.places, at_, head]
    simp [Sched.goto, Ctl.inHand]
  | _ => exact Or.inl trivial

/-- The second pass, or a target of its queues. -/
def Ctl.Second (k : Ctl) : Prop :=
  k = .second ∨ k = .waitAll ∨ k = .pick ∨ ∃ p, k.inHand = some p ∧ p.2 ≠ .first

/-- Code 0 is never lost to a failure, and what is resolved was locked. -/
structure Progress (s s' : Sched) : Prop where
  second : s'.ctl.Second → s.ctl.Second
  rc : s'.rcFlag = 0 → s.rcFlag = 0
  log : s'.log = s.log ∨ ∃ e, s'.log = e :: s.log ∧ e.owned = true ∧
    (s'.rcFlag = 0 → e.outcome.Done)

theorem not_second_of_inHand {t : String} (hk : k.inHand = some (t, .first)) : ¬k.Second := by
  rintro (rfl | rfl | rfl | ⟨p, hp, hne⟩)
  · cases hk
  · cases hk
  · cases hk
  · rw [hk, Option.some.injEq] at hp
    rw [← hp] at hne
    exact hne rfl

theorem second_of_inHand {t : String} {o : Origin} (hk : k.inHand = some (t, o))
    (ho : o ≠ .first) : k.Second := Or.inr (Or.inr (Or.inr ⟨(t, o), hk, ho⟩))

/-- The loop that a target returns to is the one that it was taken from. -/
theorem second_of_loop (hh : s.ctl.inHand = some (h.t, h.origin)) (hl : h.origin.loop.Second) :
    s.ctl.Second := by
  apply second_of_inHand hh
  intro ho
  rw [ho] at hl
  rcases hl with hl | hl | hl | ⟨p, hp, -⟩
  · cases hl
  · cases hl
  · cases hl
  · cases hp

theorem second_congr {k k' : Ctl} {p : String × Origin} (hk : k.inHand = some p)
    (hk' : k'.inHand = some p) (h' : k'.Second) : k.Second := by
  rcases h' with rfl | rfl | rfl | ⟨q, hq, hne⟩
  · cases hk'
  · cases hk'
  · cases hk'
  · rw [hk', Option.some.injEq] at hq
    subst hq
    exact Or.inr (Or.inr (Or.inr ⟨p, hk, hne⟩))

theorem Progress.goto (hk : k.Second → s.ctl.Second) : Progress s (s.goto k) :=
  ⟨hk, id, Or.inl rfl⟩

/-- A call for the target in hand. -/
theorem Progress.call {b : Option Bool} {f : FileId} {p : String × Origin}
    (hk : s.ctl.inHand = some p) (hk' : k.inHand = some p) :
    Progress s ((s.setHeld f b).goto k) :=
  ⟨second_congr hk hk', id, Or.inl rfl⟩

theorem Progress.goto_inHand {p : String × Origin} (hk : s.ctl.inHand = some p)
    (hk' : k.inHand = some p) : Progress s (s.goto k) := Progress.goto (second_congr hk hk')

theorem Progress.settle (hh : s.ctl.inHand = some (h.t, h.origin))
    (held : s.locksHeld h.fid = some true) {o : Outcome} (ho : o.Done) :
    Progress s (s.settle h o) where
  second := second_of_loop hh
  rc := id
  log := Or.inr ⟨s.entry h.t h.fid o, rfl, decide_eq_true held, fun _ => ho⟩

theorem Progress.settleWith (hh : s.ctl.inHand = some (h.t, h.origin))
    (held : s.locksHeld h.fid = some true) (o : Outcome) {rc : ℕ} (hrc : rc ≠ 0) :
    Progress s (s.settleWith h o rc) where
  second := second_of_loop hh
  rc h0 := absurd h0 hrc
  log := Or.inr ⟨s.entry h.t h.fid o, rfl, decide_eq_true held, fun h0 => absurd h0 hrc⟩

theorem Progress.nestedDone (hh : s.ctl.inHand = some (h.t, h.origin))
    (held : (s.drop d).locksHeld h.fid = some true) (rv : ℤ) :
    Progress s (s.nestedDone h d rv) := by
  by_cases hrv : rv = 0
  · rw [Sched.nestedDone, if_pos hrv]
    exact Progress.call hh rfl
  · rw [Sched.nestedDone, if_neg hrv]
    have hp := Progress.settleWith (s := s.drop d) hh held .missingDep Nat.one_ne_zero
    exact ⟨hp.second, hp.rc, hp.log⟩

theorem Progress.reap (hs : Inv s) {j : Job} (hj : j ∈ s.jobs) (rv : ℤ) :
    Progress s (s.reap j rv) := by
  by_cases hk : j.kind = .nested
  · rw [Sched.reap, if_pos hk]
    exact ⟨id, id, Or.inl rfl⟩
  · have hmem := mem_jobOwned.mpr ⟨j, hj, hk, rfl⟩
    have held := (hs.table.held_iff j.fid).mpr (List.mem_append_right _ hmem)
    rw [Sched.reap, if_neg hk]
    by_cases hrv : rv = 0
    · rw [if_pos hrv]
      refine ⟨id, id, Or.inr ⟨s.entry j.reason j.fid (j.outcome rv), rfl, decide_eq_true held, ?_⟩⟩
      intro _
      show (j.outcome rv).Done
      rw [Job.outcome]
      split
      · exact hrv
      · exact hrv
    · rw [if_neg hrv]
      exact ⟨id, fun h0 => absurd h0 Nat.one_ne_zero,
        Or.inr ⟨s.entry j.reason j.fid (j.outcome rv), rfl, decide_eq_true held,
          fun h0 => absurd h0 Nat.one_ne_zero⟩⟩

theorem Inv.held (hs : Inv s) {f : FileId} (hf : f ∈ s.ctl.owns) : s.locksHeld f = some true :=
  (hs.table.held_iff f).mpr (List.mem_append_left _ hf)

/-- The target in hand keeps its lock when that of the dependency is dropped. -/
theorem Inv.held_drop (hs : Inv s) (hf : h.fid ∈ s.ctl.owns) (hne : h.fid ≠ d) :
    (s.drop d).locksHeld h.fid = some true := by
  show Function.update s.locksHeld d none h.fid = some true
  rw [Function.update_of_ne hne]
  exact hs.held hf

theorem Inv.nested_ne (hs : Inv s) (howns : s.ctl.owns = [d, h.fid]) : h.fid ≠ d := by
  have hn := hs.table.nodup
  rw [Sched.owners, howns] at hn
  intro he
  simp [he] at hn

theorem Step.progress (hstep : Step c s s') (hs : Inv s) :
    s'.ctl.Returned ∨ Progress s s' := by
  have owned : ∀ h : Hand, s.ctl.owns = [h.fid] → s.locksHeld h.fid = some true := by
    intro h he
    exact hs.held (by simp [he])
  cases hstep with
  | take at_ go => exact Or.inr (Progress.goto_inHand (by rw [at_]; rfl) rfl)
  | reap at_ mem rv => exact Or.inr (Progress.reap hs mem rv)
  | newLock at_ new =>
    obtain ⟨-, rfl⟩ := newLock_eq_some.mp new
    exact Or.inr (Progress.call (by rw [at_]; rfl) rfl)
  | own at_ => exact Or.inr (Progress.call (by rw [at_]; rfl) rfl)
  | @queue h at_ origin =>
    right
    exact ⟨second_of_loop (h := h) (by rw [at_]; rfl), id, Or.inl rfl⟩
  | wait at_ origin => exact Or.inr (Progress.goto_inHand (by rw [at_]; rfl) rfl)
  | waited at_ => exact Or.inr (Progress.call (by rw [at_]; rfl) rfl)
  | retry at_ => exact Or.inr (Progress.goto_inHand (by rw [at_]; rfl) rfl)
  | @failedElsewhere h at_ origin =>
    exact Or.inr (Progress.settleWith (by rw [at_]; rfl) (owned h (by rw [at_]; rfl)) _
      (by decide))
  | @clean h at_ =>
    exact Or.inr (Progress.settle (by rw [at_]; rfl) (owned h (by rw [at_]; rfl)) trivial)
  | @unlocked h at_ oob files other =>
    right
    exact ⟨second_of_loop (h := h) (by rw [at_]; rfl), id, Or.inl rfl⟩
  | @overridden h at_ =>
    exact Or.inr (Progress.settle (by rw [at_]; rfl) (owned h (by rw [at_]; rfl)) trivial)
  | @static h at_ =>
    exact Or.inr (Progress.settle (by rw [at_]; rfl) (owned h (by rw [at_]; rfl)) trivial)
  | @defer h at_ =>
    right
    exact ⟨second_of_loop (h := h) (by rw [at_]; rfl), id, Or.inl rfl⟩
  | @noRule h at_ =>
    exact Or.inr (Progress.settleWith (by rw [at_]; rfl) (owned h (by rw [at_]; rfl)) _ Nat.one_ne_zero)
  | rule at_ => exact Or.inr (Progress.goto_inHand (by rw [at_]; rfl) rfl)
  | @missingSource h at_ =>
    exact Or.inr (Progress.settleWith (by rw [at_]; rfl) (owned h (by rw [at_]; rfl)) _ Nat.one_ne_zero)
  | nested at_ ne => exact Or.inr (Progress.goto_inHand (by rw [at_]; rfl) rfl)
  | nestedNew at_ new =>
    obtain ⟨-, rfl⟩ := newLock_eq_some.mp new
    exact Or.inr (Progress.call (by rw [at_]; rfl) rfl)
  | @nestedCyclic h d at_ =>
    right
    have hne : h.fid ≠ d := by
      have hnot := hs.created d (by rw [at_]; rfl)
      rw [Sched.owners, at_] at hnot
      intro he
      exact hnot (by simp [Ctl.owns, he])
    exact Progress.nestedDone (by rw [at_]; rfl) (hs.held_drop (by simp [at_, Ctl.owns]) hne) 208
  | nestedFree at_ => exact Or.inr (Progress.call (by rw [at_]; rfl) rfl)
  | nestedBlock at_ => exact Or.inr (Progress.goto_inHand (by rw [at_]; rfl) rfl)
  | nestedUnblock at_ => exact Or.inr (Progress.call (by rw [at_]; rfl) rfl)
  | nestedSkip at_ rv =>
    have hne := hs.nested_ne (by rw [at_]; rfl)
    exact Or.inr (Progress.nestedDone (by rw [at_]; rfl)
      (hs.held_drop (by simp [at_, Ctl.owns]) hne) rv)
  | @nestedStart h d at_ reason =>
    right
    exact ⟨second_congr (p := (h.t, h.origin)) (by rw [at_]; rfl) rfl, id, Or.inl rfl⟩
  | nestedDone at_ idle rv =>
    have hne := hs.nested_ne (by rw [at_]; rfl)
    exact Or.inr (Progress.nestedDone (by rw [at_]; rfl)
      (hs.held_drop (by simp [at_, Ctl.owns]) hne) rv)
  | @cacheHit h at_ =>
    exact Or.inr (Progress.settle (by rw [at_]; rfl) (owned h (by rw [at_]; rfl)) trivial)
  | miss at_ => exact Or.inr (Progress.goto_inHand (by rw [at_]; rfl) rfl)
  | @start h at_ =>
    right
    exact ⟨second_of_loop (h := h) (by rw [at_]; rfl), id, Or.inl rfl⟩
  | waitAll at_ more => exact Or.inr (Progress.goto fun _ => Or.inl at_)
  | allDone at_ idle => exact Or.inr (Progress.goto fun _ => Or.inr (Or.inl at_))
  | nothing at_ go drained => exact Or.inr (Progress.goto fun _ => Or.inr (Or.inr (Or.inl at_)))
  | pickPoolBlocked at_ go none head =>
    exact Or.inr ⟨fun _ => Or.inr (Or.inr (Or.inl at_)), id, Or.inl rfl⟩
  | pickLocked at_ go head =>
    exact Or.inr ⟨fun _ => Or.inr (Or.inr (Or.inl at_)), id, Or.inl rfl⟩
  | _ => exact Or.inl trivial

theorem Origin.loop_ne_token {t : String} (o : Origin) : o.loop ≠ .token t := by
  cases o <;> exact nofun

theorem Origin.loop_ne_returned {r : Except Error ℕ} (o : Origin) : o.loop ≠ .returned r := by
  cases o <;> exact nofun

theorem nestedDone_ctl_ne {rv : ℤ} {k : Ctl} (hdeps : k ≠ .deps h) (hloop : h.origin.loop ≠ k) :
    (s.nestedDone h d rv).ctl ≠ k := by
  rw [Sched.nestedDone_ctl]
  split_ifs
  · exact hdeps.symm
  · exact hloop

/-- Only the loop over the arguments puts a new target in hand. -/
theorem Step.token {t : String} (hstep : Step c s s') (hk : s'.ctl = .token t) :
    s.ctl = .token t := by
  cases hstep with
  | reap at_ mem rv => rwa [Sched.reap_ctl] at hk
  | nestedCyclic at_ => exact absurd hk (nestedDone_ctl_ne nofun (Origin.loop_ne_token _))
  | nestedSkip at_ rv => exact absurd hk (nestedDone_ctl_ne nofun (Origin.loop_ne_token _))
  | nestedDone at_ idle rv => exact absurd hk (nestedDone_ctl_ne nofun (Origin.loop_ne_token _))
  | _ => simp [Origin.loop_ne_token] at hk

/-- Code 0 is returned by the second pass only, with nothing left to do. -/
theorem Step.returned_zero (hstep : Step c s s') (h₀ : s'.ctl = .returned (.ok 0)) :
    s.ctl = .second ∧ s.Drained ∧ s.jobs = [] ∧ s.rcFlag = 0 ∧ s'.log = s.log := by
  cases hstep with
  | finish at_ drained idle =>
    rw [Sched.goto_ctl, Ctl.returned.injEq, Except.ok.injEq] at h₀
    exact ⟨at_, drained, idle, h₀, rfl⟩
  | stop at_ stops =>
    rw [Sched.goto_ctl, Ctl.returned.injEq, Except.ok.injEq] at h₀
    exact absurd h₀ stops.1
  | reap at_ mem rv =>
    rw [Sched.reap_ctl] at h₀
    rw [h₀] at at_
    exact at_.elim
  | nestedCyclic at_ => exact absurd h₀ (nestedDone_ctl_ne nofun (Origin.loop_ne_returned _))
  | nestedSkip at_ rv => exact absurd h₀ (nestedDone_ctl_ne nofun (Origin.loop_ne_returned _))
  | nestedDone at_ idle rv =>
    exact absurd h₀ (nestedDone_ctl_ne nofun (Origin.loop_ne_returned _))
  | @cyclic h at_ =>
    rw [Sched.goto_ctl, Ctl.returned.injEq] at h₀
    split_ifs at h₀
    cases h₀
  | _ => simp [Origin.loop_ne_returned] at h₀

theorem firsts_cons (seen rest : List String) {t : String} (ht : t ∉ seen) :
    firsts seen (t :: rest) = t :: firsts (t :: seen) rest := if_neg ht

/-- What has been seen counts as a set. -/
theorem firsts_congr {seen seen' : List String} (h : ∀ t, t ∈ seen ↔ t ∈ seen')
    (todo : List String) : firsts seen todo = firsts seen' todo := by
  induction todo generalizing seen seen' with
  | nil => rfl
  | cons t rest ih =>
    rw [firsts, firsts]
    by_cases ht : t ∈ seen
    · rw [if_pos ht, if_pos ((h t).mp ht), ih h]
    · rw [if_neg ht, if_neg fun ht' => ht ((h t).mpr ht')]
      have hcons : ∀ u, u ∈ t :: seen ↔ u ∈ t :: seen' := by simp [h]
      rw [ih hcons]

theorem mem_firsts {seen todo : List String} {t : String} :
    t ∈ firsts seen todo ↔ t ∈ todo ∧ t ∉ seen := by
  induction todo generalizing seen with
  | nil => simp [firsts]
  | cons u rest ih =>
    rw [firsts]
    by_cases hu : u ∈ seen
    · rw [if_pos hu, ih]
      constructor
      · exact fun h => ⟨List.mem_cons_of_mem u h.1, h.2⟩
      · rintro ⟨h, hn⟩
        refine ⟨(List.mem_cons.mp h).resolve_left ?_, hn⟩
        rintro rfl
        exact hn hu
    · rw [if_neg hu, List.mem_cons, ih, List.mem_cons, List.mem_cons]
      by_cases htu : t = u
      · subst htu
        simp [hu]
      · simp [htu]

theorem firsts_nodup (seen todo : List String) : (firsts seen todo).Nodup := by
  induction todo generalizing seen with
  | nil => exact List.nodup_nil
  | cons t rest ih =>
    rw [firsts]
    split_ifs with ht
    · exact ih seen
    · rw [List.nodup_cons, mem_firsts]
      exact ⟨fun h => h.2 List.mem_cons_self, ih (t :: seen)⟩

/-- The invariant of a whole run over the arguments `ts`. -/
structure Accounted (ts : List String) (r : Run) : Prop where
  inv : Inv r.sched
  places : ∀ x, (firsts r.seen r.todo).count x + r.sched.places.count x = (firsts [] ts).count x
  seen : r.seen.Nodup
  visiting : ∀ t, r.sched.ctl = .token t → t ∈ r.seen
  owned : ∀ e ∈ r.sched.log, e.owned = true
  good : r.sched.rcFlag = 0 → ∀ e ∈ r.sched.log, e.outcome.Done
  rest : r.sched.rcFlag = 0 → r.sched.ctl.Second → firsts r.seen r.todo = []

variable {ts : List String} {r r' : Run}

theorem begin_accounted (hn : ¬(begin ts).sched.ctl.Returned) : Accounted ts (begin ts) where
  inv := (begin_inv ts).resolve_left hn
  places x := by
    have hctl : (begin ts).sched.ctl.inHand = none := by
      rw [begin]
      split_ifs <;> rfl
    rw [Sched.places, hctl]
    rfl
  seen := List.nodup_nil
  visiting t ht := by
    rw [begin] at ht
    split_ifs at ht
  owned := nofun
  good _ := nofun
  rest _ hk := by
    rw [begin] at hk
    split_ifs at hk
    all_goals
      rcases hk with hk | hk | hk | ⟨p, hp, -⟩
      · cases hk
      · cases hk
      · cases hk
      · cases hp

theorem Accounted.sched (ha : Accounted ts r) {s' : Sched} (hstep : Step c r.sched s') :
    s'.ctl.Returned ∨ Accounted ts { r with sched := s' } := by
  rcases hstep.inv ha.inv with hret | hinv
  · exact Or.inl hret
  rcases hstep.moves with hret | hmoves
  · exact Or.inl hret
  rcases hstep.progress ha.inv with hret | hp
  · exact Or.inl hret
  right
  constructor
  · exact hinv
  · intro x
    rw [← ha.places x, hmoves x]
  · exact ha.seen
  · intro t ht
    exact ha.visiting t (hstep.token ht)
  · rcases hp.log with he | ⟨e, he, howned, -⟩
    · rw [he]
      exact ha.owned
    · rw [he]
      intro e' he'
      rcases List.mem_cons.mp he' with rfl | he'
      · exact howned
      · exact ha.owned e' he'
  · intro hrc
    rcases hp.log with he | ⟨e, he, -, hdone⟩
    · rw [he]
      exact ha.good (hp.rc hrc)
    · rw [he]
      intro e' he'
      rcases List.mem_cons.mp he' with rfl | he'
      · exact hdone hrc
      · exact ha.good (hp.rc hrc) e' he'
  · intro hrc hk
    exact ha.rest (hp.rc hrc) (hp.second hk)

theorem Accounted.step (ha : Accounted ts r) (hstep : RunStep c r r') :
    r'.sched.ctl.Returned ∨ Accounted ts r' := by
  have hinv := (hstep.inv (Or.inr ha.inv))
  cases hstep with
  | empty => exact Or.inl trivial
  | @skip at_ t rest head ne mem =>
    right
    have hf : firsts r.seen r.todo = firsts r.seen rest := by
      rw [head, firsts, if_pos mem]
    exact ⟨ha.inv, fun x => by rw [← ha.places x, hf], ha.seen, ha.visiting, ha.owned, ha.good,
      fun hrc hk => by rw [← ha.rest hrc hk, hf]⟩
  | @visit at_ t rest head ne new =>
    right
    refine ⟨hinv.resolve_left id, ?_, List.nodup_cons.mpr ⟨new, ha.seen⟩, ?_, ha.owned, ha.good,
      ?_⟩
    · intro x
      rw [← ha.places x, head, firsts_cons _ _ new, Sched.places, Sched.places, at_]
      simp only [Sched.goto, Ctl.inHand, List.count_append, List.count_cons,
        Option.toList_some, Option.toList_none, List.map_cons, List.map_nil, List.count_nil]
      omega
    · rintro _ ⟨⟩
      exact List.mem_cons_self
    · intro _ hk
      exact absurd hk (not_second_of_inHand rfl)
  | @stop t at_ stops =>
    right
    have hmem := ha.visiting t at_
    have hnot : t ∉ r.seen.erase t := ha.seen.not_mem_erase
    have hset : ∀ u, u ∈ t :: r.seen.erase t ↔ u ∈ r.seen :=
      fun u => (List.perm_cons_erase hmem).mem_iff.symm
    refine ⟨hinv.resolve_left id, ?_, ha.seen.erase t, nofun, ha.owned, ha.good, ?_⟩
    · intro x
      rw [← ha.places x, firsts_cons _ _ hnot, firsts_congr hset, Sched.places, Sched.places, at_]
      simp only [Sched.goto, Ctl.inHand, List.count_append, List.count_cons,
        Option.toList_some, Option.toList_none, List.map_cons, List.map_nil, List.count_nil]
      omega
    · intro hrc
      exact absurd hrc stops.1
  | through at_ none =>
    right
    refine ⟨hinv.resolve_left id, ?_, ha.seen, nofun, ha.owned, ha.good, ?_⟩
    · intro x
      rw [← ha.places x, Sched.places, Sched.places, at_]
      rfl
    · intro _ _
      rw [none]
      rfl
  | sched step => exact ha.sched step

theorem run_accounted (hrun : ReflTransGen (RunStep c) (begin ts) r) :
    r.sched.ctl.Returned ∨ Accounted ts r := by
  induction hrun with
  | refl =>
    by_cases hn : (begin ts).sched.ctl.Returned
    · exact Or.inl hn
    · exact Or.inr (begin_accounted hn)
  | tail _ hstep ih =>
    rcases ih with hret | ha
    · left
      cases hstep with
      | skip => exact hret
      | sched step => exact absurd hret step.not_returned
      | empty at_ => exact trivial
      | visit at_ =>
        rw [at_] at hret
        exact hret.elim
      | stop at_ =>
        rw [at_] at hret
        exact hret.elim
      | through at_ =>
        rw [at_] at hret
        exact hret.elim
    · exact ha.step hstep

/-- A target is at exactly one place. -/
theorem Accounted.one_place (ha : Accounted ts r) {t : String} (ht : t ∈ ts) :
    r.unvisited.count t + r.waiting.count t + r.deferred.count t + r.running.count t +
      r.resolved.count t = 1 := by
  have hone : (firsts [] ts).count t = 1 :=
    List.count_eq_one_of_mem (firsts_nodup [] ts) (mem_firsts.mpr ⟨ht, List.not_mem_nil⟩)
  have hp := ha.places t
  rw [hone, Sched.places, List.count_append, count_inHand] at hp
  rw [Run.unvisited, Run.waiting, Run.deferred, Run.running, Run.resolved]
  rw [reasons] at hp
  simp only [List.count_append] at hp ⊢
  omega

theorem all_done_of_returned_zero (hrun : ReflTransGen (RunStep c) (begin ts) r)
    (h₀ : r.sched.ctl = .returned (.ok 0)) {t : String} (ht : t ∈ ts) :
    ∃ e ∈ r.sched.log, e.t = t ∧ e.outcome.Done ∧ e.owned = true := by
  cases hrun with
  | refl =>
    rw [begin] at h₀
    split_ifs at h₀
    cases h₀
  | @tail r₁ _ hrun hstep =>
    cases hstep with
    | sched step =>
      obtain ⟨hsecond, hdrained, hidle, hrc, hlog⟩ := step.returned_zero h₀
      have ha : Accounted ts r₁ := by
        apply (run_accounted hrun).resolve_left
        rw [hsecond]
        exact id
      have hone := ha.places t
      rw [ha.rest hrc (Or.inl hsecond), Sched.places, hsecond, hdrained.1, hdrained.2, hidle,
        List.count_eq_one_of_mem (firsts_nodup [] ts) (mem_firsts.mpr ⟨ht, List.not_mem_nil⟩)]
        at hone
      have hmem : t ∈ r₁.sched.log.map (·.t) := by
        apply List.count_pos_iff.mp
        simp only [Ctl.inHand, reasons, Option.toList_none, List.map_nil, List.filter_nil,
          List.nil_append, List.count_nil] at hone
        omega
      obtain ⟨e, he, het⟩ := List.mem_map.mp hmem
      show ∃ e ∈ _, _
      rw [hlog]
      exact ⟨e, he, het, ha.good hrc e he, ha.owned e he⟩
    | skip at_ =>
      rw [at_] at h₀
      cases h₀
    | _ => simp at h₀

/-- In unlocked mode code 0 means the same, under the locks of the caller. -/
theorem unlockedLoop_eq_zero {keepGoing : Bool} {rc : ℕ} {visits : List (String × Answer)}
    (h : unlockedLoop keepGoing rc visits = .ok 0) :
    rc = 0 ∧ ∀ p ∈ visits, p.2 = .clean ∨ p.2 = .built 0 := by
  induction visits generalizing rc with
  | nil =>
    rw [unlockedLoop, Except.ok.injEq] at h
    exact ⟨h, nofun⟩
  | cons p rest ih =>
    obtain ⟨t, answer⟩ := p
    unfold unlockedLoop at h
    by_cases ht : t = ""
    · rw [if_pos ht] at h
      cases h
    · rw [if_neg ht] at h
      cases answer with
      | error => cases h
      | clean =>
        have hr := ih h
        exact ⟨hr.1, List.forall_mem_cons.mpr ⟨Or.inl rfl, hr.2⟩⟩
      | built rv =>
        dsimp only at h
        by_cases hrv : rv = 0
        · rw [if_pos hrv] at h
          have hr := ih h
          exact ⟨hr.1, List.forall_mem_cons.mpr ⟨Or.inr (by rw [hrv]), hr.2⟩⟩
        · rw [if_neg hrv] at h
          split_ifs at h
          · exact absurd (ih h).1 Nat.one_ne_zero
          · cases h

end Redo.Scheduler
