import Mathlib.Data.List.Nodup
import Redo.Scheduler.Ifchange

/-! # Whose locks `locks_held` holds

The owned entries of the table are the target in hand, the dependency that it builds, and the
targets of the jobs that run. In the second pass a target is taken in hand only when no job runs.
-/
namespace Redo.Scheduler
open State Relation

/-- The table says `true` for just these files, each of which has one lock object. -/
structure Table (held : FileId → Option Bool) (owners : List FileId) : Prop where
  nodup : owners.Nodup
  held_iff : ∀ f, held f = some true ↔ f ∈ owners

section Table
variable {held : FileId → Option Bool} {owners owners' : List FileId} {f : FileId}

theorem Table.perm (h : Table held owners) (hp : owners.Perm owners') : Table held owners' where
  nodup := hp.nodup_iff.mp h.nodup
  held_iff f := by rw [h.held_iff, hp.mem_iff]

/-- An entry that is not owned comes and goes without a trace. -/
theorem Table.update_of_not_mem (h : Table held owners) (hf : f ∉ owners) {b : Option Bool}
    (hb : b ≠ some true) : Table (Function.update held f b) owners where
  nodup := h.nodup
  held_iff g := by
    by_cases hg : g = f
    · subst hg
      rw [Function.update_self]
      exact ⟨fun he => absurd he hb, fun hm => absurd hm hf⟩
    · rw [Function.update_of_ne hg]
      exact h.held_iff g

theorem Table.own (h : Table held owners) (hf : f ∉ owners) :
    Table (Function.update held f (some true)) (f :: owners) where
  nodup := List.nodup_cons.mpr ⟨hf, h.nodup⟩
  held_iff g := by
    by_cases hg : g = f
    · subst hg
      simp
    · rw [Function.update_of_ne hg, h.held_iff, List.mem_cons]
      exact ⟨Or.inr, fun hm => hm.resolve_left hg⟩

theorem Table.release (h : Table held (f :: owners)) :
    Table (Function.update held f none) owners where
  nodup := (List.nodup_cons.mp h.nodup).2
  held_iff g := by
    by_cases hg : g = f
    · subst hg
      rw [Function.update_self]
      exact ⟨nofun, fun hm => absurd hm (List.nodup_cons.mp h.nodup).1⟩
    · rw [Function.update_of_ne hg, h.held_iff, List.mem_cons]
      exact ⟨fun hm => hm.resolve_left hg, Or.inr⟩

end Table

/-- The locks that the process owns for the target in hand. -/
def Ctl.owns : Ctl → List FileId
  | .owned h | .deps h | .startToken h | .nestedNew h _ | .nestedLock h _
  | .nestedBlocked h _ => [h.fid]
  | .nestedOwned h d | .nestedWait h d => [d, h.fid]
  | _ => []

/-- The lock that has been created and is not owned yet. -/
def Ctl.created : Ctl → Option FileId
  | .trylock h | .waitlock h | .retoken h => some h.fid
  | .nestedLock _ d | .nestedBlocked _ d => some d
  | _ => none

/-- No job runs: the target in hand comes from a queue. -/
def Ctl.Alone : Ctl → Prop
  | .newLock h | .trylock h | .owned h | .deps h | .nestedNew h _ | .nestedLock h _
  | .nestedBlocked h _ | .nestedOwned h _ | .startToken h => h.origin ≠ .first
  | .waitlock _ | .retoken _ | .pick => True
  | _ => False

/-- The file whose lock the next call creates. -/
def Ctl.creates : Ctl → Option FileId
  | .newLock h => some h.fid
  | .nestedNew _ d => some d
  | _ => none

def jobOwned (jobs : List Job) : List FileId :=
  (jobs.filter (·.kind ≠ .nested)).map (·.fid)

def Sched.owners (s : Sched) : List FileId := s.ctl.owns ++ jobOwned s.jobs

structure Inv (s : Sched) : Prop where
  table : Table s.locksHeld s.owners
  created : ∀ f, s.ctl.created = some f → f ∉ s.owners
  nested : ∀ j ∈ s.jobs, j.kind = .nested → ∃ h, s.ctl = .nestedWait h j.fid
  /-- A missing dependency is not the target itself. -/
  other : ∀ h d, s.ctl = .nestedNew h d → d ≠ h.fid
  alone : s.ctl.Alone → s.jobs = []

variable {c : Config} {s s' : Sched} {h : Hand} {d : FileId} {k : Ctl}

@[simp] theorem jobOwned_nil : jobOwned [] = [] := rfl

theorem jobOwned_cons (j : Job) (jobs : List Job) :
    jobOwned (j :: jobs) = if j.kind = .nested then jobOwned jobs else j.fid :: jobOwned jobs := by
  by_cases hj : j.kind = .nested
  · simp [jobOwned, hj]
  · simp [jobOwned, hj]

theorem mem_jobOwned {jobs : List Job} {f : FileId} :
    f ∈ jobOwned jobs ↔ ∃ j ∈ jobs, j.kind ≠ .nested ∧ j.fid = f := by
  simp [jobOwned, and_assoc]

theorem jobOwned_perm {jobs jobs' : List Job} (hp : jobs.Perm jobs') :
    (jobOwned jobs).Perm (jobOwned jobs') := (hp.filter _).map _

@[simp] theorem Origin.owns_loop (o : Origin) : o.loop.owns = [] := by cases o <;> rfl
@[simp] theorem Origin.created_loop (o : Origin) : o.loop.created = none := by cases o <;> rfl

theorem Origin.not_alone_loop (o : Origin) : ¬o.loop.Alone := by cases o <;> exact id

theorem Origin.loop_ne_nestedNew (o : Origin) : o.loop ≠ .nestedNew h d := by
  cases o <;> exact nofun

theorem Origin.loop_ne_nestedBlocked (o : Origin) : o.loop ≠ .nestedBlocked h d := by
  cases o <;> exact nofun

theorem newLock_eq_none {f : FileId} : s.newLock f = none ↔ s.locksHeld f = some true := by
  simp [Sched.newLock]

theorem newLock_eq_some {f : FileId} :
    s.newLock f = some s' ↔ s.locksHeld f ≠ some true ∧ s' = s.setHeld f (some false) := by
  by_cases hf : s.locksHeld f = some true
  · simp [Sched.newLock, hf]
  · simp [Sched.newLock, hf, eq_comm]

/-- Going on without a change of locks and jobs. -/
theorem Inv.goto (hs : Inv s) (howns : k.owns = s.ctl.owns)
    (hcreated : ∀ f, k.created = some f → s.ctl.created = some f)
    (hnested : ∀ h d, s.ctl ≠ .nestedWait h d) (hother : ∀ h d, k = .nestedNew h d → d ≠ h.fid)
    (halone : k.Alone → s.jobs = []) : Inv (s.goto k) where
  table := by
    show Table s.locksHeld (k.owns ++ jobOwned s.jobs)
    rw [howns]
    exact hs.table
  created f hf := by
    show f ∉ k.owns ++ jobOwned s.jobs
    rw [howns]
    exact hs.created f (hcreated f hf)
  nested j hj hk := by
    obtain ⟨h, hctl⟩ := hs.nested j hj hk
    exact absurd hctl (hnested h j.fid)
  other := hother
  alone := halone

/-- `Lock::new` of a file whose lock the process does not own. -/
theorem Inv.new (hs : Inv s) {f : FileId} (hf : s.locksHeld f ≠ some true)
    (howns : k.owns = s.ctl.owns) (hcreated : k.created = some f)
    (hnested : ∀ h d, s.ctl ≠ .nestedWait h d) (hother : ∀ h d, k ≠ .nestedNew h d)
    (halone : k.Alone → s.jobs = []) : Inv ((s.setHeld f (some false)).goto k) where
  table := by
    show Table (Function.update s.locksHeld f (some false)) (k.owns ++ jobOwned s.jobs)
    rw [howns]
    apply hs.table.update_of_not_mem
    · intro hm
      exact hf ((hs.table.held_iff f).mpr hm)
    · simp
  created g hg := by
    show g ∉ k.owns ++ jobOwned s.jobs
    rw [show ((s.setHeld f (some false)).goto k).ctl = k from rfl, hcreated,
      Option.some.injEq] at hg
    subst hg
    rw [howns]
    intro hm
    exact hf ((hs.table.held_iff f).mpr hm)
  nested j hj hk := by
    obtain ⟨h, hctl⟩ := hs.nested j hj hk
    exact absurd hctl (hnested h j.fid)
  other h d hk := absurd hk (hother h d)
  alone := halone

/-- A lock that has been created becomes owned. -/
theorem Inv.own (hs : Inv s) {f : FileId} (hf : s.ctl.created = some f)
    (howns : k.owns = f :: s.ctl.owns) (hcreated : k.created = none)
    (hnested : ∀ h d, s.ctl ≠ .nestedWait h d) (hother : ∀ h d, k ≠ .nestedNew h d)
    (halone : k.Alone → s.jobs = []) : Inv ((s.setHeld f (some true)).goto k) where
  table := by
    show Table (Function.update s.locksHeld f (some true)) (k.owns ++ jobOwned s.jobs)
    rw [howns]
    exact hs.table.own (hs.created f hf)
  created g hg := by
    rw [show ((s.setHeld f (some true)).goto k).ctl = k from rfl, hcreated] at hg
    cases hg
  nested j hj hk := by
    obtain ⟨h, hctl⟩ := hs.nested j hj hk
    exact absurd hctl (hnested h j.fid)
  other h d hk := absurd hk (hother h d)
  alone := halone

/-- What the end of a target needs to know of the state that it leaves. -/
theorem Inv.of_loop {s' : Sched} {o : Origin} (hctl : s'.ctl = o.loop)
    (htable : Table s'.locksHeld (jobOwned s'.jobs))
    (hnested : ∀ j ∈ s'.jobs, j.kind ≠ .nested) : Inv s' where
  table := by
    rw [Sched.owners, hctl, Origin.owns_loop, List.nil_append]
    exact htable
  created f hf := by
    rw [hctl, Origin.created_loop] at hf
    cases hf
  nested j hj hk := absurd hk (hnested j hj)
  other h d hk := by
    rw [hctl] at hk
    exact absurd hk (Origin.loop_ne_nestedNew o)
  alone ha := by
    rw [hctl] at ha
    exact absurd ha (Origin.not_alone_loop o)

theorem Inv.not_nested (hs : Inv s) (hctl : ∀ h d, s.ctl ≠ .nestedWait h d) :
    ∀ j ∈ s.jobs, j.kind ≠ .nested := by
  intro j hj hk
  obtain ⟨h, he⟩ := hs.nested j hj hk
  exact hctl h j.fid he

theorem Inv.settle (hs : Inv s) (howns : s.ctl.owns = [h.fid])
    (hctl : ∀ h d, s.ctl ≠ .nestedWait h d) (o : Outcome) : Inv (s.settle h o) := by
  apply Inv.of_loop (o := h.origin) rfl
  · have ht := hs.table
    rw [Sched.owners, howns] at ht
    exact ht.release
  · exact hs.not_nested hctl

theorem Inv.settleWith (hs : Inv s) (howns : s.ctl.owns = [h.fid])
    (hctl : ∀ h d, s.ctl ≠ .nestedWait h d) (o : Outcome) (rc : ℕ) :
    Inv (s.settleWith h o rc) :=
  let hi := hs.settle howns hctl o
  ⟨hi.table, hi.created, hi.nested, hi.other, hi.alone⟩

/-- A lock that has been created and not got is dropped, and the target is queued. -/
theorem Inv.dropCreated (hs : Inv s) (hf : s.ctl.created = some h.fid) (howns : s.ctl.owns = [])
    (hctl : ∀ h d, s.ctl ≠ .nestedWait h d) : Inv ((s.drop h.fid).goto h.origin.loop) := by
  apply Inv.of_loop (o := h.origin) rfl
  · have ht := hs.table
    rw [Sched.owners, howns, List.nil_append] at ht
    have hm := hs.created h.fid hf
    rw [Sched.owners, howns, List.nil_append] at hm
    exact ht.update_of_not_mem hm (by simp)
  · exact hs.not_nested hctl

theorem Inv.start (hs : Inv s) (howns : s.ctl.owns = [h.fid])
    (hctl : ∀ h d, s.ctl ≠ .nestedWait h d) {kind : Kind} (hk : kind ≠ .nested) :
    Inv (s.start h kind) := by
  apply Inv.of_loop (o := h.origin) rfl
  · show Table s.locksHeld (jobOwned (⟨h.t, h.fid, kind⟩ :: s.jobs))
    rw [jobOwned_cons, if_neg hk]
    have ht := hs.table
    rw [Sched.owners, howns] at ht
    exact ht
  · intro j hj
    rcases List.mem_cons.mp hj with rfl | hj
    · exact hk
    · exact hs.not_nested hctl j hj

/-- The lock of the dependency goes, and the target in hand keeps its own. -/
theorem Inv.nestedDone (ht : Table (s.drop d).locksHeld (h.fid :: jobOwned s.jobs))
    (hnested : ∀ j ∈ s.jobs, j.kind ≠ .nested) (halone : h.origin ≠ .first → s.jobs = []) (rv : ℤ) :
    Inv (s.nestedDone h d rv) := by
  by_cases hrv : rv = 0
  · rw [Sched.nestedDone, if_pos hrv]
    refine ⟨ht, fun f hf => ?_, fun j hj hk => absurd hk (hnested j hj), fun h' d' hc => ?_, halone⟩
    · cases hf
    · cases hc
  · rw [Sched.nestedDone, if_neg hrv]
    exact Inv.of_loop (o := h.origin) rfl ht.release hnested

theorem Inv.startNested (hs : Inv s) (hctl : s.ctl = .nestedOwned h d) (reason : String) :
    Inv (s.startNested h d reason) where
  table := by
    have ht := hs.table
    rw [Sched.owners, hctl] at ht
    exact ht
  created := nofun
  nested j hj hk := by
    rcases List.mem_cons.mp hj with rfl | hj
    · exact ⟨h, rfl⟩
    · obtain ⟨h', he⟩ := hs.nested j hj hk
      rw [hctl] at he
      cases he
  other := nofun
  alone := nofun

theorem Inv.reap (hs : Inv s) {j : Job} (hj : j ∈ s.jobs) (rv : ℤ) : Inv (s.reap j rv) := by
  have hp := List.perm_cons_erase hj
  have hsub : ∀ i ∈ s.jobs.erase j, i ∈ s.jobs := fun i hi => List.mem_of_mem_erase hi
  have hmem : ∀ f, f ∈ s.ctl.owns ++ jobOwned (s.jobs.erase j) → f ∈ s.owners := by
    intro f hf
    rw [Sched.owners]
    rcases List.mem_append.mp hf with hf | hf
    · exact List.mem_append_left _ hf
    · obtain ⟨i, hi, hk, hif⟩ := mem_jobOwned.mp hf
      exact List.mem_append_right _ (mem_jobOwned.mpr ⟨i, hsub i hi, hk, hif⟩)
  have halone : s.ctl.Alone → s.jobs.erase j = [] := by
    intro ha
    rw [hs.alone ha] at hj
    cases hj
  by_cases hk : j.kind = .nested
  · rw [Sched.reap, if_pos hk]
    have hown := jobOwned_perm hp
    rw [jobOwned_cons, if_pos hk] at hown
    exact ⟨hs.table.perm (hown.append_left _), fun f hf hm => hs.created f hf (hmem f hm),
      fun i hi => hs.nested i (hsub i hi), hs.other, halone⟩
  · rw [Sched.reap, if_neg hk]
    have hown := jobOwned_perm hp
    rw [jobOwned_cons, if_neg hk] at hown
    have ht := hs.table.perm ((hown.append_left s.ctl.owns).trans List.perm_middle)
    exact ⟨ht.release, fun f hf hm => hs.created f hf (hmem f hm),
      fun i hi => hs.nested i (hsub i hi), hs.other, halone⟩

theorem Step.inv (hstep : Step c s s') (hs : Inv s) : s'.ctl.Returned ∨ Inv s' := by
  cases hstep with
  | take at_ go =>
    right
    exact hs.goto (by rw [at_]; rfl) nofun (by simp [at_]) nofun (by simp [Ctl.Alone])
  | reap at_ mem rv => exact Or.inr (hs.reap mem rv)
  | lockCreated => exact Or.inl trivial
  | newLock at_ new =>
    right
    obtain ⟨hf, rfl⟩ := newLock_eq_some.mp new
    refine hs.new hf (by rw [at_]; rfl) rfl (by simp [at_]) nofun ?_
    intro ha
    exact hs.alone (by rw [at_]; exact ha)
  | cyclic => exact Or.inl trivial
  | own at_ =>
    right
    refine hs.own (by rw [at_]; rfl) (by rw [at_]; rfl) rfl (by simp [at_]) nofun ?_
    intro ha
    exact hs.alone (by rw [at_]; exact ha)
  | queue at_ origin =>
    right
    have hi := hs.dropCreated (by rw [at_]; rfl) (by rw [at_]; rfl) (by simp [at_])
    exact ⟨hi.table, hi.created, hi.nested, hi.other, hi.alone⟩
  | @wait h at_ origin =>
    right
    refine hs.goto (by rw [at_]; rfl) (by simp [at_, Ctl.created]) (by simp [at_]) nofun ?_
    intro _
    apply hs.alone
    rw [at_]
    show h.origin ≠ .first
    rw [origin]
    exact nofun
  | waitCyclic => exact Or.inl trivial
  | @waited h at_ =>
    right
    have hf : s.locksHeld h.fid ≠ some true := by
      rw [Ne, hs.table.held_iff]
      exact hs.created h.fid (by rw [at_]; rfl)
    refine hs.new hf (by rw [at_]; rfl) rfl (by simp [at_]) nofun ?_
    intro _
    exact hs.alone (by rw [at_]; trivial)
  | retry at_ =>
    right
    refine hs.goto (by rw [at_]; rfl) (by simp [at_, Ctl.created]) (by simp [at_]) nofun ?_
    intro _
    exact hs.alone (by rw [at_]; trivial)
  | failedElsewhere at_ origin =>
    exact Or.inr (hs.settleWith (by rw [at_]; rfl) (by simp [at_]) _ 2)
  | clean at_ => exact Or.inr (hs.settle (by rw [at_]; rfl) (by simp [at_]) _)
  | unlocked at_ oob files other =>
    exact Or.inr (hs.start (by rw [at_]; rfl) (by simp [at_]) nofun)
  | overridden at_ => exact Or.inr (hs.settle (by rw [at_]; rfl) (by simp [at_]) _)
  | static at_ => exact Or.inr (hs.settle (by rw [at_]; rfl) (by simp [at_]) _)
  | defer at_ =>
    right
    have hi := hs.settle (by rw [at_]; rfl) (by simp [at_]) .clean
    exact ⟨hi.table, hi.created, hi.nested, hi.other, hi.alone⟩
  | noRule at_ => exact Or.inr (hs.settleWith (by rw [at_]; rfl) (by simp [at_]) _ 1)
  | rule at_ =>
    right
    refine hs.goto (by rw [at_]; rfl) nofun (by simp [at_]) nofun ?_
    intro ha
    exact hs.alone (by rw [at_]; exact ha)
  | missingSource at_ => exact Or.inr (hs.settleWith (by rw [at_]; rfl) (by simp [at_]) _ 1)
  | nested at_ ne =>
    right
    refine hs.goto (by rw [at_]; rfl) nofun (by simp [at_]) ?_ ?_
    · rintro _ _ ⟨⟩
      exact ne
    · intro ha
      exact hs.alone (by rw [at_]; exact ha)
  | nestedCreated => exact Or.inl trivial
  | nestedNew at_ new =>
    right
    obtain ⟨hf, rfl⟩ := newLock_eq_some.mp new
    refine hs.new hf (by rw [at_]; rfl) rfl (by simp [at_]) nofun ?_
    intro ha
    exact hs.alone (by rw [at_]; exact ha)
  | @nestedCyclic h d at_ =>
    right
    have hnot := hs.created d (by rw [at_]; rfl)
    have ht := hs.table.update_of_not_mem hnot (b := none) nofun
    rw [Sched.owners, at_] at ht
    refine Inv.nestedDone ht (hs.not_nested (by simp [at_])) ?_ 208
    intro ha
    exact hs.alone (by rw [at_]; exact ha)
  | nestedFree at_ =>
    right
    refine hs.own (by rw [at_]; rfl) (by rw [at_]; rfl) rfl (by simp [at_]) nofun ?_
    intro ha
    exact hs.alone (by rw [at_]; exact ha)
  | nestedBlock at_ =>
    right
    refine hs.goto (by rw [at_]; rfl) (by simp [at_, Ctl.created]) (by simp [at_]) nofun ?_
    intro ha
    exact hs.alone (by rw [at_]; exact ha)
  | nestedUnblock at_ =>
    right
    refine hs.own (by rw [at_]; rfl) (by rw [at_]; rfl) rfl (by simp [at_]) nofun ?_
    intro ha
    exact hs.alone (by rw [at_]; exact ha)
  | nestedSkip at_ rv =>
    right
    have ht := hs.table
    rw [Sched.owners, at_] at ht
    refine Inv.nestedDone ht.release (hs.not_nested (by simp [at_])) ?_ rv
    intro ha
    exact hs.alone (by rw [at_]; exact ha)
  | nestedStart at_ reason => exact Or.inr (hs.startNested at_ reason)
  | nestedDone at_ idle rv =>
    right
    have ht := hs.table
    rw [Sched.owners, at_] at ht
    exact Inv.nestedDone ht.release (by simp [idle]) (fun _ => idle) rv
  | cacheHit at_ => exact Or.inr (hs.settle (by rw [at_]; rfl) (by simp [at_]) _)
  | miss at_ =>
    right
    refine hs.goto (by rw [at_]; rfl) nofun (by simp [at_]) nofun ?_
    intro ha
    exact hs.alone (by rw [at_]; exact ha)
  | start at_ => exact Or.inr (hs.start (by rw [at_]; rfl) (by simp [at_]) nofun)
  | finish => exact Or.inl trivial
  | waitAll at_ more =>
    right
    exact hs.goto (by rw [at_]; rfl) nofun (by simp [at_]) nofun (by simp [Ctl.Alone])
  | allDone at_ idle =>
    right
    exact hs.goto (by rw [at_]; rfl) nofun (by simp [at_]) nofun (fun _ => idle)
  | stop => exact Or.inl trivial
  | nothing at_ go drained =>
    right
    exact hs.goto (by rw [at_]; rfl) nofun (by simp [at_]) nofun (by simp [Ctl.Alone])
  | @pickPoolBlocked at_ go none lt rest head =>
    right
    have hidle := hs.alone (by rw [at_]; trivial)
    have hi := hs.goto (k := .newLock ⟨lt.tArg, lt.fid, .poolBlocked⟩) (by rw [at_]; rfl) nofun
      (by simp [at_]) nofun (fun _ => hidle)
    exact ⟨hi.table, hi.created, hi.nested, hi.other, hi.alone⟩
  | @pickLocked at_ go lt rest head =>
    right
    have hidle := hs.alone (by rw [at_]; trivial)
    have hi := hs.goto (k := .newLock ⟨lt.tArg, lt.fid, .locked⟩) (by rw [at_]; rfl) nofun
      (by simp [at_]) nofun (fun _ => hidle)
    exact ⟨hi.table, hi.created, hi.nested, hi.other, hi.alone⟩
  | insane => exact Or.inl trivial
  | fail => exact Or.inl trivial

theorem begin_inv (ts : List String) : (begin ts).sched.ctl.Returned ∨ Inv (begin ts).sched := by
  by_cases hn : ts.any (·.toList.contains '\n') = true
  · left
    rw [begin, if_pos hn]
    trivial
  · right
    apply Inv.of_loop (o := .first)
    · rw [begin, if_neg hn]
      rfl
    · exact ⟨List.nodup_nil, by simp [begin]⟩
    · simp [begin]

/-- Nothing follows the return. -/
theorem Step.not_returned (hstep : Step c s s') : ¬s.ctl.Returned := by
  cases hstep with
  | reap at_ mem rv =>
    intro hr
    cases hk : s.ctl <;> simp_all [Ctl.Reaps, Ctl.Returned]
  | insane at_ go => rcases at_ with ⟨t, at_⟩ | at_ <;> simp [at_, Ctl.Returned]
  | fail at_ => exact at_
  | _ => simp_all [Ctl.Returned]

variable {r r' : Run}

theorem RunStep.inv (hstep : RunStep c r r') (hr : r.sched.ctl.Returned ∨ Inv r.sched) :
    r'.sched.ctl.Returned ∨ Inv r'.sched := by
  cases hstep with
  | empty => exact Or.inl trivial
  | skip => exact hr
  | visit at_ head ne new =>
    rw [at_] at hr
    right
    exact (hr.resolve_left id).goto (by rw [at_]; rfl) nofun (by simp [at_]) nofun (by simp [Ctl.Alone])
  | stop at_ stops =>
    rw [at_] at hr
    right
    exact (hr.resolve_left id).goto (by rw [at_]; rfl) nofun (by simp [at_]) nofun (by simp [Ctl.Alone])
  | through at_ none =>
    rw [at_] at hr
    right
    exact (hr.resolve_left id).goto (by rw [at_]; rfl) nofun (by simp [at_]) nofun (by simp [Ctl.Alone])
  | sched step => exact step.inv (hr.resolve_left step.not_returned)

theorem run_inv {ts : List String} (h : ReflTransGen (RunStep c) (begin ts) r) :
    r.sched.ctl.Returned ∨ Inv r.sched := by
  induction h with
  | refl => exact begin_inv ts
  | tail _ hstep ih => exact hstep.inv ih

/-- The process is inside `waitlock`. -/
def Sched.Blocked (s : Sched) : Prop :=
  (∃ h, s.ctl = .waitlock h) ∨ ∃ h d, s.ctl = .nestedBlocked h d

/-- It owns the lock of a job that it has started and not reaped. -/
def Sched.HoldsJobLock (s : Sched) : Prop := ∃ j ∈ s.jobs, s.locksHeld j.fid = some true

/-- A nested `build_one` that finds the lock taken has no job beside it. -/
def BlocksIdle (r r' : Run) : Prop :=
  ∀ h d, r.sched.ctl = .nestedLock h d → r'.sched.ctl = .nestedBlocked h d → r.sched.jobs = []

theorem Inv.holdsJobLock (hs : Inv s) (hb : s.Blocked) : s.HoldsJobLock ↔ s.jobs ≠ [] := by
  constructor
  · rintro ⟨j, hj, -⟩ he
    rw [he] at hj
    cases hj
  · intro hne
    obtain ⟨j, hj⟩ := List.exists_mem_of_ne_nil _ hne
    have hk : j.kind ≠ .nested := by
      apply hs.not_nested _ j hj
      rcases hb with ⟨h, hb⟩ | ⟨h, d, hb⟩
      · simp [hb]
      · simp [hb]
    have hown := mem_jobOwned.mpr ⟨j, hj, hk, rfl⟩
    exact ⟨j, hj, (hs.table.held_iff _).mpr (List.mem_append_right _ hown)⟩

/-- The only way into the wait for a dependency's lock. -/
theorem Step.nestedBlocked (hstep : Step c s s') (hb : s'.ctl = .nestedBlocked h d) :
    s.ctl = .nestedLock h d ∧ s'.jobs = s.jobs := by
  cases hstep with
  | nestedBlock at_ =>
    rw [Sched.goto_ctl, Ctl.nestedBlocked.injEq] at hb
    obtain ⟨rfl, rfl⟩ := hb
    exact ⟨at_, rfl⟩
  | reap at_ mem rv =>
    rw [Sched.reap_ctl] at hb
    rw [hb] at at_
    exact at_.elim
  | nestedCyclic => simp [Sched.nestedDone_ctl, Origin.loop_ne_nestedBlocked] at hb
  | nestedSkip at_ rv =>
    rw [Sched.nestedDone_ctl] at hb
    split_ifs at hb
    exact absurd hb (Origin.loop_ne_nestedBlocked _)
  | nestedDone at_ idle rv =>
    rw [Sched.nestedDone_ctl] at hb
    split_ifs at hb
    exact absurd hb (Origin.loop_ne_nestedBlocked _)
  | _ => simp [Origin.loop_ne_nestedBlocked] at hb

theorem RunStep.nestedBlocked (hstep : RunStep c r r')
    (hb : r'.sched.ctl = .nestedBlocked h d) :
    r.sched.ctl = .nestedLock h d ∧ r'.sched.jobs = r.sched.jobs := by
  cases hstep with
  | sched step => exact step.nestedBlocked hb
  | skip at_ =>
    rw [at_] at hb
    cases hb
  | _ => cases hb

theorem Inv.of_blocked {ts : List String} (hrun : ReflTransGen (RunStep c) (begin ts) r)
    (hb : r.sched.Blocked) : Inv r.sched := by
  apply (run_inv hrun).resolve_left
  intro hret
  rcases hb with ⟨h, hb⟩ | ⟨h, d, hb⟩
  · rw [hb] at hret
    exact hret
  · rw [hb] at hret
    exact hret

theorem jobs_eq_nil_of_nestedBlocked {ts : List String}
    (hrun : ReflTransGen (fun r r' => RunStep c r r' ∧ BlocksIdle r r') (begin ts) r)
    (hb : r.sched.ctl = .nestedBlocked h d) : r.sched.jobs = [] := by
  induction hrun with
  | refl =>
    rw [begin] at hb
    split_ifs at hb
  | tail _ hlast _ =>
    obtain ⟨hat, hjobs⟩ := hlast.1.nestedBlocked hb
    rw [hjobs]
    exact hlast.2 h d hat hb

/-- While a process waits for a lock it owns no lock of a job of its own, provided that a nested
`build_one` waits only when no job runs; and where it waits beside a job, it owns that lock. -/
theorem blocked_holds_no_job_lock (c : Config) (ts : List String) :
    (∀ r, ReflTransGen (fun r r' => RunStep c r r' ∧ BlocksIdle r r') (begin ts) r →
      r.sched.Blocked → ¬r.sched.HoldsJobLock) ∧
    (∀ r r', ReflTransGen (RunStep c) (begin ts) r → RunStep c r r' → ¬BlocksIdle r r' →
      r'.sched.Blocked ∧ r'.sched.HoldsJobLock) := by
  constructor
  · intro r hrun hb
    have hrun' : ReflTransGen (RunStep c) (begin ts) r :=
      ReflTransGen.mono (fun _ _ h => h.1) _ _ hrun
    have hinv := Inv.of_blocked hrun' hb
    rw [hinv.holdsJobLock hb, not_not]
    rcases hb with ⟨h, hb⟩ | ⟨h, d, hb⟩
    · exact hinv.alone (by rw [hb]; trivial)
    · exact jobs_eq_nil_of_nestedBlocked hrun hb
  · intro r r' hrun hstep hnot
    rw [BlocksIdle] at hnot
    push Not at hnot
    obtain ⟨h, d, -, hb', hjobs⟩ := hnot
    have hb : r'.sched.Blocked := Or.inr ⟨h, d, hb'⟩
    refine ⟨hb, ?_⟩
    rw [(Inv.of_blocked (hrun.tail hstep) hb).holdsJobLock hb, (hstep.nestedBlocked hb').2]
    exact hjobs

/-- The state in which the first target is looked at, once its lock has been taken. -/
def Run.ready (c : Config) (r : Run) (t : String) (rest : List String) : Run :=
  ⟨rest, t :: r.seen, ((r.sched.setHeld (c.byName t) (some false)).setHeld (c.byName t)
    (some true)).goto (.owned ⟨t, c.byName t, .first⟩)⟩

theorem reach_ready (at_ : r.sched.ctl = .first) {t : String} {rest : List String}
    (head : r.todo = t :: rest) (ne : t ≠ "") (new : t ∉ r.seen) (rc : r.sched.rcFlag = 0)
    (free : r.sched.locksHeld (c.byName t) ≠ some true) :
    ReflTransGen (RunStep c) r (r.ready c t rest) := by
  have hvisit := ReflTransGen.single (RunStep.visit (c := c) at_ head ne new)
  have htake := hvisit.tail (.sched (.take rfl fun hs => hs.1 rc))
  have hnew := htake.tail (.sched (.newLock rfl (newLock_eq_some.mpr ⟨free, rfl⟩)))
  exact hnew.tail (.sched (.own rfl))

/-- Files `b` and `a` have the ids 1 and 2. -/
def twoFiles : Config := ⟨fun t => if t = "b" then 1 else 2, false, false⟩

/-- A target that another process has locked is waited for in the second pass. -/
theorem blocked_holds_no_job_lock_queued : ∃ r : Run,
    ReflTransGen (fun r r' => RunStep twoFiles r r' ∧ BlocksIdle r r') (begin ["a"]) r ∧
      r.sched.Blocked ∧ ¬r.sched.HoldsJobLock := by
  have h₁ := ReflTransGen.single (r := fun r r' => RunStep twoFiles r r' ∧ BlocksIdle r r')
    ⟨RunStep.visit (r := begin ["a"]) rfl rfl (by decide) (by decide), nofun⟩
  have h₂ := h₁.tail ⟨.sched (.take rfl fun hs => hs.1 rfl), nofun⟩
  have h₃ := h₂.tail ⟨.sched (.newLock rfl rfl), nofun⟩
  have h₄ := h₃.tail ⟨.sched (.queue rfl nofun), nofun⟩
  have h₅ := h₄.tail ⟨.through rfl rfl, nofun⟩
  have h₆ := h₅.tail ⟨.sched (.waitAll rfl fun hd => nomatch hd.1.1), nofun⟩
  have h₇ := h₆.tail ⟨.sched (.allDone rfl rfl), nofun⟩
  have h₈ := h₇.tail ⟨.sched (.pickLocked rfl (fun hs => hs.1 rfl) rfl), nofun⟩
  have h₉ := h₈.tail ⟨.sched (.newLock rfl rfl), nofun⟩
  have h₁₀ := h₉.tail ⟨.sched (.wait rfl rfl), nofun⟩
  refine ⟨_, h₁₀, Or.inl ⟨_, rfl⟩, ?_⟩
  exact (blocked_holds_no_job_lock twoFiles ["a"]).1 _ h₁₀ (Or.inl ⟨_, rfl⟩)

/-- The recipe of `b` runs when the missing dependency 3 of `a` is found to be locked. -/
theorem not_blocked_holds_no_job_lock : ¬∀ (c : Config) (ts : List String) (r : Run),
    ReflTransGen (RunStep c) (begin ts) r → r.sched.Blocked → ¬r.sched.HoldsJobLock := by
  intro hall
  have hb := reach_ready (c := twoFiles) (r := begin ["b", "a"]) rfl rfl (by decide) (by decide)
    rfl nofun
  have hrun := ((hb.tail (.sched (.rule rfl))).tail (.sched (.miss rfl))).tail
    (.sched (.start rfl))
  have ha := hrun.trans (reach_ready rfl rfl (by decide) (by decide) rfl (by decide))
  have hdeps := (ha.tail (.sched (.rule rfl))).tail (.sched (.nested rfl (d := 3) (by decide)))
  have hlock := hdeps.tail (.sched (.nestedNew rfl rfl))
  have hblock := hlock.tail (.sched (.nestedBlock rfl))
  apply hall twoFiles ["b", "a"] _ hblock
  · exact Or.inr ⟨_, _, rfl⟩
  · exact ⟨⟨"b", 1, .recipe⟩, by decide, by decide⟩

end Redo.Scheduler
