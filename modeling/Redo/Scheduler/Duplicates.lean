import Redo.Scheduler.Places

/-! # Two spellings of one file

The first pass skips what it has seen under the same spelling, but locks go by file. So the
scheduler does not meet its own locks as long as the arguments spell every file in one way and no
nested build is for a target whose job runs.
-/
namespace Redo.Scheduler
open State Relation

/-- The arguments without those that name a file for the second time. -/
def distinctFiles (byName : String → FileId) : List FileId → List String → List String
  | _, [] => []
  | seen, t :: rest =>
    if byName t ∈ seen then distinctFiles byName seen rest
    else t :: distinctFiles byName (byName t :: seen) rest

/-- The next call is `Lock::new` of a file whose lock is in a job that runs. -/
def Sched.Collides (s : Sched) : Prop := ∃ f, s.ctl.creates = some f ∧ ∃ j ∈ s.jobs, j.fid = f

/-- A missing dependency is built only while no job runs for it. -/
def BuildsApart (r r' : Run) : Prop :=
  ∀ h d, r'.sched.ctl = .nestedNew h d → ∀ j ∈ r.sched.jobs, j.fid ≠ d

def ApartStep (c : Config) (r r' : Run) : Prop := RunStep c r r' ∧ BuildsApart r r'

def Ctl.hand : Ctl → Option Hand
  | .newLock h | .trylock h | .waitlock h | .retoken h | .owned h | .deps h | .nestedNew h _
  | .nestedLock h _ | .nestedBlocked h _ | .nestedOwned h _ | .nestedWait h _
  | .startToken h => some h
  | _ => none

/-- Everything that carries a spelling carries the file that it names. -/
structure Named (c : Config) (s : Sched) : Prop where
  hand : ∀ h, s.ctl.hand = some h → h.fid = c.byName h.t
  jobs : ∀ j ∈ s.jobs, j.kind ≠ .nested → j.fid = c.byName j.reason
  locked : ∀ lt ∈ s.locked, lt.fid = c.byName lt.tArg
  poolBlocked : ∀ lt ∈ s.poolBlocked, lt.fid = c.byName lt.tArg

variable {c : Config} {s s' : Sched} {h : Hand} {d : FileId} {k : Ctl} {ts : List String}
  {r r' : Run}

@[simp] theorem Origin.hand_loop (o : Origin) : o.loop.hand = none := by cases o <;> rfl

theorem Named.of_hand (hn : Named c s) (hk : s'.ctl.hand = none ∨ s'.ctl.hand = s.ctl.hand)
    (hjobs : s'.jobs = s.jobs) (hlocked : s'.locked = s.locked)
    (hpool : s'.poolBlocked = s.poolBlocked) : Named c s' where
  hand h hh := by
    rcases hk with hk | hk
    · rw [hk] at hh
      cases hh
    · rw [hk] at hh
      exact hn.hand h hh
  jobs := by
    rw [hjobs]
    exact hn.jobs
  locked := by
    rw [hlocked]
    exact hn.locked
  poolBlocked := by
    rw [hpool]
    exact hn.poolBlocked

theorem Named.settle (hn : Named c s) (o : Outcome) : Named c (s.settle h o) :=
  hn.of_hand (Or.inl (Origin.hand_loop _)) rfl rfl rfl

theorem Named.settleWith (hn : Named c s) (o : Outcome) (rc : ℕ) :
    Named c (s.settleWith h o rc) :=
  hn.of_hand (Or.inl (Origin.hand_loop _)) rfl rfl rfl

theorem Named.start (hn : Named c s) (hh : s.ctl.hand = some h) (kind : Kind) :
    Named c (s.start h kind) where
  hand h' hh' := by
    rw [Sched.start_ctl, Origin.hand_loop] at hh'
    cases hh'
  jobs j hj hk := by
    rcases List.mem_cons.mp hj with rfl | hj
    · exact hn.hand h hh
    · exact hn.jobs j hj hk
  locked := hn.locked
  poolBlocked := hn.poolBlocked

theorem Named.nestedDone (hn : Named c s) (hh : s.ctl.hand = some h) (rv : ℤ) :
    Named c (s.nestedDone h d rv) := by
  rw [Sched.nestedDone]
  split_ifs
  · exact hn.of_hand (Or.inr hh.symm) rfl rfl rfl
  · exact Named.of_hand hn (Or.inl (Origin.hand_loop _)) rfl rfl rfl

theorem Named.reap (hn : Named c s) (j : Job) (rv : ℤ) : Named c (s.reap j rv) where
  hand h hh := by
    rw [Sched.reap_ctl] at hh
    exact hn.hand h hh
  jobs i hi hk := by
    have hsub : (s.reap j rv).jobs = s.jobs.erase j := by
      rw [Sched.reap]
      split_ifs <;> rfl
    rw [hsub] at hi
    exact hn.jobs i (List.mem_of_mem_erase hi) hk
  locked := by
    rw [Sched.reap]
    split_ifs <;> exact hn.locked
  poolBlocked := by
    rw [Sched.reap]
    split_ifs <;> exact hn.poolBlocked

theorem Step.named (hstep : Step c s s') (hn : Named c s) : Named c s' := by
  cases hstep with
  | take at_ go =>
    refine ⟨?_, hn.jobs, hn.locked, hn.poolBlocked⟩
    rintro _ ⟨⟩
    rfl
  | reap at_ mem rv => exact hn.reap _ rv
  | newLock at_ new =>
    obtain ⟨-, rfl⟩ := newLock_eq_some.mp new
    exact hn.of_hand (Or.inr (by rw [at_]; rfl)) rfl rfl rfl
  | own at_ => exact hn.of_hand (Or.inr (by rw [at_]; rfl)) rfl rfl rfl
  | @queue h at_ origin =>
    refine ⟨?_, hn.jobs, ?_, hn.poolBlocked⟩
    · intro h' hh'
      rw [Sched.pushLocked_ctl, Origin.hand_loop] at hh'
      cases hh'
    · intro lt hlt
      rcases List.mem_append.mp hlt with hlt | hlt
      · exact hn.locked lt hlt
      · rw [List.mem_singleton.mp hlt]
        exact hn.hand h (by rw [at_]; rfl)
  | wait at_ origin => exact hn.of_hand (Or.inr (by rw [at_]; rfl)) rfl rfl rfl
  | waited at_ => exact hn.of_hand (Or.inr (by rw [at_]; rfl)) rfl rfl rfl
  | retry at_ => exact hn.of_hand (Or.inr (by rw [at_]; rfl)) rfl rfl rfl
  | failedElsewhere => exact hn.settleWith _ 2
  | clean => exact hn.settle _
  | unlocked at_ oob files other => exact hn.start (by rw [at_]; rfl) _
  | overridden => exact hn.settle _
  | static => exact hn.settle _
  | @defer h at_ =>
    refine ⟨?_, hn.jobs, hn.locked, ?_⟩
    · intro h' hh'
      rw [Sched.pushPoolBlocked_ctl, Origin.hand_loop] at hh'
      cases hh'
    · intro lt hlt
      rcases List.mem_append.mp hlt with hlt | hlt
      · exact hn.poolBlocked lt hlt
      · rw [List.mem_singleton.mp hlt]
        exact hn.hand h (by rw [at_]; rfl)
  | noRule => exact hn.settleWith _ 1
  | rule at_ => exact hn.of_hand (Or.inr (by rw [at_]; rfl)) rfl rfl rfl
  | missingSource => exact hn.settleWith _ 1
  | nested at_ ne => exact hn.of_hand (Or.inr (by rw [at_]; rfl)) rfl rfl rfl
  | nestedNew at_ new =>
    obtain ⟨-, rfl⟩ := newLock_eq_some.mp new
    exact hn.of_hand (Or.inr (by rw [at_]; rfl)) rfl rfl rfl
  | nestedCyclic at_ => exact hn.nestedDone (by rw [at_]; rfl) 208
  | nestedFree at_ => exact hn.of_hand (Or.inr (by rw [at_]; rfl)) rfl rfl rfl
  | nestedBlock at_ => exact hn.of_hand (Or.inr (by rw [at_]; rfl)) rfl rfl rfl
  | nestedUnblock at_ => exact hn.of_hand (Or.inr (by rw [at_]; rfl)) rfl rfl rfl
  | nestedSkip at_ rv => exact hn.nestedDone (by rw [at_]; rfl) rv
  | nestedStart at_ reason =>
    refine ⟨?_, ?_, hn.locked, hn.poolBlocked⟩
    · rintro _ ⟨⟩
      exact hn.hand _ (by rw [at_]; rfl)
    · intro j hj hk
      rcases List.mem_cons.mp hj with rfl | hj
      · exact absurd rfl hk
      · exact hn.jobs j hj hk
  | nestedDone at_ idle rv => exact hn.nestedDone (by rw [at_]; rfl) rv
  | cacheHit => exact hn.settle _
  | miss at_ => exact hn.of_hand (Or.inr (by rw [at_]; rfl)) rfl rfl rfl
  | start at_ => exact hn.start (by rw [at_]; rfl) _
  | pickPoolBlocked at_ go none head =>
    have hpool := hn.poolBlocked
    rw [head, List.forall_mem_cons] at hpool
    refine ⟨?_, hn.jobs, hn.locked, hpool.2⟩
    rintro _ ⟨⟩
    exact hpool.1
  | pickLocked at_ go head =>
    have hlocked := hn.locked
    rw [head, List.forall_mem_cons] at hlocked
    refine ⟨?_, hn.jobs, hlocked.2, hn.poolBlocked⟩
    rintro _ ⟨⟩
    exact hlocked.1
  | _ => exact hn.of_hand (Or.inl rfl) rfl rfl rfl

theorem run_named (hrun : ReflTransGen (RunStep c) (begin ts) r) : Named c r.sched := by
  induction hrun with
  | refl =>
    refine ⟨?_, nofun, nofun, nofun⟩
    intro h hh
    rw [begin] at hh
    split_ifs at hh
    · cases hh
    · cases hh
  | tail _ hstep ih =>
    cases hstep with
    | skip => exact ih
    | sched step => exact step.named ih
    | _ => exact ih.of_hand (Or.inl rfl) rfl rfl rfl

theorem Accounted.mem_of_places (ha : Accounted ts r) {t : String} (ht : t ∈ r.sched.places) :
    t ∈ ts := by
  have hp := ha.places t
  have hpos := List.count_pos_iff.mpr ht
  have hmem : t ∈ firsts [] ts := by
    apply List.count_pos_iff.mp
    omega
  exact (mem_firsts.mp hmem).1

theorem Accounted.count_places_le (ha : Accounted ts r) (t : String) :
    r.sched.places.count t ≤ 1 := by
  have hp := ha.places t
  have hle := List.nodup_iff_count_le_one.mp (firsts_nodup [] ts) t
  omega

/-- A target in hand has no job if its file has just one spelling. -/
theorem no_job_of_newLock (inj : ∀ t ∈ ts, ∀ u ∈ ts, c.byName t = c.byName u → t = u)
    (ha : Accounted ts r) (hn : Named c r.sched) (hk : r.sched.ctl = .newLock h) {j : Job}
    (hj : j ∈ r.sched.jobs) : j.fid ≠ h.fid := by
  intro he
  have hnested := ha.inv.not_nested (by simp [hk]) j hj
  have hjob : j.reason ∈ reasons r.sched.jobs :=
    List.mem_map.mpr ⟨j, List.mem_filter.mpr ⟨hj, by simpa using hnested⟩, rfl⟩
  have hhand : r.sched.ctl.inHand = some (h.t, h.origin) := by rw [hk]; rfl
  have hjobPlace : j.reason ∈ r.sched.places := by simp [Sched.places, hjob]
  have hhandPlace : h.t ∈ r.sched.places := by simp [Sched.places, hhand]
  rw [hn.jobs j hj hnested, hn.hand h (by rw [hk]; rfl)] at he
  have heq := inj _ (ha.mem_of_places hjobPlace) _ (ha.mem_of_places hhandPlace) he
  rw [heq] at hjob
  have hpos := List.count_pos_iff.mpr hjob
  have hle := ha.count_places_le h.t
  simp only [Sched.places, hhand, List.count_append, Option.toList_some, List.map_cons,
    List.map_nil, List.count_cons_self, List.count_nil] at hle
  omega

theorem Step.jobs_of_nestedNew (hstep : Step c s s') (hk : s'.ctl = .nestedNew h d) :
    s'.jobs = s.jobs := by
  cases hstep with
  | nested at_ ne => rfl
  | reap at_ mem rv =>
    rw [Sched.reap_ctl] at hk
    rw [hk] at at_
    exact at_.elim
  | nestedCyclic => exact absurd hk (nestedDone_ctl_ne nofun (Origin.loop_ne_nestedNew _))
  | nestedSkip => exact absurd hk (nestedDone_ctl_ne nofun (Origin.loop_ne_nestedNew _))
  | nestedDone => exact absurd hk (nestedDone_ctl_ne nofun (Origin.loop_ne_nestedNew _))
  | _ => simp [Origin.loop_ne_nestedNew] at hk

/-- The error comes from a lock that the table shows as owned. -/
theorem Step.held_of_lockCreated (hstep : Step c s s')
    (hk : s'.ctl = .returned (.error .lockCreated)) :
    ∃ f, s.ctl.creates = some f ∧ s.locksHeld f = some true := by
  cases hstep with
  | lockCreated at_ held => exact ⟨_, by rw [at_]; rfl, newLock_eq_none.mp held⟩
  | nestedCreated at_ held => exact ⟨_, by rw [at_]; rfl, newLock_eq_none.mp held⟩
  | reap at_ mem rv =>
    rw [Sched.reap_ctl] at hk
    rw [hk] at at_
    exact at_.elim
  | nestedCyclic => exact absurd hk (nestedDone_ctl_ne nofun (Origin.loop_ne_returned _))
  | nestedSkip => exact absurd hk (nestedDone_ctl_ne nofun (Origin.loop_ne_returned _))
  | nestedDone => exact absurd hk (nestedDone_ctl_ne nofun (Origin.loop_ne_returned _))
  | @cyclic h at_ =>
    rw [Sched.goto_ctl, Ctl.returned.injEq] at hk
    split_ifs at hk
    cases hk
  | _ => simp [Origin.loop_ne_returned] at hk

/-- What the table shows as owned when a lock is created is in a job. -/
theorem Inv.collides (hs : Inv s) {f : FileId} (hf : s.ctl.creates = some f)
    (held : s.locksHeld f = some true) : s.Collides := by
  have hmem := (hs.table.held_iff f).mp held
  refine ⟨f, hf, ?_⟩
  have hjob : f ∈ jobOwned s.jobs := by
    rw [Sched.owners] at hmem
    apply (List.mem_append.mp hmem).resolve_left
    cases hk : s.ctl <;> rw [hk] at hf <;> try cases hf
    · exact List.not_mem_nil
    · have hne := hs.other _ _ hk
      simpa [Ctl.owns] using hne
  obtain ⟨j, hj, -, hjf⟩ := mem_jobOwned.mp hjob
  exact ⟨j, hj, hjf⟩

theorem ApartStep.run (hrun : ReflTransGen (ApartStep c) (begin ts) r) :
    ReflTransGen (RunStep c) (begin ts) r :=
  ReflTransGen.mono (fun _ _ h => h.1) _ _ hrun

theorem not_nestedNew_job (hrun : ReflTransGen (ApartStep c) (begin ts) r)
    (hk : r.sched.ctl = .nestedNew h d) {j : Job} (hj : j ∈ r.sched.jobs) : j.fid ≠ d := by
  cases hrun with
  | refl =>
    rw [begin] at hk
    split_ifs at hk
  | tail _ hlast =>
    obtain ⟨hstep, hapart⟩ := hlast
    cases hstep with
    | sched step =>
      have hjobs := step.jobs_of_nestedNew hk
      rw [hjobs] at hj
      exact hapart h d hk j hj
    | skip at_ =>
      rw [at_] at hk
      cases hk
    | _ => cases hk

theorem not_collides (inj : ∀ t ∈ ts, ∀ u ∈ ts, c.byName t = c.byName u → t = u)
    (hrun : ReflTransGen (ApartStep c) (begin ts) r) : ¬r.sched.Collides := by
  rintro ⟨f, hf, j, hj, hjf⟩
  have hret : ¬r.sched.ctl.Returned := by
    intro hr
    cases hk : r.sched.ctl <;> rw [hk] at hr hf <;> first | exact hr | cases hf
  have ha := (run_accounted (ApartStep.run hrun)).resolve_left hret
  cases hk : r.sched.ctl <;> rw [hk] at hf <;> try cases hf
  · exact no_job_of_newLock inj ha (run_named (ApartStep.run hrun)) hk hj hjf
  · exact not_nestedNew_job hrun hk hj hjf

theorem not_lockCreated (inj : ∀ t ∈ ts, ∀ u ∈ ts, c.byName t = c.byName u → t = u)
    (hrun : ReflTransGen (ApartStep c) (begin ts) r) :
    r.sched.ctl ≠ .returned (.error .lockCreated) := by
  intro hk
  cases hrun with
  | refl =>
    rw [begin] at hk
    split_ifs at hk
    cases hk
  | @tail r₁ _ hrun hlast =>
    cases hlast.1 with
    | sched step =>
      obtain ⟨f, hf, held⟩ := step.held_of_lockCreated hk
      have hinv := (run_inv (ApartStep.run hrun)).resolve_left step.not_returned
      exact not_collides inj hrun (hinv.collides hf held)
    | skip at_ =>
      rw [at_] at hk
      cases hk
    | _ => simp at hk

/-- Where the files are spelled in one way, they are told apart by their spelling. -/
theorem distinctFiles_eq_firsts {byName : String → FileId} {todo seen : List String}
    (inj : ∀ t ∈ seen ++ todo, ∀ u ∈ seen ++ todo, byName t = byName u → t = u) :
    distinctFiles byName (seen.map byName) todo = firsts seen todo := by
  induction todo generalizing seen with
  | nil => rfl
  | cons t rest ih =>
    have ht : t ∈ seen ++ t :: rest := by simp
    have hmem : byName t ∈ seen.map byName ↔ t ∈ seen := by
      constructor
      · intro h
        obtain ⟨u, hu, he⟩ := List.mem_map.mp h
        rw [← inj u (List.mem_append_left _ hu) t ht he]
        exact hu
      · exact List.mem_map_of_mem
    rw [distinctFiles, firsts]
    by_cases hts : t ∈ seen
    · rw [if_pos hts, if_pos (hmem.mpr hts)]
      apply ih
      intro u hu v hv
      have hsub : ∀ w, w ∈ seen ++ rest → w ∈ seen ++ t :: rest := by
        intro w hw
        rcases List.mem_append.mp hw with hw | hw
        · exact List.mem_append_left _ hw
        · exact List.mem_append_right _ (List.mem_cons_of_mem t hw)
      exact inj u (hsub u hu) v (hsub v hv)
    · rw [if_neg hts, if_neg (mt hmem.mp hts)]
      congr 1
      show distinctFiles byName ((t :: seen).map byName) rest = firsts (t :: seen) rest
      apply ih
      intro u hu v hv
      have hsub : ∀ w, w ∈ (t :: seen) ++ rest → w ∈ seen ++ t :: rest := by
        intro w hw
        simp only [List.cons_append, List.mem_cons, List.mem_append] at hw ⊢
        tauto
      exact inj u (hsub u hu) v (hsub v hv)

/-- The same state, with a list that has no duplicates left. -/
structure Deduped (r r' : Run) : Prop where
  sched : r'.sched = r.sched
  seen : r'.seen = r.seen
  todo : r'.todo = firsts r.seen r.todo

/-- The empty name is never among what has been seen. -/
theorem empty_not_mem_seen (hrun : ReflTransGen (RunStep c) (begin ts) r) : "" ∉ r.seen := by
  induction hrun with
  | refl => exact List.not_mem_nil
  | tail _ hstep ih =>
    cases hstep with
    | visit at_ head ne new => simpa [ne.symm] using ih
    | stop at_ stops => exact fun h => ih (List.mem_of_mem_erase h)
    | _ => exact ih

/-- Reaching the next name that has not been seen. -/
theorem skip_seen (at_ : r.sched.ctl = .first) (hempty : "" ∉ r.seen) :
    ∃ todo, ReflTransGen (ApartStep c) r { r with todo := todo } ∧
      firsts r.seen todo = firsts r.seen r.todo ∧ ∀ t rest, todo = t :: rest → t ∉ r.seen := by
  obtain ⟨todo, seen, s⟩ := r
  induction todo with
  | nil => exact ⟨[], .refl, rfl, nofun⟩
  | cons t rest ih =>
    by_cases ht : t ∈ seen
    · obtain ⟨todo, hrun, hfirsts, hhead⟩ := ih at_ hempty
      have hne : t ≠ "" := by
        rintro rfl
        exact hempty ht
      have hskip : ApartStep c ⟨t :: rest, seen, s⟩ ⟨rest, seen, s⟩ := by
        refine ⟨RunStep.skip at_ rfl hne ht, ?_⟩
        intro h d hk
        rw [at_] at hk
        cases hk
      refine ⟨todo, .head hskip hrun, ?_, hhead⟩
      rw [hfirsts]
      exact (if_pos ht).symm
    · refine ⟨t :: rest, .refl, rfl, ?_⟩
      rintro _ _ ⟨⟩
      exact ht

theorem RunStep.apart (hstep : RunStep c r r') (hk : ∀ h d, r'.sched.ctl ≠ .nestedNew h d) :
    ApartStep c r r' := ⟨hstep, fun h d he => absurd he (hk h d)⟩

/-- A step over the given list is a step, or none, over the list without duplicates. -/
theorem Deduped.forward {q : Run} (hd : Deduped r q)
    (hrun : ReflTransGen (RunStep c) (begin ts) r) (hstep : ApartStep c r r') :
    ∃ q', ReflTransGen (ApartStep c) q q' ∧ Deduped r' q' := by
  obtain ⟨todo, seen, s⟩ := q
  obtain ⟨rfl, rfl, rfl⟩ := hd
  obtain ⟨hstep, hapart⟩ := hstep
  cases hstep with
  | empty at_ head =>
    have hempty := empty_not_mem_seen hrun
    have hfirsts := congrArg (firsts r.seen) head
    rw [firsts_cons _ _ hempty] at hfirsts
    have hq := RunStep.apart (c := c)
      (RunStep.empty (r := ⟨firsts r.seen r.todo, r.seen, r.sched⟩) at_ hfirsts) nofun
    exact ⟨_, .single hq, rfl, rfl, rfl⟩
  | @skip at_ t rest head ne mem =>
    refine ⟨_, .refl, rfl, rfl, ?_⟩
    rw [head]
    exact if_pos mem
  | @visit at_ t rest head ne new =>
    have hfirsts := congrArg (firsts r.seen) head
    rw [firsts_cons _ _ new] at hfirsts
    have hq := RunStep.apart (c := c)
      (RunStep.visit (r := ⟨firsts r.seen r.todo, r.seen, r.sched⟩) at_ hfirsts ne new) nofun
    exact ⟨_, .single hq, rfl, rfl, rfl⟩
  | @stop t at_ stops =>
    have hq := RunStep.apart (c := c)
      (RunStep.stop (r := ⟨firsts r.seen r.todo, r.seen, r.sched⟩) at_ stops) nofun
    have ha : Accounted ts r := by
      apply (run_accounted hrun).resolve_left
      rw [at_]
      exact id
    refine ⟨_, .single hq, rfl, rfl, ?_⟩
    rw [firsts_cons _ _ ha.seen.not_mem_erase]
    have hset : ∀ u, u ∈ r.seen ↔ u ∈ t :: r.seen.erase t :=
      fun u => (List.perm_cons_erase (ha.visiting t at_)).mem_iff
    exact congrArg (t :: ·) (firsts_congr hset r.todo)
  | through at_ none =>
    have hfirsts := congrArg (firsts r.seen) none
    have hq := RunStep.apart (c := c)
      (RunStep.through (r := ⟨firsts r.seen r.todo, r.seen, r.sched⟩) at_ hfirsts) nofun
    exact ⟨_, .single hq, rfl, rfl, rfl⟩
  | sched step => exact ⟨_, .single ⟨.sched step, hapart⟩, rfl, rfl, rfl⟩

/-- The name at the head of the list without duplicates is reached by skipping. -/
theorem skip_to_head (at_ : r.sched.ctl = .first) (hempty : "" ∉ r.seen) {t : String}
    {rest : List String} (hf : firsts r.seen r.todo = t :: rest) :
    ∃ rest', ReflTransGen (ApartStep c) r { r with todo := t :: rest' } ∧ t ∉ r.seen ∧
      rest = firsts (t :: r.seen) rest' := by
  obtain ⟨todo, hrun, hfirsts, hhead⟩ := skip_seen (c := c) at_ hempty
  rw [hf] at hfirsts
  cases todo with
  | nil => cases hfirsts
  | cons u rest' =>
    have hu := hhead u rest' rfl
    rw [firsts_cons _ _ hu, List.cons.injEq] at hfirsts
    obtain ⟨rfl, rfl⟩ := hfirsts
    exact ⟨rest', hrun, hu, rfl⟩

theorem skip_to_end (at_ : r.sched.ctl = .first) (hempty : "" ∉ r.seen)
    (hf : firsts r.seen r.todo = []) :
    ReflTransGen (ApartStep c) r { r with todo := [] } := by
  obtain ⟨todo, hrun, hfirsts, hhead⟩ := skip_seen (c := c) at_ hempty
  rw [hf] at hfirsts
  cases todo with
  | nil => exact hrun
  | cons u rest' =>
    rw [firsts_cons _ _ (hhead u rest' rfl)] at hfirsts
    cases hfirsts

/-- A step over the list without duplicates comes after skipping, over the given one. -/
theorem Deduped.backward {q q' : Run} (hd : Deduped r q)
    (hrun : ReflTransGen (RunStep c) (begin ts) r) (hstep : ApartStep c q q') :
    ∃ r', ReflTransGen (ApartStep c) r r' ∧ Deduped r' q' := by
  obtain ⟨todo, seen, s⟩ := q
  obtain ⟨rfl, rfl, rfl⟩ := hd
  have hempty := empty_not_mem_seen hrun
  obtain ⟨hstep, hapart⟩ := hstep
  cases hstep with
  | empty at_ head =>
    obtain ⟨rest', hskip, hnew, hrest⟩ := skip_to_head (c := c) (r := r) at_ hempty head
    have hr := RunStep.apart (c := c)
      (RunStep.empty (r := { r with todo := "" :: rest' }) at_ rfl) nofun
    refine ⟨_, hskip.tail hr, rfl, rfl, ?_⟩
    rw [firsts_cons _ _ hnew, ← hrest]
    exact head
  | skip at_ head ne mem =>
    have hmem := mem_firsts.mp (head ▸ List.mem_cons_self)
    exact absurd mem hmem.2
  | visit at_ head ne new =>
    obtain ⟨rest', hskip, hnew, hrest⟩ := skip_to_head (c := c) (r := r) at_ hempty head
    have hr := RunStep.apart (c := c)
      (RunStep.visit (r := { r with todo := _ :: rest' }) at_ rfl ne new) nofun
    exact ⟨_, hskip.tail hr, rfl, rfl, hrest⟩
  | @stop t at_ stops =>
    have hr := RunStep.apart (c := c) (RunStep.stop (r := r) at_ stops) nofun
    have ha : Accounted ts r := by
      apply (run_accounted hrun).resolve_left
      rw [at_]
      exact id
    refine ⟨_, .single hr, rfl, rfl, ?_⟩
    rw [firsts_cons _ _ ha.seen.not_mem_erase]
    have hset : ∀ u, u ∈ r.seen ↔ u ∈ t :: r.seen.erase t :=
      fun u => (List.perm_cons_erase (ha.visiting t at_)).mem_iff
    exact congrArg (t :: ·) (firsts_congr hset r.todo)
  | through at_ none =>
    have hskip := skip_to_end (c := c) (r := r) at_ hempty none
    have hr := RunStep.apart (c := c) (RunStep.through (r := { r with todo := [] }) at_ rfl) nofun
    refine ⟨_, hskip.tail hr, rfl, rfl, ?_⟩
    exact none
  | sched step => exact ⟨_, .single ⟨.sched step, hapart⟩, rfl, rfl, rfl⟩

theorem begin_deduped (inj : ∀ t ∈ ts, ∀ u ∈ ts, c.byName t = c.byName u → t = u) :
    Deduped (begin ts) (begin (distinctFiles c.byName [] ts)) := by
  have hd : distinctFiles c.byName [] ts = firsts [] ts :=
    @distinctFiles_eq_firsts _ _ [] inj
  have hany : (firsts [] ts).any (·.toList.contains '\n') = ts.any (·.toList.contains '\n') := by
    rw [Bool.eq_iff_iff, List.any_eq_true, List.any_eq_true]
    simp only [mem_firsts, List.not_mem_nil, not_false_eq_true, and_true]
  rw [hd]
  refine ⟨?_, rfl, rfl⟩
  rw [begin, begin, hany]

theorem Deduped.run {q : Run} (hd : Deduped (begin ts) q)
    (hrun : ReflTransGen (ApartStep c) (begin ts) r) :
    ∃ q', ReflTransGen (ApartStep c) q q' ∧ Deduped r q' := by
  induction hrun with
  | refl => exact ⟨q, .refl, hd⟩
  | tail hrun hstep ih =>
    obtain ⟨q₁, hq₁, hd₁⟩ := ih
    obtain ⟨q₂, hq₂, hd₂⟩ := hd₁.forward (ApartStep.run hrun) hstep
    exact ⟨q₂, hq₁.trans hq₂, hd₂⟩

theorem Deduped.run_back {q q' : Run} (hd : Deduped (begin ts) q)
    (hrun : ReflTransGen (ApartStep c) q q') :
    ∃ r, ReflTransGen (ApartStep c) (begin ts) r ∧ Deduped r q' := by
  induction hrun with
  | refl => exact ⟨_, .refl, hd⟩
  | tail _ hstep ih =>
    obtain ⟨r₁, hr₁, hd₁⟩ := ih
    obtain ⟨r₂, hr₂, hd₂⟩ := hd₁.backward (ApartStep.run hr₁) hstep
    exact ⟨r₂, hr₁.trans hr₂, hd₂⟩

/-- `run_ifchange` can end in this way. -/
def CanReturn (c : Config) (ts : List String) (result : Except Error ℕ) : Prop :=
  ∃ r, ReflTransGen (ApartStep c) (begin ts) r ∧ r.sched.ctl = .returned result

/-- The scheduler does not meet its own locks, and ends as it would without the duplicates. -/
theorem scheduler_never_collides
    (inj : ∀ t ∈ ts, ∀ u ∈ ts, c.byName t = c.byName u → t = u) :
    (∀ r, ReflTransGen (ApartStep c) (begin ts) r →
      ¬r.sched.Collides ∧ r.sched.ctl ≠ .returned (.error .lockCreated)) ∧
    ∀ result, CanReturn c ts result ↔ CanReturn c (distinctFiles c.byName [] ts) result := by
  constructor
  · intro r hrun
    exact ⟨not_collides inj hrun, not_lockCreated inj hrun⟩
  · intro result
    have hd := begin_deduped (c := c) inj
    constructor
    · rintro ⟨r, hrun, hret⟩
      obtain ⟨q, hq, hdq⟩ := hd.run hrun
      exact ⟨q, hq, by rw [hdq.sched, hret]⟩
    · rintro ⟨q, hq, hret⟩
      obtain ⟨r, hrun, hdr⟩ := hd.run_back hq
      exact ⟨r, hrun, by rw [← hdr.sched, hret]⟩

/-- The target `a`, given twice, is found clean. -/
theorem scheduler_never_collides_twice :
    CanReturn twoFiles (distinctFiles twoFiles.byName [] ["a", "a"]) (.ok 0) := by
  have inj : ∀ t ∈ ["a", "a"], ∀ u ∈ ["a", "a"], twoFiles.byName t = twoFiles.byName u → t = u := by
    decide
  apply ((scheduler_never_collides inj).2 _).mp
  have hvisit := (RunStep.visit (c := twoFiles) (r := begin ["a", "a"]) rfl rfl (by decide)
    (by decide)).apart nofun
  have htake := ReflTransGen.tail (.single hvisit) ⟨.sched (.take rfl fun hs => hs.1 rfl), nofun⟩
  have hnew := htake.tail ⟨.sched (.newLock rfl rfl), nofun⟩
  have hown := hnew.tail ⟨.sched (.own rfl), nofun⟩
  have hclean := hown.tail ⟨.sched (.clean rfl), nofun⟩
  have hskip := hclean.tail ⟨.skip rfl rfl (by decide) (by decide), nofun⟩
  have hover := hskip.tail ⟨.through rfl rfl, nofun⟩
  exact ⟨_, hover.tail ⟨.sched (.finish rfl ⟨rfl, rfl⟩ rfl), nofun⟩, rfl⟩

/-- Every name is one of the file 1. -/
def oneFile : Config := ⟨fun _ => 1, false, false⟩

/-- With `a` and `./a` the second meets the job of the first, and the process gives up. -/
theorem not_scheduler_never_collides : ¬∀ (c : Config) (ts : List String) (r : Run),
    ReflTransGen (RunStep c) (begin ts) r →
      ¬r.sched.Collides ∧ (r.sched.ctl = .returned (.error .lockCreated) → r.sched.jobs = []) := by
  intro hall
  have ha := reach_ready (c := oneFile) (r := begin ["a", "./a"]) rfl rfl (by decide) (by decide)
    rfl nofun
  have hrun := ((ha.tail (.sched (.rule rfl))).tail (.sched (.miss rfl))).tail
    (.sched (.start rfl))
  have hvisit := hrun.tail (.visit rfl rfl (by decide) (by decide))
  have hnew := hvisit.tail (.sched (.take rfl fun hs => hs.1 rfl))
  have hend := hnew.tail (.sched (.lockCreated rfl rfl))
  have hjobs := (hall oneFile ["a", "./a"] _ hend).2 rfl
  cases hjobs

end Redo.Scheduler
