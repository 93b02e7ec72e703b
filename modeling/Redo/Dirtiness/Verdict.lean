import Redo.Dirtiness.UpToDate

/-! # The walk as a function of the table

`verdict` recurses like `isdirty` but remembers and writes nothing. It is sound
for both certain answers, and total below a file from which no cycle of 'm'
dependencies can be reached. The three walks of the program are compared with it.
-/
namespace Redo.Dirtiness
open State Library Relation

/-- A verdict with the files to build named by their ids. -/
inductive Verdict where
  | clean
  | dirty
  | mustBuild (ids : List FileId)
deriving DecidableEq, Repr

def DirtyResult.verdict : DirtyResult → Verdict
  | .clean => .clean
  | .dirty => .dirty
  | .mustBuild files => .mustBuild (files.map (·.id))

variable (disk : Disk) (R : RunId) (db : Db)

/-- The answer for one dependency of `f`. -/
def depVerdict (walk : File → RunId → Except WalkError Verdict) (f : File) (p : Char × File) :
    Except WalkError Verdict :=
  if p.1 = 'c' then .ok (if disk.pathExists p.2.name then .dirty else .clean)
  else if p.1 = 'm' then walk p.2 f.lastSeen
  else .ok .clean

def verdictLoop (walk : File → RunId → Except WalkError Verdict) (f : File) :
    List (Char × File) → List FileId → Except WalkError Verdict
  | [], mustBuild => .ok (if mustBuild.isEmpty then .clean else .mustBuild mustBuild)
  | p :: rest, mustBuild =>
    match depVerdict disk walk f p with
    | .error e => .error e
    | .ok .clean => verdictLoop walk f rest mustBuild
    | .ok (.mustBuild v) => verdictLoop walk f rest (mustBuild ++ v)
    | .ok .dirty => .ok (if f.csum.isNone then .dirty else .mustBuild [f.id])

/-- The walk without memory and without row writes. -/
def verdict : ℕ → File → RunId → List FileId → Except WalkError Verdict
  | 0, _, _, _ => .error .outOfFuel
  | fuel + 1, f, mx, path =>
    if path.contains f.id then .error .cyclicDependency
    else if f.failedRunid.isSome then .ok .dirty
    else if f.changedRunid.isNone then .ok .dirty
    else if f.changedRunid.getD 0 > mx then .ok .dirty
    else if f.stamp.isNone then .ok .dirty
    else if f.stamp ≠ some (disk.readStamp f.name) then
      .ok (if f.csum.isSome then .mustBuild [f.id] else .dirty)
    else verdictLoop disk (fun g mx => verdict fuel g mx (path ++ [f.id])) f (db.depsOf R f) []

def DepUpToDate (mx : RunId) (p : Char × File) : Prop :=
  (p.1 = 'c' → disk.pathExists p.2.name = false) ∧ (p.1 = 'm' → UpToDate disk R db mx p.2)

def DepHardDirty (mx : RunId) (p : Char × File) : Prop :=
  (p.1 = 'c' ∧ disk.pathExists p.2.name = true) ∨ (p.1 = 'm' ∧ HardDirty disk R db mx p.2)

/-- What a verdict says about the file. -/
def Meets (mx : RunId) (f : File) : Verdict → Prop
  | .clean => UpToDate disk R db mx f
  | .dirty => HardDirty disk R db mx f
  | .mustBuild ids => ¬UpToDate disk R db mx f ∧ ¬HardDirty disk R db mx f ∧ ids ≠ []

def DepMeets (mx : RunId) (p : Char × File) : Verdict → Prop
  | .clean => DepUpToDate disk R db mx p
  | .dirty => DepHardDirty disk R db mx p
  | .mustBuild ids => ¬DepUpToDate disk R db mx p ∧ ¬DepHardDirty disk R db mx p ∧ ids ≠ []

/-- What the loop has established when it ends on the dependencies `deps`. -/
def LoopMeets (f : File) (deps : List (Char × File)) (mustBuild : List FileId) : Verdict → Prop
  | .clean => mustBuild = [] ∧ ∀ p ∈ deps, DepUpToDate disk R db f.lastSeen p
  | .dirty => f.csum = none ∧ ∃ p ∈ deps, DepHardDirty disk R db f.lastSeen p
  | .mustBuild ids => ids ≠ [] ∧
      (mustBuild ≠ [] ∨ ∃ p ∈ deps, ¬DepUpToDate disk R db f.lastSeen p) ∧
      (f.csum = none → ∀ p ∈ deps, ¬DepHardDirty disk R db f.lastSeen p)

variable {disk R db}

theorem DepUpToDate.not_depHardDirty {mx : RunId} {p : Char × File}
    (h : DepUpToDate disk R db mx p) : ¬DepHardDirty disk R db mx p := by
  rintro (⟨hc, he⟩ | ⟨hm, hd⟩)
  · simp [h.1 hc] at he
  · exact (h.2 hm).not_hardDirty hd

theorem depVerdict_meets {walk : File → RunId → Except WalkError Verdict} {f : File}
    {p : Char × File} (hw : ∀ v, walk p.2 f.lastSeen = .ok v → Meets disk R db f.lastSeen p.2 v)
    {v : Verdict} (h : depVerdict disk walk f p = .ok v) : DepMeets disk R db f.lastSeen p v := by
  obtain ⟨mode, g⟩ := p
  simp only [depVerdict] at h
  split at h
  · rename_i hc
    cases he : disk.pathExists g.name with
    | true =>
      rw [he] at h
      cases h
      exact .inl ⟨hc, he⟩
    | false =>
      rw [he] at h
      cases h
      exact ⟨fun _ => he, fun hm => absurd (hc.symm.trans hm) (by decide)⟩
  · rename_i hc
    split at h
    · rename_i hm
      have hv := hw v h
      cases v with
      | clean => exact ⟨fun hc' => absurd hc' hc, fun _ => hv⟩
      | dirty => exact .inr ⟨hm, hv⟩
      | mustBuild ids =>
        refine ⟨fun hu => hv.1 (hu.2 hm), ?_, hv.2.2⟩
        rintro (⟨hc', -⟩ | ⟨-, hd⟩)
        · exact hc hc'
        · exact hv.2.1 hd
    · rename_i hm
      cases h
      exact ⟨fun hc' => absurd hc' hc, fun hm' => absurd hm' hm⟩

/-- The induction is on the dependencies still to visit; what the earlier ones
have left behind is in the list of files to build. -/
theorem verdictLoop_meets {walk : File → RunId → Except WalkError Verdict} {f : File}
    {deps : List (Char × File)}
    (hw : ∀ p ∈ deps, ∀ v, walk p.2 f.lastSeen = .ok v → Meets disk R db f.lastSeen p.2 v)
    {mustBuild : List FileId} {v : Verdict} (h : verdictLoop disk walk f deps mustBuild = .ok v) :
    LoopMeets disk R db f deps mustBuild v := by
  induction deps generalizing mustBuild with
  | nil =>
    cases mustBuild with
    | nil => cases h; simp [LoopMeets]
    | cons a l => cases h; simp [LoopMeets]
  | cons p rest ih =>
    have ih' : ∀ {mb}, verdictLoop disk walk f rest mb = .ok v → LoopMeets disk R db f rest mb v :=
      fun h => ih (fun q hq => hw q (List.mem_cons_of_mem p hq)) h
    have hp : ∀ u, depVerdict disk walk f p = .ok u → DepMeets disk R db f.lastSeen p u :=
      fun u hu => depVerdict_meets (hw p List.mem_cons_self) hu
    rw [verdictLoop] at h
    split at h
    · cases h
    · rename_i hd
      have hg := hp _ hd
      have hr := ih' h
      cases v with
      | clean => exact ⟨hr.1, List.forall_mem_cons.mpr ⟨hg, hr.2⟩⟩
      | dirty =>
        obtain ⟨hc, q, hq, hqd⟩ := hr
        exact ⟨hc, q, List.mem_cons_of_mem p hq, hqd⟩
      | mustBuild ids =>
        refine ⟨hr.1, ?_, fun hc => ?_⟩
        · rcases hr.2.1 with hm | ⟨q, hq, hqu⟩
          · exact .inl hm
          · exact .inr ⟨q, List.mem_cons_of_mem p hq, hqu⟩
        exact List.forall_mem_cons.mpr ⟨hg.not_depHardDirty, hr.2.2 hc⟩
    · rename_i ids' hd
      have hg := hp _ hd
      have hr := ih' h
      cases v with
      | clean => exact absurd (List.append_eq_nil_iff.mp hr.1).2 hg.2.2
      | dirty =>
        obtain ⟨hc, q, hq, hqd⟩ := hr
        exact ⟨hc, q, List.mem_cons_of_mem p hq, hqd⟩
      | mustBuild ids =>
        refine ⟨hr.1, .inr ⟨p, List.mem_cons_self, hg.1⟩, fun hc => ?_⟩
        exact List.forall_mem_cons.mpr ⟨hg.2.1, hr.2.2 hc⟩
    · rename_i hd
      have hg : DepHardDirty disk R db f.lastSeen p := hp _ hd
      cases hc : f.csum with
      | none =>
        simp only [hc, Option.isNone_none, if_true] at h
        cases h
        exact ⟨hc, p, List.mem_cons_self, hg⟩
      | some c =>
        simp only [hc, Option.isNone_some, Bool.false_eq_true, if_false] at h
        cases h
        refine ⟨by simp, .inr ⟨p, List.mem_cons_self, fun hu => hu.not_depHardDirty hg⟩, ?_⟩
        simp [hc]

theorem upToDate_iff {mx : RunId} {f : File} : UpToDate disk R db mx f ↔
    f.failedRunid = none ∧ f.changedRunid.isSome ∧ f.changedRunid.getD 0 ≤ mx ∧
      f.stamp = some (disk.readStamp f.name) ∧
      ∀ p ∈ db.depsOf R f, DepUpToDate disk R db f.lastSeen p := by
  constructor
  · rintro ⟨notFailed, changed, notAfter, stamp, absent, deps⟩
    refine ⟨notFailed, changed, notAfter, stamp, ?_⟩
    rintro ⟨m, g⟩ hg
    exact ⟨fun hc => absent g (hc ▸ hg), fun hm => deps g (hm ▸ hg)⟩
  · rintro ⟨notFailed, changed, notAfter, stamp, hd⟩
    exact .intro notFailed changed notAfter stamp (fun g hg => (hd _ hg).1 rfl)
      fun g hg => (hd _ hg).2 rfl

/-- Behind the four tests on the row itself, only an unchecksummed file is hard-dirty. -/
theorem hardDirty_iff {mx : RunId} {f : File} (hf : f.failedRunid = none)
    (hc : f.changedRunid.isSome) (hm : f.changedRunid.getD 0 ≤ mx) (hs : f.stamp.isSome) :
    HardDirty disk R db mx f ↔ f.csum = none ∧ (f.stamp ≠ some (disk.readStamp f.name) ∨
      ∃ p ∈ db.depsOf R f, DepHardDirty disk R db f.lastSeen p) := by
  constructor
  · intro h
    cases h with
    | failed h => simp [hf] at h
    | neverChanged h => simp [h] at hc
    | changedAfter h => exact absurd hm (not_le.mpr h)
    | noStamp h => simp [h] at hs
    | stampMismatch hn h => exact ⟨hn, .inl h⟩
    | created hn hg h => exact ⟨hn, .inr ⟨_, hg, .inl ⟨rfl, h⟩⟩⟩
    | dep hn hg h => exact ⟨hn, .inr ⟨_, hg, .inr ⟨rfl, h⟩⟩⟩
  · rintro ⟨hn, h | ⟨⟨m, g⟩, hg, ⟨rfl, h⟩ | ⟨rfl, h⟩⟩⟩
    · exact .stampMismatch hn h
    · exact .created hn hg h
    · exact .dep hn hg h

/-- Each verdict says the truth; this needs no hypothesis on the table. -/
theorem verdict_meets {fuel : ℕ} {f : File} {mx : RunId} {path : List FileId} {v : Verdict}
    (h : verdict disk R db fuel f mx path = .ok v) : Meets disk R db mx f v := by
  induction fuel generalizing f mx path v with
  | zero => cases h
  | succ fuel ih =>
    rw [verdict] at h
    split_ifs at h with h1 h2 h3 h4 h5 h6 h7
    · cases h
      exact .failed h2
    · cases h
      exact .neverChanged (by simpa using h3)
    · cases h
      exact .changedAfter h4
    · cases h
      exact .noStamp (by simpa using h5)
    all_goals
      have hu : HardDirty disk R db mx f ↔ f.csum = none ∧
          (f.stamp ≠ some (disk.readStamp f.name) ∨
            ∃ p ∈ db.depsOf R f, DepHardDirty disk R db f.lastSeen p) :=
        hardDirty_iff (by simpa using h2) (by simpa [Option.isSome_iff_ne_none] using h3)
          (not_lt.mp h4) (by simpa [Option.isSome_iff_ne_none] using h5)
    · cases h
      refine ⟨fun hup => h6 (upToDate_iff.mp hup).2.2.2.1, fun hd => ?_, by simp⟩
      simp [(hu.mp hd).1] at h7
    · cases h
      exact .stampMismatch (by simpa using h7) h6
    · have hl := verdictLoop_meets (fun p _ v hv => ih hv) h
      simp only [not_not] at h6
      cases v with
      | clean =>
        exact upToDate_iff.mpr ⟨by simpa using h2,
          by simpa [Option.isSome_iff_ne_none] using h3, not_lt.mp h4, h6, hl.2⟩
      | dirty => exact hu.mpr ⟨hl.1, .inr hl.2⟩
      | mustBuild ids =>
        refine ⟨fun hup => ?_, fun hd => ?_, hl.1⟩
        · obtain ⟨p, hp, hn⟩ := hl.2.1.resolve_left (by simp)
          exact hn ((upToDate_iff.mp hup).2.2.2.2 p hp)
        · obtain ⟨hc, hs | ⟨p, hp, hpd⟩⟩ := hu.mp hd
          · exact hs h6
          · exact hl.2.2 hc p hp hpd

theorem verdictLoop_ne_error {walk : File → RunId → Except WalkError Verdict} {f : File}
    {deps : List (Char × File)} {e : WalkError}
    (hw : ∀ p ∈ deps, p.1 = 'm' → walk p.2 f.lastSeen ≠ .error e) (mustBuild : List FileId) :
    verdictLoop disk walk f deps mustBuild ≠ .error e := by
  induction deps generalizing mustBuild with
  | nil => simp [verdictLoop]
  | cons p rest ih =>
    have ih' := ih fun q hq => hw q (List.mem_cons_of_mem p hq)
    have hp : depVerdict disk walk f p ≠ .error e := by
      simp only [depVerdict]
      split_ifs with hc hm hm
      · simp
      · simp
      · exact hw p List.mem_cons_self hm
      · simp
    rw [verdictLoop]
    split
    · rename_i h
      rintro ⟨⟩
      exact hp h
    · exact ih' _
    · exact ih' _
    · simp

/-- With a full budget the recursion bound is never reached, whatever the table. -/
theorem verdict_fuel {fuel : ℕ} {f : File} {mx : RunId} {path : List FileId}
    (hroom : Room (db.files.map (·.id)) fuel path) (hf : db.byId R f.id = some f) :
    verdict disk R db fuel f mx path ≠ .error .outOfFuel := by
  induction fuel generalizing f mx path with
  | zero => exact hroom.pos.elim
  | succ fuel ih =>
    rw [verdict]
    split_ifs with h1 h2 h3 h4 h5 h6
    all_goals try simp
    refine verdictLoop_ne_error (fun p hp hm => ?_) []
    have hmem : f.id ∈ db.files.map (·.id) := Db.id_mem_of_byId hf
    exact ih (hroom.step (by simpa using h1) hmem) (Db.byId_of_mem_depsOf hp)

/-- Below a file that reaches no cycle, the path test never fires. -/
theorem verdict_acyclic {fuel : ℕ} {f : File} {mx : RunId} {path : List FileId}
    (ha : AcyclicFrom R db f.id) (hl : LeadsTo (Edge R db) path f.id)
    (hf : db.byId R f.id = some f) :
    verdict disk R db fuel f mx path ≠ .error .cyclicDependency := by
  induction fuel generalizing f mx path with
  | zero => simp [verdict]
  | succ fuel ih =>
    rw [verdict]
    split_ifs with h1 h2 h3 h4 h5 h6
    · exact absurd (by simpa using h1) (hl.not_mem (ha _ .refl))
    all_goals try simp
    refine verdictLoop_ne_error (fun p hp hm => ?_) []
    obtain ⟨m, g⟩ := p
    obtain rfl : m = 'm' := hm
    have he : Edge R db f.id g.id := ⟨f, g, hf, hp, rfl⟩
    exact ih (acyclic_step ha he) (hl.step he) (Db.byId_of_mem_depsOf hp)

theorem verdict_total {fuel : ℕ} {f : File} {mx : RunId} {path : List FileId}
    (hroom : Room (db.files.map (·.id)) fuel path) (ha : AcyclicFrom R db f.id)
    (hl : LeadsTo (Edge R db) path f.id) (hf : db.byId R f.id = some f) :
    ∃ v, verdict disk R db fuel f mx path = .ok v := by
  cases h : verdict disk R db fuel f mx path with
  | ok v => exact ⟨v, rfl⟩
  | error e =>
    cases e with
    | cyclicDependency => exact absurd h (verdict_acyclic ha hl hf)
    | outOfFuel => exact absurd h (verdict_fuel hroom hf)

/-- An up-to-date file is found clean from wherever the walk comes. -/
theorem UpToDate.verdict_eq {fuel : ℕ} {f : File} {mx : RunId} {path : List FileId}
    (hu : UpToDate disk R db mx f) (hroom : Room (db.files.map (·.id)) fuel path)
    (hl : LeadsTo (Edge R db) path f.id) (hf : db.byId R f.id = some f) :
    verdict disk R db fuel f mx path = .ok .clean := by
  obtain ⟨v, hv⟩ : ∃ v, verdict disk R db fuel f mx path = .ok v :=
    verdict_total hroom (hu.acyclic hf) hl hf
  have hm := verdict_meets hv
  cases v with
  | clean => exact hv
  | dirty => exact absurd hm hu.not_hardDirty
  | mustBuild ids => exact absurd hu hm.1

end Redo.Dirtiness
