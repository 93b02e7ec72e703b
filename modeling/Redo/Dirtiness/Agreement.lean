import Redo.Dirtiness.Planner
import Redo.Dirtiness.Specification

/-! # The planner, `redo-ood` and the builder agree

Each of the three walks visits a sequence of roots, every walk starting from the
memory that the previous one left. All of them follow the verdicts of the table
they started on, so they agree with each other, cycles included.
-/
namespace Redo.Dirtiness
open State Library Relation

/-- The answers for a sequence of roots; an error does not end the sequence. -/
def walkAll {σ : Type} (walk : File → σ → Except WalkError DirtyResult × σ) :
    List File → σ → List (Except WalkError DirtyResult) × σ
  | [], s => ([], s)
  | f :: rest, s =>
    let (r, s) := walk f s
    let (rs, s) := walkAll walk rest s
    (r :: rs, s)

/-- `isdirty_readonly_default`, with the cache of `compute_build_plan`. -/
def planWalk (disk : Disk) (R : RunId) (db : Db) (mx : RunId) (f : File) (c : PlanCache) :
    Except WalkError DirtyResult × PlanCache :=
  isdirtyReadonly disk R db (budget db) f mx [] c

/-- `redo-ood` walks from the snapshots that `files()` has listed. -/
def oodWalk (disk : Disk) (R : RunId) (mx : RunId) (f : File) (s : WalkState) :
    Except WalkError DirtyResult × WalkState :=
  (isdirty oodClosures disk R (budget s.db) f mx [] s).out

/-- The builder reads the row of each root afresh. -/
def builderWalk (preflight : List FileId) (disk : Disk) (R : RunId) (mx : RunId) (f : File)
    (s : WalkState) : Except WalkError DirtyResult × WalkState :=
  (isdirtyDefault preflight disk R s.db (s.db.refresh R f) mx).out

/-- The verdicts of a sequence of walks. -/
def verdicts (rs : List (Except WalkError DirtyResult)) : List (Except WalkError Verdict) :=
  rs.map (Except.map DirtyResult.verdict)

theorem walkAll_follows {σ : Type} {walk : File → σ → Except WalkError DirtyResult × σ}
    {Inv : σ → Prop} {spec : File → Except WalkError Verdict} {roots : List File}
    (hw : ∀ f ∈ roots, ∀ s, Inv s →
      (walk f s).1.map DirtyResult.verdict = spec f ∧ Inv (walk f s).2)
    {s : σ} (hs : Inv s) :
    verdicts (walkAll walk roots s).1 = roots.map spec ∧ Inv (walkAll walk roots s).2 := by
  induction roots generalizing s with
  | nil => exact ⟨rfl, hs⟩
  | cons f rest ih =>
    have hf := hw f List.mem_cons_self s hs
    have hr := ih (fun g hg => hw g (List.mem_cons_of_mem f hg)) hf.2
    refine ⟨?_, hr.2⟩
    change Except.map DirtyResult.verdict (walk f s).1 :: verdicts (walkAll walk rest (walk f s).2).1
      = spec f :: rest.map spec
    rw [hf.1, hr.1]

/-- What the planner remembers is true of the table and the file system. -/
structure PlanCache.Sound (disk : Disk) (R : RunId) (db : Db) (c : PlanCache) : Prop where
  checked : ∀ id ∈ c.checked, Settled disk R db id
  stamp : ∀ f, db.byId R f.id = some f → ∀ s, c.stamp.lookup f.id = some s →
    s = disk.readStamp f.name
  deps : ∀ f, db.byId R f.id = some f → ∀ v, c.deps.lookup f.id = some v → v = db.depsOf R f

namespace PlanCache.Sound
variable {disk : Disk} {R : RunId} {db : Db} {c : PlanCache} {f : File}

theorem empty : PlanCache.Sound disk R db {} where
  checked id h := by cases h
  stamp f _ s h := by cases h
  deps f _ v h := by cases h

theorem readStampCached (h : c.Sound disk R db) (hf : db.byId R f.id = some f) :
    (c.readStampCached disk f).1 = disk.readStamp f.name ∧
      (c.readStampCached disk f).2.Sound disk R db := by
  unfold PlanCache.readStampCached
  split
  · rename_i s hs
    exact ⟨h.stamp f hf s hs, h⟩
  · refine ⟨rfl, h.checked, fun g hg s hs => ?_, h.deps⟩
    rw [List.lookup_cons] at hs
    split at hs
    · rename_i heq
      rw [beq_iff_eq] at heq
      rw [heq] at hg
      obtain rfl := Option.some.inj (hg.symm.trans hf)
      exact (Option.some.inj hs).symm
    · exact h.stamp g hg s hs

theorem depsCached (h : c.Sound disk R db) (hf : db.byId R f.id = some f) :
    (c.depsCached db R f).1 = db.depsOf R f ∧ (c.depsCached db R f).2.Sound disk R db := by
  unfold PlanCache.depsCached
  split
  · rename_i v hv
    exact ⟨h.deps f hf v hv, h⟩
  · refine ⟨rfl, h.checked, h.stamp, fun g hg v hv => ?_⟩
    rw [List.lookup_cons] at hv
    split at hv
    · rename_i heq
      rw [beq_iff_eq] at heq
      rw [heq] at hg
      obtain rfl := Option.some.inj (hg.symm.trans hf)
      exact (Option.some.inj hv).symm
    · exact h.deps g hg v hv

theorem setChecked (h : c.Sound disk R db) (hf : db.byId R f.id = some f) {mx : RunId}
    (hu : UpToDate disk R db mx f) : (c.setChecked f).Sound disk R db where
  checked id hid := by
    rcases List.mem_insert_iff.mp hid with rfl | hid
    · exact ⟨f, mx, hf, hu⟩
    · exact h.checked id hid
  stamp := h.stamp
  deps := h.deps

end PlanCache.Sound

variable {disk : Disk} {R : RunId} {db : Db}

theorem depLoopReadonly_follows
    {walk : File → RunId → PlanCache → Except WalkError DirtyResult × PlanCache}
    {walk₀ : File → RunId → Except WalkError Verdict} {f : File} {deps : List (Char × File)}
    (hw : ∀ p ∈ deps, p.1 = 'm' → ∀ c : PlanCache, c.Sound disk R db →
      (walk p.2 f.lastSeen c).1.map DirtyResult.verdict = walk₀ p.2 f.lastSeen ∧
        (walk p.2 f.lastSeen c).2.Sound disk R db)
    {mustBuild : List File} {c : PlanCache} (hc : c.Sound disk R db) :
    (depLoopReadonly walk disk f deps mustBuild c).1.map DirtyResult.verdict =
        verdictLoop disk walk₀ f deps (mustBuild.map (·.id)) ∧
      (depLoopReadonly walk disk f deps mustBuild c).2.Sound disk R db := by
  induction deps generalizing mustBuild c with
  | nil =>
    rw [depLoopReadonly, verdictLoop]
    cases mustBuild <;> exact ⟨rfl, hc⟩
  | cons p rest ih =>
    have ih' := fun {mb c} => @ih (fun q hq => hw q (List.mem_cons_of_mem p hq)) mb c
    have hstep : (depDirtyReadonly walk disk f p c).1.map DirtyResult.verdict =
          depVerdict disk walk₀ f p ∧ (depDirtyReadonly walk disk f p c).2.Sound disk R db := by
      simp only [depDirtyReadonly, depVerdict]
      split_ifs with h1 h2 h3
      · exact ⟨rfl, hc⟩
      · exact ⟨rfl, hc⟩
      · exact hw p List.mem_cons_self h3 c hc
      · exact ⟨rfl, hc⟩
    rw [depLoopReadonly, verdictLoop, ← hstep.1]
    obtain ⟨-, hsound⟩ := hstep
    generalize depDirtyReadonly walk disk f p c = out at hsound ⊢
    rcases out with ⟨_ | r, c'⟩
    · exact ⟨rfl, hsound⟩
    cases r with
    | clean => exact ih' hsound
    | dirty =>
      refine ⟨?_, hsound⟩
      cases f.csum <;> rfl
    | mustBuild v =>
      simp only [Except.map, DirtyResult.verdict, ← List.map_append]
      exact ih' hsound

theorem isdirtyReadonly_follows {fuel : ℕ} {f : File} {mx : RunId} {path : List FileId}
    {c : PlanCache} (hc : c.Sound disk R db) (hf : db.byId R f.id = some f)
    (hroom : Room (db.files.map (·.id)) fuel path) (hl : LeadsTo (Edge R db) path f.id) :
    (isdirtyReadonly disk R db fuel f mx path c).1.map DirtyResult.verdict =
        verdict disk R db fuel f mx path ∧
      (isdirtyReadonly disk R db fuel f mx path c).2.Sound disk R db := by
  induction fuel generalizing f mx path c with
  | zero => exact hroom.pos.elim
  | succ fuel ih =>
    rw [verdict, isdirtyReadonly]
    by_cases hpath : path.contains f.id = true
    · rw [if_pos hpath, if_pos hpath]
      exact ⟨rfl, hc⟩
    rw [if_neg hpath, if_neg hpath]
    by_cases hfail : f.failedRunid.isSome = true
    · rw [if_pos hfail, if_pos hfail]
      exact ⟨rfl, hc⟩
    rw [if_neg hfail, if_neg hfail]
    by_cases hch : f.changedRunid.isNone = true
    · rw [if_pos hch, if_pos hch]
      exact ⟨rfl, hc⟩
    rw [if_neg hch, if_neg hch]
    by_cases hmx : f.changedRunid.getD 0 > mx
    · rw [if_pos hmx, if_pos hmx]
      exact ⟨rfl, hc⟩
    rw [if_neg hmx, if_neg hmx]
    by_cases hchk : c.checked.contains f.id = true
    · obtain ⟨g, mx', hg, hu⟩ := hc.checked _ (List.contains_iff_mem.mp hchk)
      obtain rfl := Option.some.inj (hf.symm.trans hg)
      have hv := (hu.weaken (not_lt.mp hmx)).verdict_eq hroom hl hf
      rw [verdict, if_neg hpath, if_neg hfail, if_neg hch, if_neg hmx] at hv
      rw [if_pos hchk, hv]
      exact ⟨rfl, hc⟩
    rw [if_neg hchk]
    by_cases hst : f.stamp.isNone = true
    · rw [if_pos hst, if_pos hst]
      exact ⟨rfl, hc⟩
    rw [if_neg hst, if_neg hst]
    obtain ⟨hnew, hc₁⟩ := hc.readStampCached hf
    simp only [hnew]
    by_cases hmis : f.stamp ≠ some (disk.readStamp f.name)
    · rw [if_pos hmis, if_pos hmis]
      refine ⟨?_, hc₁⟩
      cases f.csum <;> rfl
    rw [if_neg hmis, if_neg hmis]
    obtain ⟨hdeps, hc₂⟩ := hc₁.depsCached hf
    have hmem : f.id ∈ db.files.map (·.id) := Db.id_mem_of_byId hf
    have hloop : (depLoopReadonly (fun g mx c =>
          isdirtyReadonly disk R db fuel g mx (path ++ [f.id]) c) disk f (db.depsOf R f) []
          ((c.readStampCached disk f).2.depsCached db R f).2).1.map DirtyResult.verdict =
        verdictLoop disk (fun g mx => verdict disk R db fuel g mx (path ++ [f.id])) f
          (db.depsOf R f) [] ∧
        (depLoopReadonly (fun g mx c =>
          isdirtyReadonly disk R db fuel g mx (path ++ [f.id]) c) disk f (db.depsOf R f) []
          ((c.readStampCached disk f).2.depsCached db R f).2).2.Sound disk R db := by
      refine depLoopReadonly_follows (fun p hp hm c' hc' => ?_) hc₂
      obtain ⟨m, g⟩ := p
      obtain rfl : m = 'm' := hm
      have he : Edge R db f.id g.id := ⟨f, g, hf, hp, rfl⟩
      exact ih hc' (Db.byId_of_mem_depsOf hp) (hroom.step (by simpa using hpath) hmem)
        (hl.step he)
    have hmeets : ∀ v, verdictLoop disk (fun g mx => verdict disk R db fuel g mx (path ++ [f.id]))
        f (db.depsOf R f) [] = .ok v → LoopMeets disk R db f (db.depsOf R f) [] v :=
      fun v hv => verdictLoop_meets (fun p _ v hv => verdict_meets hv) hv
    rw [hdeps]
    generalize depLoopReadonly (fun g mx c =>
      isdirtyReadonly disk R db fuel g mx (path ++ [f.id]) c) disk f (db.depsOf R f) []
      ((c.readStampCached disk f).2.depsCached db R f).2 = out at hloop ⊢
    obtain ⟨hv, hsound⟩ := hloop
    rcases out with ⟨_ | r, c'⟩
    · exact ⟨hv, hsound⟩
    cases r with
    | dirty => exact ⟨hv, hsound⟩
    | mustBuild v => exact ⟨hv, hsound⟩
    | clean =>
      have hu : UpToDate disk R db mx f :=
        upToDate_iff.mpr ⟨by simpa using hfail, by simpa [Option.isSome_iff_ne_none] using hch,
          not_lt.mp hmx, not_not.mp hmis, (hmeets .clean hv.symm).2⟩
      exact ⟨hv, hsound.setChecked hf hu⟩

/-- The in-memory set of `redo-ood` leaves all rows unmarked. -/
theorem oodClosures_sound : oodClosures.Sound disk R db where
  isChecked {s f₀ f} hs hf₀ hd hc := by
    have hmem : f₀.id ∈ s.cache := by
      rw [← hd.id_eq]
      simpa [oodClosures] using hc
    obtain ⟨g, mx, hg, hu⟩ := hs.cache _ hmem
    obtain rfl := Option.some.inj (hf₀.symm.trans hg)
    exact ⟨mx, hu⟩
  setChecked {s f₀ f mx} hs hf₀ hu hd := by
    refine ⟨⟨hs.deps, hs.size, hs.rows, fun id hid => ?_⟩, hd⟩
    rcases List.mem_insert_iff.mp hid with rfl | hid
    · exact ⟨f₀, mx, by rw [hd.id_eq]; exact hf₀, hu⟩
    · exact hs.cache id hid

variable {roots : List File}

theorem planWalk_follows (mx : RunId) (hroots : ∀ f ∈ roots, db.byId R f.id = some f) :
    verdicts (walkAll (planWalk disk R db mx) roots {}).1 =
        roots.map (fun f => verdict disk R db (budget db) f mx []) ∧
      (walkAll (planWalk disk R db mx) roots {}).2.Sound disk R db := by
  have hw : ∀ f ∈ roots, ∀ c : PlanCache, c.Sound disk R db →
      (planWalk disk R db mx f c).1.map DirtyResult.verdict =
          verdict disk R db (budget db) f mx [] ∧ (planWalk disk R db mx f c).2.Sound disk R db :=
    fun f hf c hc => isdirtyReadonly_follows hc (hroots f hf) (Room.budget db) (leadsTo_nil f.id)
  exact walkAll_follows hw PlanCache.Sound.empty

theorem oodWalk_follows (mx : RunId) (hroots : ∀ f ∈ roots, db.byId R f.id = some f) :
    verdicts (walkAll (oodWalk disk R mx) roots { db }).1 =
      roots.map fun f => verdict disk R db (budget db) f mx [] := by
  have hw : ∀ f ∈ roots, ∀ s, Evolved oodClosures disk R db s →
      (oodWalk disk R mx f s).1.map DirtyResult.verdict = verdict disk R db (budget db) f mx [] ∧
        Evolved oodClosures disk R db (oodWalk disk R mx f s).2 := by
    intro f hf s hs
    have hb : budget s.db = budget db := by rw [budget, budget, hs.size]
    rw [oodWalk, hb]
    obtain ⟨⟨hv, hev, -⟩, -⟩ := isdirty_follows oodClosures_sound hs (hroots f hf) .same
      (Room.budget db) (leadsTo_nil f.id)
    exact ⟨hv, hev⟩
  exact (walkAll_follows hw .start).1

/-- A root read back from the evolved table has drifted from its first snapshot. -/
theorem Evolved.refresh {c : Closures} {s : WalkState} (h : Evolved c disk R db s) {f : File}
    (hf : db.byId R f.id = some f) : Drift c disk R db f (s.db.refresh R f) := by
  have hb := h.byId f.id
  rw [hf] at hb
  unfold Db.refresh
  generalize s.db.byId R f.id = o at hb ⊢
  cases hb with
  | some hd => exact hd

theorem builderWalk_follows (mx : RunId) (h : NoneChecked R db) {preflight : List FileId}
    (hp : ∀ id ∈ preflight, Settled disk R db id)
    (hroots : ∀ f ∈ roots, db.byId R f.id = some f) :
    verdicts (walkAll (builderWalk preflight disk R mx) roots { db }).1 =
      roots.map fun f => verdict disk R db (budget db) f mx [] := by
  have hw : ∀ f ∈ roots, ∀ s, Evolved (builderClosures R preflight) disk R db s →
      (builderWalk preflight disk R mx f s).1.map DirtyResult.verdict =
          verdict disk R db (budget db) f mx [] ∧
        Evolved (builderClosures R preflight) disk R db (builderWalk preflight disk R mx f s).2 := by
    intro f hf s hs
    have hb : budget s.db = budget db := by rw [budget, budget, hs.size]
    have hs' : Evolved (builderClosures R preflight) disk R db { db := s.db } :=
      ⟨hs.deps, hs.size, hs.rows, fun id hid => by cases hid⟩
    rw [builderWalk, isdirtyDefault, hb]
    obtain ⟨⟨hv, hev, -⟩, -⟩ := isdirty_follows (builderClosures_sound h hp) hs' (hroots f hf)
      (hs.refresh (hroots f hf)) (Room.budget db) (leadsTo_nil f.id)
    exact ⟨hv, hev⟩
  exact (walkAll_follows hw .start).1

/-- For every sequence of roots the three walks give the same verdicts, each of them
the one that `isdirty_default` gives when it starts with that root; the ids that
a plan over any roots has found clean change nothing when the builder trusts them. -/
theorem walks_agree (disk : Disk) (R : RunId) (db : Db) (mx : RunId) (plan roots : List File)
    (hchecked : NoneChecked R db) (hplan : ∀ f ∈ plan, db.byId R f.id = some f)
    (hroots : ∀ f ∈ roots, db.byId R f.id = some f) :
    let planned := verdicts (walkAll (planWalk disk R db mx) roots {}).1
    let preflight := (walkAll (planWalk disk R db mx) plan {}).2.checked
    planned = verdicts (walkAll (oodWalk disk R mx) roots { db }).1 ∧
    planned = verdicts (walkAll (builderWalk [] disk R mx) roots { db }).1 ∧
    planned = verdicts (walkAll (builderWalk preflight disk R mx) roots { db }).1 ∧
    planned = verdicts (roots.map fun f => (isdirtyDefault [] disk R db f mx).result) ∧
    .error .outOfFuel ∉ planned := by
  intro planned preflight
  have hspec : planned = roots.map fun f => verdict disk R db (budget db) f mx [] :=
    (planWalk_follows mx hroots).1
  have hpre : ∀ id ∈ preflight, Settled disk R db id := (planWalk_follows mx hplan).2.checked
  have hnil : ∀ id ∈ ([] : List FileId), Settled disk R db id := fun id hid => by cases hid
  refine ⟨?_, ?_, ?_, ?_, ?_⟩
  · rw [hspec, oodWalk_follows mx hroots]
  · rw [hspec, builderWalk_follows mx hchecked hnil hroots]
  · rw [hspec, builderWalk_follows mx hchecked hpre hroots]
  · rw [hspec, verdicts, List.map_map]
    refine List.map_congr_left fun f hf => ?_
    exact (isdirtyDefault_follows hchecked hnil (hroots f hf) mx).verdict.symm
  · rw [hspec]
    intro hm
    obtain ⟨f, hf, he⟩ := List.mem_map.mp hm
    exact verdict_fuel (Room.budget db) (hroots f hf) he

theorem walks_agree_diamond :
    verdicts (walkAll (planWalk quietDisk 5 diamondDb 5) [diamondTop] {}).1 =
      verdicts (walkAll (builderWalk [] quietDisk 5 5) [diamondTop] { db := diamondDb }).1 :=
  (walks_agree quietDisk 5 diamondDb 5 [] [diamondTop] (by unfold NoneChecked; decide)
    (by decide) (by decide)).2.1

end Redo.Dirtiness
