import Mathlib.Data.Finset.Sort
import Redo.Dirtiness.Agreement
import Redo.Plan.Scope

/-! # What a plan counts

`redo` asks for each target in the scope whether it is up to date, in whatever order the set gives
them, and hands the ids that it has found clean on to the build.
-/
namespace Redo.Plan
open State Library Remote Cache Paths Dirtiness

structure BuildPlan where
  dirty : ℕ
  total : ℕ
  uptodate : ℕ
  checkedIds : List FileId

inductive PlanError
  /-- `plan.targets` is no text. -/
  | manifest
  | walk (e : WalkError)
deriving DecidableEq

/-- What a planner sees. The order is that in which a set of targets is gone through. -/
structure Planner where
  process : Process
  disk : Disk
  runid : RunId
  db : Db
  files : Text → Option (List UInt8)
  order : Finset Text → List Text
  order_nodup : ∀ s, (order s).Nodup
  order_mem : ∀ s t, t ∈ order s ↔ t ∈ s
  ids : (db.files.map (·.id)).Nodup

namespace Planner
variable (w : Planner)

def base : Text := w.process.envBase

/-- `File::by_name` of a path below the base, without a new row. -/
def row (outRel : Text) : Option File :=
  let name := w.process.byName (push w.base outRel)
  (w.db.files.find? (·.name = String.ofList name)).map (File.fromRow w.runid)

def count : List Text → ℕ → ℕ → PlanCache → Except PlanError (ℕ × ℕ × PlanCache)
  | [], dirty, uptodate, cache => .ok (dirty, uptodate, cache)
  | outRel :: rest, dirty, uptodate, cache =>
    match w.row outRel with
    | none => count rest (dirty + 1) uptodate cache
    | some f =>
      match planWalk w.disk w.runid w.db w.runid f cache with
      | (.error e, _) => .error (.walk e)
      | (.ok .clean, cache) => count rest dirty (uptodate + 1) cache
      | (.ok _, cache) => count rest (dirty + 1) uptodate cache

def planTargetsPath : Text := push (push w.base ".redo".toList) "plan.targets".toList

def rootsOf (targets : List Text) : List Text := if targets = [] then ["all".toList] else targets

def computeBuildPlan (targets : List Text) : Except PlanError (Option BuildPlan) :=
  match w.files w.planTargetsPath with
  | none => .ok none
  | some content =>
    match loadPlanTargets w.base content with
    | none => .error .manifest
    | some planAll =>
      let scope := ((computePlanScope w.base w.files planAll (rootsOf targets)).getD []).toFinset
      if planAll = ∅ ∨ scope = ∅ then .ok none
      else
        (w.count (w.order scope) 0 0 {}).map fun n =>
          some { dirty := n.1, total := scope.card, uptodate := n.2.1, checkedIds := n.2.2.checked }

/-- What the builder finds when it starts with the target. -/
def builderVerdict (f : File) : Except WalkError Verdict :=
  (isdirtyDefault [] w.disk w.runid w.db f w.runid).result.map DirtyResult.verdict

/-- The target has a row, and the builder would find it clean. -/
def FoundClean (outRel : Text) : Prop :=
  ∃ f, w.row outRel = some f ∧ w.builderVerdict f = .ok .clean

/-- The walk of the builder fails there. -/
def Fails (outRel : Text) : Prop :=
  ∃ f, w.row outRel = some f ∧ w.builderVerdict f = .error .cyclicDependency

end Planner

variable {w : Planner} {outRel : Text} {f : File} {cache : PlanCache}

namespace Planner

theorem find_id {files : List File} {r : File} (hids : (files.map (·.id)).Nodup) (hmem : r ∈ files) :
    files.find? (·.id = r.id) = some r := by
  induction files with
  | nil => simp at hmem
  | cons g rest ih =>
    rw [List.map_cons, List.nodup_cons] at hids
    rcases List.mem_cons.mp hmem with rfl | hrest
    · simp
    · have hne : g.id ≠ r.id := fun he => hids.1 (he ▸ List.mem_map_of_mem hrest)
      simp [hne, ih hids.2 hrest]

/-- A row that is found by its name is found by its id. -/
theorem byId_row (h : w.row outRel = some f) : w.db.byId w.runid f.id = some f := by
  obtain ⟨r, hr, rfl⟩ := Option.map_eq_some_iff.mp h
  rw [Db.byId, File.fromRow_id, Db.lookup, find_id w.ids (List.mem_of_find?_eq_some hr), Option.map_some]

/-- One walk of the planner gives the builder's answer. -/
theorem planWalk_spec (hchecked : NoneChecked w.runid w.db) (h : w.row outRel = some f)
    (hc : cache.Sound w.disk w.runid w.db) :
    (planWalk w.disk w.runid w.db w.runid f cache).1.map DirtyResult.verdict = w.builderVerdict f ∧
      (planWalk w.disk w.runid w.db w.runid f cache).2.Sound w.disk w.runid w.db ∧
        w.builderVerdict f ≠ .error .outOfFuel := by
  have hbyId := byId_row h
  have hnil : ∀ id ∈ ([] : List FileId), Settled w.disk w.runid w.db id := fun id hid => by cases hid
  have hbuilder : w.builderVerdict f = verdict w.disk w.runid w.db (budget w.db) f w.runid [] :=
    (isdirtyDefault_follows hchecked hnil hbyId w.runid).verdict
  rw [hbuilder]
  obtain ⟨hverdict, hsound⟩ := isdirtyReadonly_follows hc hbyId (Room.budget w.db) (leadsTo_nil f.id)
  exact ⟨hverdict, hsound, verdict_fuel (Room.budget w.db) hbyId⟩

open Classical in
/-- What the targets that are left add to the counts. -/
theorem count_ok {l : List Text} {dirty uptodate : ℕ} {n : ℕ × ℕ × PlanCache}
    (hchecked : NoneChecked w.runid w.db) (hc : cache.Sound w.disk w.runid w.db)
    (h : w.count l dirty uptodate cache = .ok n) :
    n.1 + n.2.1 = dirty + uptodate + l.length ∧ n.2.1 = uptodate + l.countP (w.FoundClean ·) ∧
      n.2.2.Sound w.disk w.runid w.db ∧ ∀ t ∈ l, ¬w.Fails t := by
  induction l generalizing dirty uptodate cache with
  | nil =>
    cases h
    exact ⟨rfl, rfl, hc, by simp⟩
  | cons t rest ih =>
    rw [count] at h
    cases hrow : w.row t with
    | none =>
      have hclean : ¬w.FoundClean t := by simp [FoundClean, hrow]
      have hfails : ¬w.Fails t := by simp [Fails, hrow]
      rw [hrow] at h
      obtain ⟨hsum, hup, hsound, hrest⟩ := ih hc h
      refine ⟨by simp only [List.length_cons]; omega, ?_, hsound, by simpa [hfails] using hrest⟩
      rw [hup, List.countP_cons_of_neg (by simpa using hclean)]
    | some f =>
      obtain ⟨hverdict, hsound, hfuel⟩ := planWalk_spec hchecked hrow hc
      rw [hrow] at h
      dsimp only at h
      generalize planWalk w.disk w.runid w.db w.runid f cache = walked at h hverdict hsound
      obtain ⟨_ | result, cache'⟩ := walked
      · cases h
      have hfails : ¬w.Fails t := by
        simp only [Except.map] at hverdict
        simp [Fails, hrow, ← hverdict]
      have hclean : w.FoundClean t ↔ result = .clean := by
        simp only [FoundClean, hrow, Option.some.injEq, exists_eq_left', ← hverdict, Except.map]
        cases result <;> simp [DirtyResult.verdict]
      cases result with
      | clean =>
        obtain ⟨hsum, hup, hsound', hrest⟩ := ih hsound h
        refine ⟨by simp only [List.length_cons]; omega, ?_, hsound', by simpa [hfails] using hrest⟩
        rw [hup, List.countP_cons_of_pos (by simpa using hclean)]
        omega
      | dirty | mustBuild =>
        obtain ⟨hsum, hup, hsound', hrest⟩ := ih hsound h
        refine ⟨by simp only [List.length_cons]; omega, ?_, hsound', by simpa [hfails] using hrest⟩
        rw [hup, List.countP_cons_of_neg (by simpa using hclean)]

/-- The count fails only at a target where the builder fails. -/
theorem count_error {l : List Text} {dirty uptodate : ℕ} {e : PlanError}
    (hchecked : NoneChecked w.runid w.db) (hc : cache.Sound w.disk w.runid w.db)
    (h : w.count l dirty uptodate cache = .error e) : ∃ t ∈ l, w.Fails t := by
  induction l generalizing dirty uptodate cache with
  | nil => cases h
  | cons t rest ih =>
    have hlater : (∃ t ∈ rest, w.Fails t) → ∃ t' ∈ t :: rest, w.Fails t' := fun ⟨t', ht', hf⟩ =>
      ⟨t', List.mem_cons_of_mem t ht', hf⟩
    rw [count] at h
    cases hrow : w.row t with
    | none =>
      rw [hrow] at h
      exact hlater (ih hc h)
    | some f =>
      obtain ⟨hverdict, hsound, hfuel⟩ := planWalk_spec hchecked hrow hc
      rw [hrow] at h
      dsimp only at h
      generalize planWalk w.disk w.runid w.db w.runid f cache = walked at h hverdict hsound
      obtain ⟨e' | result, cache'⟩ := walked
      · refine ⟨t, List.mem_cons_self, f, hrow, ?_⟩
        cases e' with
        | cyclicDependency => exact hverdict.symm
        | outOfFuel => exact absurd hverdict.symm hfuel
      · cases result with
        | clean | dirty | mustBuild => exact hlater (ih hsound h)

/-- The count goes over the scope. -/
theorem computeBuildPlan_eq (targets : List Text) {content : List UInt8} {planAll : Finset Text}
    (hcontent : w.files w.planTargetsPath = some content)
    (hplan : loadPlanTargets w.base content = some planAll) :
    ∃ scope : Finset Text, (∀ t, t ∈ scope ↔ InScope w.base w.files planAll (rootsOf targets) t) ∧
      w.computeBuildPlan targets =
        if scope = ∅ then .ok none
        else (w.count (w.order scope) 0 0 {}).map fun n =>
          some ⟨n.1, scope.card, n.2.1, n.2.2.checked⟩ := by
  obtain ⟨found, hfound, -, hmem⟩ := computePlanScope_iff w.base w.files planAll (rootsOf targets)
  have hsub : ∀ t ∈ found.toFinset, t ∈ planAll := by
    intro t ht
    obtain ⟨r, -, k, hk, hpath⟩ := (hmem t).mp (List.mem_toFinset.mp ht)
    rcases Relation.ReflTransGen.cases_tail hpath with rfl | ⟨-, -, -, hin⟩
    · exact rootKey_mem hk
    · exact hin
  have hempty : (planAll = ∅ ∨ found.toFinset = ∅) ↔ found.toFinset = ∅ := by
    refine or_iff_right_of_imp fun hnone => ?_
    ext t
    simpa [hnone] using hsub t
  refine ⟨found.toFinset, fun t => List.mem_toFinset.trans (hmem t), ?_⟩
  simp only [computeBuildPlan, hcontent, hplan, hfound, Option.getD_some, hempty]

theorem order_toFinset (scope : Finset Text) : (w.order scope).toFinset = scope := by
  ext t
  rw [List.mem_toFinset, w.order_mem]

theorem order_length (scope : Finset Text) : (w.order scope).length = scope.card := by
  rw [← List.toFinset_card_of_nodup (w.order_nodup scope), order_toFinset]

open Classical in
/-- The plan is what the build is going to find: its scope are the planned targets that can be
reached from the roots by the generated scripts, each of them is counted as the builder will judge
it, in whatever order, and to trust the ids that it hands on changes no judgement. There is none
just when the builder fails at one of the targets. -/
theorem build_plan_exact (targets : List Text) (hchecked : NoneChecked w.runid w.db)
    {content : List UInt8} {planAll : Finset Text} (hcontent : w.files w.planTargetsPath = some content)
    (hplan : loadPlanTargets w.base content = some planAll) :
    ∃ scope : Finset Text, (∀ t, t ∈ scope ↔ InScope w.base w.files planAll (rootsOf targets) t) ∧
      ((∃ t ∈ scope, w.Fails t) ↔ ∃ e, w.computeBuildPlan targets = .error e) ∧
      (w.computeBuildPlan targets = .ok none ↔ scope = ∅) ∧
      ∀ plan, w.computeBuildPlan targets = .ok (some plan) →
        plan.total = scope.card ∧ plan.uptodate = {t ∈ scope | w.FoundClean t}.card ∧
          plan.dirty = {t ∈ scope | ¬w.FoundClean t}.card ∧
          ∀ roots : List File, (∀ f ∈ roots, w.db.byId w.runid f.id = some f) → ∀ mx,
            verdicts (walkAll (builderWalk plan.checkedIds w.disk w.runid mx) roots { db := w.db }).1 =
              verdicts (walkAll (builderWalk [] w.disk w.runid mx) roots { db := w.db }).1 := by
  obtain ⟨scope, hscope, hcompute⟩ := computeBuildPlan_eq targets hcontent hplan
  refine ⟨scope, hscope, ?_⟩
  rw [hcompute]
  have hnone : (∃ t ∈ scope, w.Fails t) → scope ≠ ∅ := by
    rintro ⟨t, ht, -⟩ rfl
    simp at ht
  by_cases hempty : scope = ∅
  · rw [if_pos hempty]
    refine ⟨⟨fun h => absurd hempty (hnone h), fun ⟨e, he⟩ => by cases he⟩, by simp [hempty], ?_⟩
    intro plan hok
    cases hok
  rw [if_neg hempty]
  cases hcount : w.count (w.order scope) 0 0 {} with
  | error e =>
    obtain ⟨t, ht, hfails⟩ := count_error hchecked PlanCache.Sound.empty hcount
    refine ⟨⟨fun _ => ⟨e, rfl⟩, fun _ => ⟨t, (w.order_mem scope t).mp ht, hfails⟩⟩, ?_, ?_⟩
    · simp [Except.map, hempty]
    · intro plan hok
      cases hok
  | ok n =>
    obtain ⟨hsum, hup, hsound, hno⟩ := count_ok hchecked PlanCache.Sound.empty hcount
    have hclean : (w.order scope).countP (w.FoundClean ·) = {t ∈ scope | w.FoundClean t}.card := by
      rw [List.countP_eq_length_filter,
        ← List.toFinset_card_of_nodup ((w.order_nodup scope).filter _), List.toFinset_filter,
        order_toFinset]
      simp
    rw [order_length] at hsum
    refine ⟨⟨?_, ?_⟩, ?_, ?_⟩
    · rintro ⟨t, ht, hfails⟩
      exact absurd hfails (hno t ((w.order_mem scope t).mpr ht))
    · rintro ⟨e, he⟩
      cases he
    · simp [Except.map, hempty]
    · rintro plan hok
      cases hok
      have hsplit := Finset.card_filter_add_card_filter_not (s := scope) (w.FoundClean ·)
      refine ⟨rfl, by simpa [hclean] using hup, by simp only; omega, fun roots hroots mx => ?_⟩
      rw [builderWalk_follows mx hchecked hsound.checked hroots,
        builderWalk_follows mx hchecked (fun id hid => by cases hid) hroots]

/-- Two targets of the diamond are planned, and one of them has a generated script. -/
def diamond : Planner where
  process :=
    { tree := ⟨fun _ => true, fun _ => true⟩
      base := processBelow.base
      cwd := processBelow.base
      diffPaths := lexicalDiff }
  disk := quietDisk
  runid := 5
  db := diamondDb
  files path :=
    if place path = ["b".toList, ".redo".toList, "plan.targets".toList] then some (encode "top\n# all\n/b/left".toList)
    else if place path = ["b".toList, "top.do".toList] then
      some (encode "# Generated by CMake Redo generator\nredo-ifchange in 'left'\n".toList)
    else none
  order s := s.sort
  order_nodup s := s.sort_nodup _
  order_mem s t := Finset.mem_sort _
  ids := by decide

theorem diamond_scope : computePlanScope diamond.base diamond.files {"top".toList, "left".toList} ["top".toList] =
    some ["top".toList, "left".toList] := by decide +kernel

theorem diamond_inScope (t : Text) :
    InScope diamond.base diamond.files {"top".toList, "left".toList} ["top".toList] t ↔
      t ∈ ["top".toList, "left".toList] := by
  obtain ⟨scope, hscope, -, hmem⟩ :=
    computePlanScope_iff diamond.base diamond.files {"top".toList, "left".toList} ["top".toList]
  rw [diamond_scope] at hscope
  rw [← hmem, ← Option.some.inj hscope]

theorem diamond_clean : ∀ t ∈ ["top".toList, "left".toList],
    (diamond.row t).map diamond.builderVerdict = some (.ok .clean) := by
  decide +kernel

theorem diamond_loaded : loadPlanTargets diamond.base (encode "top\n# all\n/b/left".toList) =
    some {"top".toList, "left".toList} := by
  decide +kernel

theorem diamond_content : diamond.files diamond.planTargetsPath = some (encode "top\n# all\n/b/left".toList) := by
  decide +kernel

theorem diamond_noneChecked : NoneChecked diamond.runid diamond.db := by
  unfold NoneChecked
  decide

theorem diamond_plan : ∃ plan, diamond.computeBuildPlan ["top".toList] = .ok (some plan) ∧ plan.total = 2 := by
  obtain ⟨scope, hscope, hcompute⟩ :=
    computeBuildPlan_eq ["top".toList] diamond_content diamond_loaded
  have hmem : scope = {"top".toList, "left".toList} := by
    ext t
    rw [hscope, rootsOf, if_neg (by simp), diamond_inScope]
    simp
  rw [hcompute, if_neg (hmem ▸ Finset.insert_ne_empty _ _)]
  cases hcount : diamond.count (diamond.order scope) 0 0 {} with
  | error e =>
    obtain ⟨t, ht, f, hrow, hverdict⟩ :=
      count_error diamond_noneChecked Dirtiness.PlanCache.Sound.empty hcount
    have hclean := diamond_clean t (by simpa [hmem] using (diamond.order_mem scope t).mp ht)
    rw [hrow, Option.map_some, hverdict] at hclean
    cases hclean
  | ok n =>
    have htwo : ({"top".toList, "left".toList} : Finset Text).card = 2 := by decide
    exact ⟨_, rfl, (congrArg Finset.card hmem).trans htwo⟩

open Classical in
theorem build_plan_exact_diamond : ∃ scope : Finset Text,
    (∀ t, t ∈ scope ↔ InScope diamond.base diamond.files {"top".toList, "left".toList} ["top".toList] t) ∧
      ∃ plan, diamond.computeBuildPlan ["top".toList] = .ok (some plan) ∧ plan.total = scope.card ∧
        plan.uptodate = {t ∈ scope | diamond.FoundClean t}.card ∧
        plan.dirty = {t ∈ scope | ¬diamond.FoundClean t}.card := by
  obtain ⟨scope, hscope, -, -, hplan⟩ :=
    build_plan_exact ["top".toList] diamond_noneChecked diamond_content diamond_loaded
  obtain ⟨plan, hsome, -⟩ := diamond_plan
  obtain ⟨htotal, huptodate, hdirty, -⟩ := hplan plan hsome
  exact ⟨scope, hscope, plan, hsome, htotal, huptodate, hdirty⟩

end Planner
end Redo.Plan
