import Redo.Logs.MetaLines
import Redo.Logs.Progress
import Redo.Plan.Counts

/-! # The planned steps of `redo-log`

`redo-log` works out the scope of a plan by itself, with full names in place of those below the base,
and takes the whole plan when it comes to too much.
-/
namespace Redo.Plan
open Library Remote Cache Paths Logs Relation

/-- A target by its full name. -/
def fullName (base t : Text) : Text := normalize (push base t)

namespace Log

def loadPlanTargets (base : Text) (content : List UInt8) : Option (Finset Text) :=
  ((readLines content).mapM id).map fun lines =>
    ((lines.filterMap planLine).map (fullName base)).toFinset

section Scope
variable (base : Text) (files : Text → Option (List UInt8)) (planAll : Finset Text)

def depsFromDofile (outputKey : Text) : List Text :=
  match files (outputKey ++ ".do".toList) with
  | none => []
  | some content => ((scriptLines content).flatMap lineDeps).map (shorten base)

def scopeDeps (k : Text) : List Text :=
  ((depsFromDofile base files k).map (fullName base)).filter (· ∈ planAll)

/-- The cap is also as many points as can be taken out before it is reached. -/
def computePlanScope (roots : List Text) : Finset Text :=
  let rootKeys := (roots.map (fullName base)).filter (· ∈ planAll)
  let maxScope := min planAll.card 4096
  if rootKeys = [] then planAll
  else
    ((floodWithin (scopeDeps base files planAll) maxScope maxScope (enter rootKeys [])
      (enter rootKeys [])).map List.toFinset).getD planAll

/-- `planned_steps`, by the value of `REDO_LOG_TOP_TARGETS`. -/
def plannedSteps (value : Option Text) : Option (Finset Text) :=
  value.bind fun v =>
    let roots := ((v.splitOn '\n').map trim).filter (· ≠ [])
    (files (push (push base ".redo".toList) "plan.targets".toList)).bind fun content =>
      (loadPlanTargets base content).bind fun planAll =>
        if planAll = ∅ then none
        else if "all".toList ∈ roots ∨ roots = [] then some planAll
        else some (computePlanScope base files planAll roots)

end Scope
end Log

/-- `REDO_LOG_TOP_TARGETS`, as `redo` sets it. -/
def topTargets (targets : List Text) : Text := ['\n'].intercalate (Planner.rootsOf targets)

/-- Without links there is one file at one place. -/
def Linkless (files : Text → Option (List UInt8)) : Prop :=
  ∀ path path', isAbsolute path = true → isAbsolute path' = true → place path = place path' →
    files path = files path'

variable {base path : Text} {files : Text → Option (List UInt8)} {planAll : Finset Text}
  {content : List UInt8} {targets : List Text} {k d t s : Text}

theorem foldl_normalizeComponent {here : List Text} (hhere : ∀ n ∈ here, IsName n)
    {l : List (Move Text)} (hl : Proper l) :
    (l.map asComponent).foldl normalizeComponent (here, true) = (walk here l, true) := by
  induction l generalizing here with
  | nil => rfl
  | cons m l ih =>
    have hrest : Proper l := fun name hname => hl name (List.mem_cons_of_mem m hname)
    rw [List.map_cons, List.foldl_cons]
    cases m with
    | up =>
      have hstep : normalizeComponent (here, true) .parentDir = (here.dropLast, true) := by
        rw [normalizeComponent]
        by_cases hnil : here = []
        · simp [hnil]
        · have hdots : here.getLast? ≠ some ['.', '.'] := fun hlast =>
            (hhere _ (List.mem_of_getLast? hlast)).ne_dots rfl
          rw [if_pos ⟨hnil, hdots⟩]
      rw [asComponent, hstep]
      exact ih (fun n hn => hhere n ((List.dropLast_sublist here).subset hn)) hrest
    | down name =>
      refine ih (fun n hn => ?_) hrest
      rcases List.mem_append.mp hn with hmem | hmem
      · exact hhere n hmem
      · rw [List.mem_singleton.mp hmem]
        exact hl name List.mem_cons_self

theorem normalize_absolute (h : isAbsolute path = true) :
    normalize path = '/' :: ['/'].intercalate (place path) := by
  have hfold := @foldl_normalizeComponent [] (by simp) (moves path) (proper_moves path)
  rw [Logs.normalize, components_absolute h, List.foldl_cons]
  simp [normalizeComponent, hfold, place]

theorem fullName_eq (hbase : isAbsolute base = true) (t : Text) :
    fullName base t = '/' :: ['/'].intercalate (place (push base t)) :=
  normalize_absolute (isAbsolute_push hbase t)

theorem fullName_congr (hbase : isAbsolute base = true) (h : moves (push base t) = moves (push base s)) :
    fullName base t = fullName base s := by
  rw [fullName_eq hbase, fullName_eq hbase, place, place, h]

theorem fullName_shorten (hbase : isAbsolute base = true) (s : Text) :
    fullName base (shorten base s) = fullName base s := by
  unfold shorten
  split
  · rename_i habs
    cases hstrip : stripPrefix s base with
    | none => rfl
    | some d =>
      refine fullName_congr hbase ?_
      rw [Option.getD_some, moves_push_stripPrefix hbase hstrip, push_absolute habs]
  · rfl

theorem shorten_of_relativeTo (h : relativeTo base s = some d) : shorten base s = d := by
  unfold relativeTo at h
  unfold shorten
  split
  · rename_i habs
    rw [if_pos habs] at h
    rw [h, Option.getD_some]
  · rename_i habs
    rw [if_neg habs] at h
    exact Option.some.inj h

theorem isName_do (h : IsName s) : IsName (s ++ ".do".toList) where
  ne_nil := by simp
  slash := by simpa using h.slash
  ne_dot heq := by simpa using congrArg List.getLast? heq
  ne_dots heq := by simpa using congrArg List.getLast? heq

/-- The script of a target stands beside it. -/
theorem moves_do (hbase : isAbsolute base = true) (h : IsName (filePart k)) :
    ∃ l f, IsName f ∧ moves (push base k) = l ++ [.down f] ∧
      moves (push base (k ++ ".do".toList)) = l ++ [.down (f ++ ".do".toList)] := by
  have hdo := isName_do h
  have hparts : ∃ l, moves k = l ++ [.down (filePart k)] ∧
      moves (k ++ ".do".toList) = l ++ [.down (filePart k ++ ".do".toList)] := by
    obtain ⟨dir, -, ⟨-, hk⟩ | hk⟩ := ownDoFile_eq k base
    · refine ⟨[], ?_, ?_⟩
      · conv_lhs => rw [hk]
        exact moves_of_isName h
      · conv_lhs => rw [hk]
        exact moves_of_isName hdo
    · refine ⟨moves dir, ?_, ?_⟩
      · conv_lhs => rw [hk]
        rw [moves_join, moves_of_isName h]
      · conv_lhs => rw [hk]
        rw [List.append_assoc, List.cons_append, moves_join, moves_of_isName hdo]
  obtain ⟨l, hk, hkdo⟩ := hparts
  have hhead : isAbsolute (k ++ ".do".toList) = isAbsolute k := by
    cases k with
    | nil => exact absurd rfl h.ne_nil
    | cons c rest => rfl
  by_cases habs : isAbsolute k = true
  · exact ⟨l, _, h, by rw [push_absolute habs, hk], by rw [push_absolute (hhead.trans habs), hkdo]⟩
  · have hrel : isAbsolute k = false := by simpa using habs
    refine ⟨moves base ++ l, _, h, ?_, ?_⟩
    · rw [moves_push hbase hrel, hk, List.append_assoc]
    · rw [moves_push hbase (hhead.trans hrel), hkdo, List.append_assoc]

/-- Both programs read the same script. -/
theorem files_do (hbase : isAbsolute base = true) (hfiles : Linkless files) (h : IsName (filePart k)) :
    files (push base (k ++ ".do".toList)) = files (fullName base k ++ ".do".toList) := by
  obtain ⟨l, f, hf, hk, hkdo⟩ := moves_do hbase h
  have hproper : ∀ n ∈ walk [] l, IsName n := by
    intro n hn
    refine isName_of_mem_walk (fun name hname => ?_) hn
    exact isName_of_mem_moves (hk ▸ List.mem_append_left _ hname)
  have hname : fullName base k ++ ".do".toList =
      '/' :: ['/'].intercalate (walk [] l ++ [f ++ ".do".toList]) := by
    rw [fullName_eq hbase, place, hk, walk_append]
    change '/' :: ['/'].intercalate (walk [] l ++ [f]) ++ _ = _
    by_cases hnil : walk [] l = []
    · simp [hnil]
    · rw [intercalate_append_singleton hnil, intercalate_append_singleton hnil]
      simp
  have hdo : ∀ n ∈ walk [] l ++ [f ++ ".do".toList], IsName n := by
    intro n hn
    rcases List.mem_append.mp hn with hmem | hmem
    · exact hproper n hmem
    · rw [List.mem_singleton.mp hmem]
      exact isName_do hf
  rw [hname]
  refine hfiles _ _ (isAbsolute_push hbase _) rfl ?_
  rw [place, place, hkdo, moves_cons_slash, moves_intercalate hdo, walk_append, walk_downs]
  rfl

theorem loadPlanTargets_log (hbase : isAbsolute base = true) (h : loadPlanTargets base content = some planAll) :
    Log.loadPlanTargets base content = some (planAll.image (fullName base)) := by
  obtain ⟨lines, hlines, rfl⟩ := Option.map_eq_some_iff.mp h
  rw [Log.loadPlanTargets, hlines, Option.map_some]
  congr 1
  ext x
  simp only [List.mem_toFinset, List.mem_map, Finset.mem_image]
  constructor
  · rintro ⟨s, hs, rfl⟩
    exact ⟨_, ⟨s, hs, rfl⟩, fullName_shorten hbase s⟩
  · rintro ⟨-, ⟨s, hs, rfl⟩, rfl⟩
    exact ⟨s, hs, (fullName_shorten hbase s).symm⟩

theorem mem_scopeDeps_log (hbase : isAbsolute base = true) (hfiles : Linkless files)
    (hnamed : IsName (filePart k)) (h : DependsOn base files k d) (hd : d ∈ planAll) :
    fullName base d ∈ Log.scopeDeps base files (planAll.image (fullName base)) (fullName base k) := by
  obtain ⟨content, hcontent, line, hline, w, hw, hrel⟩ := h
  rw [files_do hbase hfiles hnamed] at hcontent
  have hmem : d ∈ Log.depsFromDofile base files (fullName base k) := by
    rw [Log.depsFromDofile, hcontent]
    exact List.mem_map.mpr ⟨w, List.mem_flatMap.mpr ⟨line, hline, hw⟩, shorten_of_relativeTo hrel⟩
  rw [Log.scopeDeps, List.mem_filter]
  exact ⟨List.mem_map_of_mem hmem, by simpa using ⟨d, hd, rfl⟩⟩

/-- What is in the scope for `redo` can be reached for `redo-log`. -/
theorem inScope_log (hbase : isAbsolute base = true) (hfiles : Linkless files)
    (hnamed : ∀ k ∈ planAll, IsName (filePart k)) (hk : k ∈ planAll)
    (h : ReflTransGen (fun k d => DependsOn base files k d ∧ d ∈ planAll) k t) :
    ReflTransGen (Next (Log.scopeDeps base files (planAll.image (fullName base)))) (fullName base k)
      (fullName base t) ∧ t ∈ planAll := by
  induction h with
  | refl => exact ⟨.refl, hk⟩
  | tail _ hstep ih =>
    obtain ⟨hpath, hmem⟩ := ih
    exact ⟨hpath.tail (mem_scopeDeps_log hbase hfiles (hnamed _ hmem) hstep.1 hstep.2), hstep.2⟩

theorem computePlanScope_log {roots : List Text} {root : Text} (hbase : isAbsolute base = true)
    (hfiles : Linkless files) (hnamed : ∀ k ∈ planAll, IsName (filePart k)) (hk : k ∈ planAll)
    (hroot : root ∈ roots) (hname : fullName base root = fullName base k)
    (h : ReflTransGen (fun k d => DependsOn base files k d ∧ d ∈ planAll) k t) :
    fullName base t ∈ Log.computePlanScope base files (planAll.image (fullName base)) roots := by
  obtain ⟨hpath, ht⟩ := inScope_log hbase hfiles hnamed hk h
  have hall : fullName base t ∈ planAll.image (fullName base) := Finset.mem_image_of_mem _ ht
  have hkey : fullName base k ∈ (roots.map (fullName base)).filter
      (· ∈ planAll.image (fullName base)) := by
    rw [List.mem_filter]
    exact ⟨hname ▸ List.mem_map_of_mem hroot, by simpa using ⟨k, hk, rfl⟩⟩
  unfold Log.computePlanScope
  dsimp only
  split
  · exact hall
  · cases hfound : floodWithin (Log.scopeDeps base files (planAll.image (fullName base))) _ _ _ _ with
    | none => exact hall
    | some found =>
      have hdone := (flooded_enter _ _).within hfound
      simpa using (hdone.mem_iff _).mpr ⟨_, hkey, hpath⟩

/-- A word of the message. -/
def countWord (name : String) (n : ℕ) : Text := name.toList ++ '=' :: Nat.toDigits 10 n

/-- The message of the plan in the log. -/
def BuildPlan.msg (plan : BuildPlan) : Text :=
  countWord "dirty" plan.dirty ++ ' ' ::
    (countWord "total" plan.total ++ ' ' :: countWord "uptodate" plan.uptodate)

theorem not_space_countWord {name : String} (hname : name.toList.all fun c => !isSpace c) (n : ℕ) :
    ∀ c ∈ countWord name n, isSpace c = false := by
  intro c hc
  rw [countWord, List.mem_append, List.mem_cons] at hc
  rcases hc with hc | rfl | hc
  · exact not_space_of_all hname c hc
  · decide
  · exact isDigit_not_space (isDigit_toDigits hc)

theorem parsePlanMeta_msg (plan : BuildPlan) (hd : plan.dirty < 18446744073709551616)
    (ht : plan.total < 18446744073709551616) (hu : plan.uptodate < 18446744073709551616) :
    parsePlanMeta plan.msg = some (plan.dirty, plan.total, plan.uptodate) := by
  have hsplit : ∀ (name : String) (n : ℕ), '=' ∉ name.toList →
      splitOnce ['='] (countWord name n) = some (name.toList, Nat.toDigits 10 n) := fun name n hname =>
    splitOnce_append hname [] _
  have hwords : Downloads.splitWhitespace plan.msg =
      [countWord "dirty" plan.dirty, countWord "total" plan.total, countWord "uptodate" plan.uptodate] := by
    have hlast : (countWord "uptodate" plan.uptodate).splitOnP isSpace = [countWord "uptodate" plan.uptodate] :=
      List.splitOnP_eq_singleton (not_space_countWord (by decide) _)
    rw [BuildPlan.msg, Downloads.splitWhitespace,
      List.splitOnP_append_cons_of_forall_mem (not_space_countWord (by decide) _) ' ' (by decide),
      List.splitOnP_append_cons_of_forall_mem (not_space_countWord (by decide) _) ' ' (by decide), hlast]
    simp [countWord]
  have htd : "total".toList ≠ "dirty".toList := by decide
  have hud : "uptodate".toList ≠ "dirty".toList := by decide
  have hut : "uptodate".toList ≠ "total".toList := by decide
  rw [parsePlanMeta, hwords]
  simp only [List.foldl_cons, List.foldl_nil, planWord, hsplit "dirty" _ (by decide),
    hsplit "total" _ (by decide), hsplit "uptodate" _ (by decide), parseUsize,
    parseUnsigned_toDigits hd, parseUnsigned_toDigits ht, parseUnsigned_toDigits hu, if_true,
    if_neg htd, if_neg hud, if_neg hut, Option.bind_some, Option.map_some]

theorem trimEnd_msg (plan : BuildPlan) : trimEnd plan.msg = plan.msg := by
  obtain ⟨digits, c, hdigits⟩ : ∃ digits c, Nat.toDigits 10 plan.uptodate = digits ++ [c] :=
    ⟨_, _, (List.dropLast_append_getLast Nat.toDigits_ne_nil).symm⟩
  have hc : isSpace c = false := by
    refine isDigit_not_space (@isDigit_toDigits plan.uptodate c ?_)
    simp [hdigits]
  obtain ⟨front, hfront⟩ : ∃ front, plan.msg = front ++ [c] := by
    refine ⟨countWord "dirty" plan.dirty ++ ' ' ::
      (countWord "total" plan.total ++ ' ' :: ("uptodate".toList ++ '=' :: digits)), ?_⟩
    simp [BuildPlan.msg, countWord, hdigits]
  rw [hfront, trimEnd_of_last hc]

/-- The line of the plan sets the three totals. -/
theorem read_plan (plan : BuildPlan) (hd : plan.dirty < 18446744073709551616)
    (ht : plan.total < 18446744073709551616) (hu : plan.uptodate < 18446744073709551616) {pid : ℕ}
    (hpid : pid < 4294967296) (time : ℕ) (topdir mydir : Text) (p : Progress) :
    p.read topdir (mydir, metaRaw "plan".toList pid time plan.msg) =
      p.setPlanTotals plan.dirty plan.total plan.uptodate := by
  have hparse : parseRedoMetaLine (metaRaw "plan".toList pid time plan.msg) =
      some ⟨"plan".toList, pid, trimEnd plan.msg⟩ := parse_metaRaw (by decide) (by decide) hpid
  rw [Progress.read, news, hparse, Option.bind_some, MetaLine.news, if_pos rfl, trimEnd_msg,
    parsePlanMeta_msg plan hd ht hu]
  rfl

/-- `redo-log` leaves out nothing that `redo` has in its plan, whether it comes to the end of its
search or takes the whole plan. -/
theorem planned_covers (hbase : isAbsolute base = true) (hfiles : Linkless files)
    (hcontent : files (push (push base ".redo".toList) "plan.targets".toList) = some content)
    (hplan : loadPlanTargets base content = some planAll) (hne : planAll ≠ ∅)
    (hnamed : ∀ k ∈ planAll, IsName (filePart k)) (hlines : ∀ t ∈ targets, '\n' ∉ t) :
    ∃ steps, Log.plannedSteps base files (some (topTargets targets)) = some steps ∧
      ∀ t, InScope base files planAll (Planner.rootsOf targets) t → fullName base t ∈ steps := by
  have hsplit : (topTargets targets).splitOn '\n' = Planner.rootsOf targets := by
    refine List.splitOn_intercalate _ ?_ ?_
    · unfold Planner.rootsOf
      split
      · simp
      · exact hlines
    · unfold Planner.rootsOf
      split
      · simp
      · assumption
  have himage : planAll.image (fullName base) ≠ ∅ := by
    rwa [ne_eq, Finset.image_eq_empty]
  have hall : ∀ t, InScope base files planAll (Planner.rootsOf targets) t →
      fullName base t ∈ planAll.image (fullName base) := by
    rintro t ⟨r, -, k, hkey, hpath⟩
    exact Finset.mem_image_of_mem _ (inScope_log hbase hfiles hnamed (rootKey_mem hkey) hpath).2
  simp only [Log.plannedSteps, Option.bind_some, hcontent, loadPlanTargets_log hbase hplan, hsplit,
    if_neg himage]
  split
  · exact ⟨_, rfl, hall⟩
  · refine ⟨_, rfl, ?_⟩
    rintro t ⟨r, hr, k, hkey, hpath⟩
    obtain ⟨htrim, hrel⟩ := rootKey_spec hkey
    have hroot : trim r ∈ ((Planner.rootsOf targets).map trim).filter (· ≠ []) := by
      rw [List.mem_filter]
      exact ⟨List.mem_map_of_mem hr, by simpa using htrim⟩
    have hname : fullName base (trim r) = fullName base k :=
      (fullName_congr hbase (moves_push_relativeTo hbase hrel)).symm
    exact computePlanScope_log hbase hfiles hnamed (rootKey_mem hkey) hroot hname hpath

/-- What `redo` counts and what `redo-log` shows: with the line of the plan come the three numbers as
they were, and all targets that are counted are among the planned steps. -/
theorem plan_reported {w : Planner} (hchecked : Dirtiness.NoneChecked w.runid w.db)
    (hbase : isAbsolute w.base = true) (hfiles : Linkless w.files)
    (hcontent : w.files w.planTargetsPath = some content)
    (hplan : loadPlanTargets w.base content = some planAll) (hnamed : ∀ k ∈ planAll, IsName (filePart k))
    (hlines : ∀ t ∈ targets, '\n' ∉ t) {plan : BuildPlan} (hok : w.computeBuildPlan targets = .ok (some plan))
    (hsize : plan.total < 18446744073709551616) {pid : ℕ} (hpid : pid < 4294967296) :
    ∃ steps, Log.plannedSteps w.base w.files (some (topTargets targets)) = some steps ∧
      (∀ t, InScope w.base w.files planAll (Planner.rootsOf targets) t → fullName w.base t ∈ steps) ∧
      ∀ time topdir mydir, Progress.read topdir { plannedSteps := some steps }
          (mydir, metaRaw "plan".toList pid time plan.msg) =
        { plannedSteps := some steps, planDirtyTotal := some plan.dirty, planTotal := some plan.total,
          planUptodateTotal := some plan.uptodate } := by
  obtain ⟨scope, hscope, hcompute⟩ := Planner.computeBuildPlan_eq targets hcontent hplan
  rw [hcompute] at hok
  split at hok
  · cases hok
  rename_i hscope_ne
  obtain ⟨n, hcount, rfl⟩ : ∃ n, w.count (w.order scope) 0 0 {} = .ok n ∧
      plan = ⟨n.1, scope.card, n.2.1, n.2.2.checked⟩ := by
    cases hcount : w.count (w.order scope) 0 0 {} with
    | error e =>
      rw [hcount] at hok
      cases hok
    | ok n =>
      rw [hcount] at hok
      cases hok
      exact ⟨n, rfl, rfl⟩
  obtain ⟨hsum, -⟩ := Planner.count_ok hchecked Dirtiness.PlanCache.Sound.empty hcount
  rw [Planner.order_length] at hsum
  have hne : planAll ≠ ∅ := by
    rintro rfl
    refine hscope_ne (Finset.eq_empty_of_forall_notMem fun t ht => ?_)
    obtain ⟨r, -, k, hkey, -⟩ := (hscope t).mp ht
    simpa using rootKey_mem hkey
  obtain ⟨steps, hsteps, hcovers⟩ := planned_covers hbase hfiles hcontent hplan hne hnamed hlines
  refine ⟨steps, hsteps, hcovers, fun time topdir mydir => ?_⟩
  have hle : n.1 ≤ scope.card ∧ n.2.1 ≤ scope.card := by omega
  exact read_plan _ (by simp only at hsize ⊢; omega) hsize (by simp only at hsize ⊢; omega) hpid time topdir mydir _

namespace Planner

theorem diamond_linkless : Linkless diamond.files := fun path path' _ _ h => by
  simp only [diamond, h]

theorem plan_reported_diamond : ∃ steps,
    Log.plannedSteps diamond.base diamond.files (some (topTargets ["top".toList])) = some steps ∧
      "/b/left".toList ∈ steps := by
  obtain ⟨plan, hplan, htotal⟩ := diamond_plan
  obtain ⟨steps, hsteps, hcovers, -⟩ := plan_reported diamond_noneChecked (by decide +kernel)
    diamond_linkless diamond_content diamond_loaded (by decide +kernel) (by decide) hplan
    (by rw [htotal]; decide) (show 7 < 4294967296 by decide)
  refine ⟨steps, hsteps, hcovers "left".toList ?_⟩
  exact (diamond_inScope _).mpr (by simp)

end Planner
end Redo.Plan
