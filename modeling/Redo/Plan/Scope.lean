import Mathlib.Data.Finset.Card
import Mathlib.Data.List.Sort
import Redo.Library.Flooding
import Redo.Logs.Dependencies
import Redo.Logs.Lines
import Redo.Paths.Stripping

/-! # The scope of a plan

A generator lists its targets in a file. What a build of some of them may come to is read from the
generated scripts, which name their dependencies.
-/
namespace Redo.Plan
open Library Remote Cache Paths Logs Relation

/-- The lines with their ends, as `read_line` gives them; some are no text. -/
def readLines (content : List UInt8) : List (Option Text) :=
  ((wholeLines content).map (· ++ [NEWLINE]) ++
    if openLine content = [] then [] else [openLine content]).map decode

/-- A line of `plan.targets` without comment. -/
def planLine (line : Text) : Option Text :=
  let s := trim (line.rdropWhile fun c => c = '\n' || c = '\r')
  if s = [] ∨ s.head? = some '#' then none else some s

/-- A path by its name below the base; elsewhere it stays as it is. -/
def shorten (base s : Text) : Text :=
  if isAbsolute s then (stripPrefix s base).getD s else s

/-- Nothing if a line cannot be read. -/
def loadPlanTargets (base : Text) (content : List UInt8) : Option (Finset Text) :=
  ((readLines content).mapM id).map fun lines =>
    ((lines.filterMap planLine).map (shorten base)).toFinset

def GENERATED : Text := "Generated by CMake Redo generator".toList

/-- The words of a line that are dependencies, but for those with shell expansions. -/
def lineDeps (line : Text) : List Text :=
  let s := trimStart line
  if "redo-ifchange".toList.isPrefixOf s then
    (Dependencies.Plan.parseRedoIfchangeDeps s).filter fun d => ¬('$' ∈ d ∨ '`' ∈ d)
  else []

/-- The lines behind the first one, up to one that is no text. Only generated scripts are read, or
those whose first line is no text. -/
def scriptLines (content : List UInt8) : List Text :=
  match readLines content with
  | [] => []
  | some first :: rest =>
    if (splitOnce GENERATED first).isSome then (rest.takeWhile Option.isSome).reduceOption else []
  | none :: rest => (rest.takeWhile Option.isSome).reduceOption

section Scope
variable (base : Text) (files : Text → Option (List UInt8)) (planAll : Finset Text)

def depsFromDofile (outputRel : Text) : List Text :=
  match files (push base (outputRel ++ ".do".toList)) with
  | none => []
  | some content =>
    ((((scriptLines content).flatMap lineDeps).filterMap (relativeTo base)).filter
      (· ∈ planAll)).insertionSort (· ≤ ·) |>.dedup

def rootKey (r : Text) : Option Text :=
  let s := trim r
  if s = [] then none else (relativeTo base s).filter (· ∈ planAll)

/-- The dependencies that the search follows. -/
def scopeDeps (k : Text) : List Text := (depsFromDofile base files planAll k).filter (· ∈ planAll)

def computePlanScope (roots : List Text) : Option (List Text) :=
  let rootKeys := roots.filterMap (rootKey base planAll)
  if rootKeys = [] then some []
  else flood (scopeDeps base files planAll) planAll.card (enter rootKeys []) (enter rootKeys [])

/-- A generated script names the target as a dependency. -/
def DependsOn (k d : Text) : Prop :=
  ∃ content, files (push base (k ++ ".do".toList)) = some content ∧
    ∃ line ∈ scriptLines content, ∃ w ∈ lineDeps line, relativeTo base w = some d

/-- What a build of the roots may come to: planned targets, each a dependency of the one before. -/
def InScope (roots : List Text) (t : Text) : Prop :=
  ∃ r ∈ roots, ∃ k, rootKey base planAll r = some k ∧
    ReflTransGen (fun k d => DependsOn base files k d ∧ d ∈ planAll) k t

end Scope

variable {base : Text} {files : Text → Option (List UInt8)} {planAll : Finset Text} {roots : List Text}
  {k d t : Text}

theorem mem_scopeDeps : d ∈ scopeDeps base files planAll k ↔ DependsOn base files k d ∧ d ∈ planAll := by
  unfold scopeDeps depsFromDofile DependsOn
  cases files (push base (k ++ ".do".toList)) with
  | none => simp
  | some content =>
    simp only [List.mem_filter, List.mem_dedup, List.mem_insertionSort, List.mem_filterMap,
      List.mem_flatMap, decide_eq_true_eq, Option.some.injEq, exists_eq_left']
    grind

theorem rootKey_spec (h : rootKey base planAll t = some k) :
    trim t ≠ [] ∧ relativeTo base (trim t) = some k := by
  unfold rootKey at h
  simp only at h
  split at h
  · cases h
  · rename_i htrim
    exact ⟨htrim, (Option.filter_eq_some_iff.mp h).1⟩

theorem rootKey_mem (h : rootKey base planAll t = some k) : k ∈ planAll := by
  unfold rootKey at h
  simp only at h
  split at h
  · cases h
  · simpa using (Option.filter_eq_some_iff.mp h).2

/-- The search ends, and it finds the scope. -/
theorem computePlanScope_iff (base : Text) (files : Text → Option (List UInt8)) (planAll : Finset Text)
    (roots : List Text) : ∃ scope, computePlanScope base files planAll roots = some scope ∧
      scope.Nodup ∧ ∀ t, t ∈ scope ↔ InScope base files planAll roots t := by
  have hroots : roots.filterMap (rootKey base planAll) ⊆ planAll.toList := by
    intro k hk
    obtain ⟨r, -, hr⟩ := List.mem_filterMap.mp hk
    exact Finset.mem_toList.mpr (rootKey_mem hr)
  have hdeps : ∀ k, scopeDeps base files planAll k ⊆ planAll.toList := fun k d hd =>
    Finset.mem_toList.mpr (mem_scopeDeps.mp hd).2
  have hnext : Next (scopeDeps base files planAll) = fun k d => DependsOn base files k d ∧ d ∈ planAll := by
    ext k d
    exact mem_scopeDeps
  have hin : ∀ t, InScope base files planAll roots t ↔ ∃ k ∈ roots.filterMap (rootKey base planAll),
      ReflTransGen (Next (scopeDeps base files planAll)) k t := by
    intro t
    simp only [InScope, List.mem_filterMap, hnext]
    grind
  obtain ⟨scope, hscope, hnodup, hmem⟩ := flood_iff hroots hdeps (Finset.length_toList planAll).le
  unfold computePlanScope
  by_cases hnil : roots.filterMap (rootKey base planAll) = []
  · refine ⟨[], by simp [hnil], List.nodup_nil, fun t => ?_⟩
    rw [hin, hnil]
    simp
  · refine ⟨scope, ?_, hnodup, fun t => (hmem t).trans (hin t).symm⟩
    rw [if_neg hnil]
    exact hscope

end Redo.Plan
