import Mathlib.Data.Char
import Mathlib.Data.List.Dedup
import Mathlib.Data.List.Lex
import Mathlib.Data.List.Sort
import Redo.Remote.Json

/-! # Reads that are not declared

A trace is judged against the declared dependencies under one base: paths elsewhere, and
those under `.redo`, are left out.
-/
namespace Redo.Cache
open Remote

/-- The components of a path, as `std::path` gives them. -/
inductive Component where
  | rootDir
  | curDir
  | parentDir
  | normal (name : Text)
deriving DecidableEq, Repr

def component (part : Text) : Option Component :=
  if part = [] ∨ part = ['.'] then none
  else if part = ['.', '.'] then some .parentDir
  else some (.normal part)

/-- A dot counts only at the front of a relative path. -/
def components (path : Text) : List Component :=
  let parts := path.splitOn '/'
  let front := if path.head? = some '/' then [Component.rootDir]
    else if parts.head? = some ['.'] then [.curDir] else []
  front ++ parts.filterMap component

/-- A path by its parts: an absolute one begins with the part `/`. -/
abbrev Parts := List Text

def normalizeStep (parts : Parts) : Component → Parts
  | .rootDir => [['/']]
  | .curDir => parts
  | .parentDir => if parts.length > 1 then parts.dropLast else parts
  | .normal name => parts ++ [name]

def normalizePathLex (path : Text) : Parts := (components path).foldl normalizeStep []

def isAbsolute (path : Text) : Bool := path.head? = some '/'

def join (base path : Text) : Text := if isAbsolute path then path else base ++ '/' :: path

def Component.text : Component → Text
  | .rootDir => ['/']
  | .curDir => ['.']
  | .parentDir => ['.', '.']
  | .normal name => name

/-- `starts_with` goes by whole components. -/
def startsWith (parts : Parts) (base : Text) : Bool :=
  ((components base).map Component.text).isPrefixOf parts

/-- What is left of the path behind the base. -/
def stripBase (parts : Parts) (base : Text) : Text :=
  ['/'].intercalate (parts.drop (components base).length)

structure StrictReadTraceResult where
  traceOk : Bool
  traceReason : Text
  violations : List Text
deriving DecidableEq, Repr

/-- The reason that a marker gives for an incomplete trace. -/
def marker (e : Text) : Option Text :=
  if "TRACE_UNAVAILABLE:".toList.isPrefixOf e then some (e.drop 18)
  else if "TRACE_ERROR:".toList.isPrefixOf e then some (e.drop 12)
  else if "UNRESOLVED:".toList.isPrefixOf e then some "unresolved".toList
  else none

def redoDir (base : Text) : Parts := normalizePathLex (join base ".redo".toList)

def allowedPath (base name : Text) : Option Parts :=
  if name = "//ALWAYS".toList then none
  else
    let abs := normalizePathLex (join base name)
    if (redoDir base).isPrefixOf abs then none else some abs

def observedPath (base e : Text) : Option Parts :=
  if e = [] ∨ (marker e).isSome then none
  else
    let abs := if isAbsolute e then normalizePathLex e else normalizePathLex (join base e)
    if (redoDir base).isPrefixOf abs then none
    else if startsWith abs base then some abs else none

/-- Of the declared dependencies only the names matter. -/
def evaluateStrictReadtrace (base : Text) (declared traceEntries : List Text) :
    StrictReadTraceResult where
  traceOk := traceEntries.all fun e => (marker e).isNone
  traceReason := ((traceEntries.filterMap marker).find? fun reason => !reason.isEmpty).getD []
  violations :=
    ((((traceEntries.filterMap (observedPath base)).dedup.filter fun p =>
      p ∉ declared.filterMap (allowedPath base)).map fun p => stripBase p base).insertionSort
        (· ≤ ·)).dedup

/-- The trace is complete, and every read under the base is declared. -/
def Clean (base : Text) (declared traceEntries : List Text) : Prop :=
  (evaluateStrictReadtrace base declared traceEntries).traceOk = true ∧
    (evaluateStrictReadtrace base declared traceEntries).violations = []

instance (base : Text) (declared traceEntries : List Text) :
    Decidable (Clean base declared traceEntries) := inferInstanceAs (Decidable (_ ∧ _))

theorem dedup_eq_nil {l : List Text} : l.dedup = [] ↔ l = [] := by
  constructor
  · intro h
    apply List.eq_nil_iff_forall_not_mem.mpr
    intro x hx
    have hmem := List.mem_dedup.mpr hx
    rw [h] at hmem
    cases hmem
  · rintro rfl
    rfl

theorem insertionSort_eq_nil {l : List Text} : l.insertionSort (· ≤ ·) = [] ↔ l = [] := by
  rw [← List.length_eq_zero_iff, List.length_insertionSort, List.length_eq_zero_iff]

/-- No entry is a marker, and each path that counts is that of a declared name. -/
theorem clean_iff (base : Text) (declared traceEntries : List Text) :
    Clean base declared traceEntries ↔ (∀ e ∈ traceEntries, marker e = none) ∧
      ∀ e ∈ traceEntries, ∀ p, observedPath base e = some p →
        ∃ name ∈ declared, allowedPath base name = some p := by
  apply and_congr
  · simp [evaluateStrictReadtrace]
  · simp only [evaluateStrictReadtrace, dedup_eq_nil, insertionSort_eq_nil, List.map_eq_nil_iff,
      List.filter_eq_nil_iff, List.mem_dedup, List.mem_filterMap, decide_eq_true_eq, not_not]
    constructor
    · intro h e he p hp
      exact h p ⟨e, he, hp⟩
    · rintro h p ⟨e, he, hp⟩
      exact h e he p hp

/-- The order of the declarations, and how often one is made, do not matter. -/
theorem Clean.congr {base : Text} {declared declared' traceEntries : List Text}
    (h : Clean base declared traceEntries) (hsame : ∀ name, name ∈ declared → name ∈ declared') :
    Clean base declared' traceEntries := by
  rw [clean_iff] at h ⊢
  refine ⟨h.1, fun e he p hp => ?_⟩
  obtain ⟨name, hname, hallowed⟩ := h.2 e he p hp
  exact ⟨name, hsame name hname, hallowed⟩

end Redo.Cache
