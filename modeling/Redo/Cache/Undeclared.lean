import Redo.Paths.Names

/-! # What a strict evaluation reports

The paths of a trace are compared as places. A place under the base is reported, by the names
below the base, unless it is under `.redo` or the place of a declared name.
-/
namespace Redo.Cache
open Library Remote Paths

/-- An entry that says that reads are missing from the trace. -/
def Marks (e : Text) : Prop :=
  "TRACE_UNAVAILABLE:".toList <+: e ∨ "TRACE_ERROR:".toList <+: e ∨ "UNRESOLVED:".toList <+: e

/-- A path in the trace that is not declared, by the names below the base. -/
structure Read (base : Directory) (declared traceEntries : List Text) (names : List Text) : Prop where
  entry : ∃ e ∈ traceEntries, e ≠ [] ∧ ¬Marks e ∧ place (join base.path e) = base.names ++ names
  outside : names.head? ≠ some ".redo".toList
  undeclared : ∀ name ∈ declared, name ≠ "//ALWAYS".toList →
    place (join base.path name) ≠ base.names ++ names

variable {base : Directory} {declared traceEntries : List Text} {e name : Text} {p : Parts}

theorem marker_isSome_iff (e : Text) : (marker e).isSome = true ↔ Marks e := by
  unfold marker Marks
  simp only [List.isPrefixOf_iff_prefix]
  split_ifs with h1 h2 h3
  · exact iff_of_true rfl (Or.inl h1)
  · exact iff_of_true rfl (Or.inr (Or.inl h2))
  · exact iff_of_true rfl (Or.inr (Or.inr h3))
  · refine iff_of_false Bool.false_ne_true ?_
    rintro (h | h | h)
    · exact h1 h
    · exact h2 h
    · exact h3 h

theorem normalizePathLex_join (base : Directory) (t : Text) :
    normalizePathLex (join base.path t) = ['/'] :: place (join base.path t) :=
  normalizePathLex_absolute (isAbsolute_join base.isAbsolute_path t)

theorem redoDir_eq (base : Directory) :
    redoDir base.path = ['/'] :: (base.names ++ [".redo".toList]) := by
  rw [redoDir, normalizePathLex_join, join, if_neg (by decide), place, base.moves_join_path,
    walk_append, walk_downs]
  rfl

theorem redoDir_isPrefixOf (base : Directory) (names : List Text) :
    (redoDir base.path).isPrefixOf (['/'] :: (base.names ++ names)) = true ↔
      names.head? = some ".redo".toList := by
  rw [List.isPrefixOf_iff_prefix, redoDir_eq, List.cons_prefix_cons, List.prefix_append_right_inj]
  cases names with
  | nil => simp
  | cons a names => simp [List.cons_prefix_cons, eq_comm]

theorem components_path (base : Directory) :
    components base.path = .rootDir :: base.names.map .normal := by
  rw [components_absolute base.isAbsolute_path, base.moves_path, downs, List.map_map]
  rfl

theorem startsWith_iff (base : Directory) (names : List Text) :
    startsWith (['/'] :: names) base.path = true ↔ base.names <+: names := by
  have htext : (components base.path).map Component.text = ['/'] :: base.names := by
    rw [components_path, List.map_cons, List.map_map]
    congr 1
    exact List.map_id' base.names
  rw [startsWith, htext, List.isPrefixOf_iff_prefix, List.cons_prefix_cons]
  simp

theorem stripBase_eq (base : Directory) (names : List Text) :
    stripBase (['/'] :: (base.names ++ names)) base.path = ['/'].intercalate names := by
  have hlength : (components base.path).length = base.names.length + 1 := by
    rw [components_path, List.length_cons, List.length_map]
  rw [stripBase, hlength, List.drop_succ_cons, List.drop_left']
  rfl

/-- The reads that count. -/
theorem observedPath_iff : observedPath base.path e = some p ↔
    e ≠ [] ∧ ¬Marks e ∧ ∃ names, place (join base.path e) = base.names ++ names ∧
      names.head? ≠ some ".redo".toList ∧ p = ['/'] :: (base.names ++ names) := by
  have hlex : (if isAbsolute e then normalizePathLex e else normalizePathLex (join base.path e)) =
      ['/'] :: place (join base.path e) := by
    rw [← normalizePathLex_join]
    unfold join
    split_ifs <;> rfl
  rw [observedPath, hlex]
  by_cases hskip : e = [] ∨ (marker e).isSome = true
  · rw [if_pos hskip]
    refine iff_of_false (by simp) ?_
    rintro ⟨hne, hmarks, -⟩
    rcases hskip with hnil | hmarker
    · exact hne hnil
    · exact hmarks ((marker_isSome_iff e).mp hmarker)
  · rw [if_neg hskip]
    rw [not_or, marker_isSome_iff] at hskip
    dsimp only
    by_cases hunder : base.names <+: place (join base.path e)
    · obtain ⟨names, hnames⟩ := hunder
      have hstarts : startsWith (['/'] :: (base.names ++ names)) base.path = true :=
        (startsWith_iff base _).mpr (List.prefix_append _ _)
      rw [← hnames, if_pos hstarts]
      constructor
      · intro h
        split_ifs at h with hredo
        refine ⟨hskip.1, hskip.2, names, rfl, ?_, (Option.some.inj h).symm⟩
        exact fun hhead => hredo ((redoDir_isPrefixOf base names).mpr hhead)
      · rintro ⟨-, -, names', hsame, hhead, rfl⟩
        obtain rfl := List.append_cancel_left hsame
        rw [if_neg fun hredo => hhead ((redoDir_isPrefixOf base names).mp hredo)]
    · have hstarts : ¬startsWith (['/'] :: place (join base.path e)) base.path = true :=
        fun h => hunder ((startsWith_iff base _).mp h)
      rw [if_neg hstarts]
      refine iff_of_false (by split_ifs <;> simp) ?_
      rintro ⟨-, -, names, hnames, -⟩
      exact hunder ⟨names, hnames.symm⟩

/-- The reads that are declared, of those that count. -/
theorem allowedPath_iff {names : List Text} (hhead : names.head? ≠ some ".redo".toList) :
    allowedPath base.path name = some (['/'] :: (base.names ++ names)) ↔
      name ≠ "//ALWAYS".toList ∧ place (join base.path name) = base.names ++ names := by
  rw [allowedPath, normalizePathLex_join]
  by_cases halways : name = "//ALWAYS".toList
  · rw [if_pos halways]
    exact iff_of_false (by simp) fun h => h.1 halways
  · rw [if_neg halways]
    constructor
    · intro h
      dsimp only at h
      split_ifs at h
      exact ⟨halways, (List.cons.inj (Option.some.inj h)).2⟩
    · rintro ⟨-, hsame⟩
      dsimp only
      rw [hsame, if_neg fun hredo => hhead ((redoDir_isPrefixOf base names).mp hredo)]

theorem mem_violations {v : Text} :
    v ∈ (evaluateStrictReadtrace base.path declared traceEntries).violations ↔
      ∃ names, Read base declared traceEntries names ∧ v = ['/'].intercalate names := by
  simp only [evaluateStrictReadtrace, List.mem_dedup, List.mem_insertionSort, List.mem_map,
    List.mem_filter, List.mem_filterMap, decide_eq_true_eq]
  constructor
  · rintro ⟨p, ⟨⟨e, he, hobserved⟩, hdeclared⟩, rfl⟩
    obtain ⟨hne, hmarks, names, hplace, hhead, rfl⟩ := observedPath_iff.mp hobserved
    refine ⟨names, ⟨⟨e, he, hne, hmarks, hplace⟩, hhead, ?_⟩, stripBase_eq base names⟩
    intro name hname halways hsame
    exact hdeclared ⟨name, hname, (allowedPath_iff hhead).mpr ⟨halways, hsame⟩⟩
  · rintro ⟨names, ⟨⟨e, he, hne, hmarks, hplace⟩, hhead, hundeclared⟩, rfl⟩
    refine ⟨['/'] :: (base.names ++ names), ⟨⟨e, he, ?_⟩, ?_⟩, stripBase_eq base names⟩
    · exact observedPath_iff.mpr ⟨hne, hmarks, names, hplace, hhead, rfl⟩
    · rintro ⟨name, hname, hallowed⟩
      obtain ⟨halways, hsame⟩ := (allowedPath_iff hhead).mp hallowed
      exact hundeclared name hname halways hsame

theorem violations_nodup :
    (evaluateStrictReadtrace base.path declared traceEntries).violations.Nodup :=
  List.nodup_dedup _

theorem violations_sorted :
    (evaluateStrictReadtrace base.path declared traceEntries).violations.Pairwise (· < ·) := by
  have hle : (evaluateStrictReadtrace base.path declared traceEntries).violations.Pairwise (· ≤ ·) :=
    (List.pairwise_insertionSort _ _).sublist (List.dedup_sublist _)
  exact (hle.and violations_nodup).imp fun h => lt_of_le_of_ne h.1 h.2

theorem Read.congr {declared' traceEntries' names : List Text}
    (h : Read base declared traceEntries names) (hdeclared : ∀ n, n ∈ declared' ↔ n ∈ declared)
    (htrace : ∀ e, e ∈ traceEntries' ↔ e ∈ traceEntries) :
    Read base declared' traceEntries' names := by
  obtain ⟨e, he, hentry⟩ := h.entry
  exact ⟨⟨e, (htrace e).mpr he, hentry⟩, h.outside,
    fun name hname => h.undeclared name ((hdeclared name).mp hname)⟩

/-- The trace counts as complete if it has no marker, and just the paths that are read under the
base without being declared are reported, each once and in order. How often and in which order
reads and declarations come does not matter. -/
theorem strict_evaluation (base : Directory) (declared traceEntries : List Text) :
    ((evaluateStrictReadtrace base.path declared traceEntries).traceOk = false ↔
        ∃ e ∈ traceEntries, Marks e) ∧
      (evaluateStrictReadtrace base.path declared traceEntries).violations.Pairwise (· < ·) ∧
      (∀ v, v ∈ (evaluateStrictReadtrace base.path declared traceEntries).violations ↔
        ∃ names, Read base declared traceEntries names ∧ v = ['/'].intercalate names) ∧
      ∀ declared' traceEntries' : List Text, (∀ n, n ∈ declared' ↔ n ∈ declared) →
        (∀ e, e ∈ traceEntries' ↔ e ∈ traceEntries) →
          (evaluateStrictReadtrace base.path declared' traceEntries').traceOk =
              (evaluateStrictReadtrace base.path declared traceEntries).traceOk ∧
            (evaluateStrictReadtrace base.path declared' traceEntries').violations =
              (evaluateStrictReadtrace base.path declared traceEntries).violations := by
  have hok : ∀ declared traceEntries,
      (evaluateStrictReadtrace base.path declared traceEntries).traceOk = false ↔
        ∃ e ∈ traceEntries, Marks e := by
    intro declared traceEntries
    simp [evaluateStrictReadtrace, List.all_eq_false, ← marker_isSome_iff, Option.isSome_iff_ne_none]
  refine ⟨hok declared traceEntries, violations_sorted, fun v => mem_violations, ?_⟩
  intro declared' traceEntries' hdeclared htrace
  constructor
  · rw [Bool.eq_iff_iff, ← Bool.not_eq_false, ← Bool.not_eq_false, hok, hok]
    simp only [htrace]
  · have hasymm : ∀ v w : Text, v < w → ¬w < v := fun v w hvw => lt_asymm hvw
    refine List.Perm.eq_of_pairwise (fun v w _ _ hvw hwv => absurd hwv (hasymm v w hvw))
      violations_sorted violations_sorted ?_
    refine (List.perm_ext_iff_of_nodup violations_nodup violations_nodup).mpr fun v => ?_
    rw [mem_violations, mem_violations]
    constructor
    · rintro ⟨names, hread, hv⟩
      exact ⟨names, hread.congr (fun n => (hdeclared n).symm) (fun e => (htrace e).symm), hv⟩
    · rintro ⟨names, hread, hv⟩
      exact ⟨names, hread.congr hdeclared htrace, hv⟩

end Redo.Cache
