import Redo.Library.SharedStart
import Redo.Paths.Normalizers

/-! # The choice of the base

Without `REDO_BASE` the base is the nearest directory with a `.redo` above what the current directory
and the directories of the targets begin with, taken as texts.
-/
namespace Redo.Paths.BaseSelection
open Library Remote Cache

/-- A `String` is compared by its bytes. -/
def byteOrder (s : Text) : List ℕ := (encode s).map UInt8.toNat

/-- `nbytes` when the loop ends. -/
def nbytes : Text → Text → ℕ
  | c1 :: s1, c2 :: s2 => if c1 ≠ c2 then 0 else c1.utf8Size + nbytes s1 s2
  | _, _ => 0

/-- `s[..n]`, which panics behind the end and inside a character. -/
def sliceTo (s : Text) (n : ℕ) : Option Text :=
  if n ≤ (encode s).length then decode ((encode s).take n) else none

/-- The first of equal strings, as `min` takes it. -/
def lesser (x y : Text) : Text := if byteOrder y < byteOrder x then y else x

/-- The last of equal strings, as `max` takes it. -/
def greater (x y : Text) : Text := if byteOrder y < byteOrder x then x else y

def commonPrefix : List Text → Option Text
  | [] => some []
  | s :: strings =>
    let s1 := strings.foldl lesser s
    let s2 := strings.foldl greater s
    sliceTo s1 (nbytes s1 s2)

variable {strings : List Text} {s p : Text}

theorem nbytes_eq (s1 s2 : Text) : nbytes s1 s2 = (encode (sharedStart s1 s2)).length := by
  fun_induction sharedStart s1 s2 with
  | case1 c s1 s2 ih =>
    rw [nbytes, if_neg (not_not.mpr rfl), encode_cons, List.length_append, String.length_utf8EncodeChar, ih]
  | case2 c s1 d s2 hcd => rw [nbytes, if_pos hcd]; rfl
  | case3 s1 s2 hnil =>
    cases s1 with
    | nil => rfl
    | cons c s1 =>
      cases s2 with
      | nil => rfl
      | cons d s2 => exact absurd rfl (hnil c s1 d s2 rfl)

/-- Where a text ends that another one begins with, a character ends. -/
theorem sliceTo_of_isPrefix (h : p <+: s) : sliceTo s (encode p).length = some p := by
  obtain ⟨rest, rfl⟩ := h
  have hle : (encode p).length ≤ (encode p ++ encode rest).length := by simp
  rw [sliceTo, encode_append, if_pos hle, List.take_left, decode_encode]

theorem byteOrder_isPrefix (h : p <+: s) : byteOrder p <+: byteOrder s :=
  (encode_isPrefix_iff.mpr h).map UInt8.toNat

theorem isPrefix_of_byteOrder (h : byteOrder p <+: byteOrder s) : p <+: s := by
  have hbytes := h.map UInt8.ofNat
  simp only [byteOrder, List.map_map] at hbytes
  have hid : UInt8.ofNat ∘ UInt8.toNat = id := by
    funext b
    simp
  rw [hid, List.map_id, List.map_id] at hbytes
  exact encode_isPrefix_iff.mp hbytes

/-- A fold that keeps one of two comes to a member that is related to all. -/
theorem foldl_pick {α : Type*} {r : α → α → Prop} [IsPreorder α r] {pick : α → α → α}
    (hpick : ∀ x y, (pick x y = x ∨ pick x y = y) ∧ r (pick x y) x ∧ r (pick x y) y) (a : α) (l : List α) :
    l.foldl pick a ∈ a :: l ∧ ∀ x ∈ a :: l, r (l.foldl pick a) x := by
  induction l generalizing a with
  | nil => simpa using refl_of r a
  | cons b l ih =>
    obtain ⟨hmem, hall⟩ := ih (pick a b)
    obtain ⟨hone, hleft, hright⟩ := hpick a b
    have hfirst := hall (pick a b) List.mem_cons_self
    rw [List.foldl_cons]
    constructor
    · rcases List.mem_cons.mp hmem with hend | hend
      · rw [hend]
        rcases hone with ha | hb
        · simp [ha]
        · simp [hb]
      · simp [hend]
    · intro x hx
      rcases List.mem_cons.mp hx with rfl | hx
      · exact trans_of r hfirst hleft
      · rcases List.mem_cons.mp hx with rfl | hx
        · exact trans_of r hfirst hright
        · exact hall x (List.mem_cons_of_mem _ hx)

theorem foldl_lesser (s : Text) (strings : List Text) :
    strings.foldl lesser s ∈ s :: strings ∧ ∀ t ∈ s :: strings, byteOrder (strings.foldl lesser s) ≤ byteOrder t := by
  apply foldl_pick (r := fun x y => byteOrder x ≤ byteOrder y)
  intro x y
  rw [lesser]
  split_ifs with h
  · exact ⟨Or.inr rfl, h.le, le_rfl⟩
  · exact ⟨Or.inl rfl, le_rfl, not_lt.mp h⟩

theorem foldl_greater (s : Text) (strings : List Text) :
    strings.foldl greater s ∈ s :: strings ∧ ∀ t ∈ s :: strings, byteOrder t ≤ byteOrder (strings.foldl greater s) := by
  apply foldl_pick (r := fun x y => byteOrder y ≤ byteOrder x)
  intro x y
  rw [greater]
  split_ifs with h
  · exact ⟨Or.inl rfl, le_rfl, h.le⟩
  · exact ⟨Or.inr rfl, not_lt.mp h, le_rfl⟩

/-- What the least and the greatest string begin with, all strings begin with. -/
theorem commonPrefix_eq (h : strings ≠ []) :
    ∃ p, commonPrefix strings = some p ∧ ∀ q, q <+: p ↔ ∀ s ∈ strings, q <+: s := by
  obtain ⟨s, strings, rfl⟩ := List.exists_cons_of_ne_nil h
  obtain ⟨hleast, hlow⟩ := foldl_lesser s strings
  obtain ⟨hmost, hhigh⟩ := foldl_greater s strings
  refine ⟨sharedStart (strings.foldl lesser s) (strings.foldl greater s), ?_, fun q => ?_⟩
  · rw [commonPrefix, nbytes_eq]
    exact sliceTo_of_isPrefix (sharedStart_isPrefix_left _ _)
  · rw [isPrefix_sharedStart_iff]
    constructor
    · intro hq t ht
      exact isPrefix_of_byteOrder
        (isPrefix_of_between (byteOrder_isPrefix hq.1) (byteOrder_isPrefix hq.2) (hlow t ht) (hhigh t ht))
    · intro hq
      exact ⟨hq _ hleast, hq _ hmost⟩

/-- Two lists with the same strings begin with the same text. -/
theorem commonPrefix_congr {strings' : List Text} (h : strings ≠ []) (hsame : ∀ s, s ∈ strings' ↔ s ∈ strings) :
    commonPrefix strings' = commonPrefix strings := by
  have hne : strings' ≠ [] := by
    obtain ⟨s, hs⟩ := List.exists_mem_of_ne_nil strings h
    exact List.ne_nil_of_mem ((hsame s).mpr hs)
  obtain ⟨p, hp, hpq⟩ := commonPrefix_eq h
  obtain ⟨p', hp', hpq'⟩ := commonPrefix_eq hne
  have hsub : p' <+: p := (hpq p').mpr fun s hs => (hpq' p').mp List.prefix_rfl s ((hsame s).mpr hs)
  have hsup : p <+: p' := (hpq' p).mpr fun s hs => (hpq p).mp List.prefix_rfl s ((hsame s).mp hs)
  rw [hp, hp', hsub.eq_of_length (le_antisymm hsub.length_le hsup.length_le)]

/-- It is the longest text that all strings begin with, whatever their order and repetition. -/
theorem commonPrefix_longest (h : strings ≠ []) :
    ∃ p, commonPrefix strings = some p ∧ (∀ s ∈ strings, p <+: s) ∧
      (∀ q, (∀ s ∈ strings, q <+: s) → q <+: p ∧ q.length ≤ p.length) ∧
      ∀ strings', (∀ s, s ∈ strings' ↔ s ∈ strings) → commonPrefix strings' = some p := by
  obtain ⟨p, hp, hpq⟩ := commonPrefix_eq h
  refine ⟨p, hp, (hpq p).mp List.prefix_rfl, fun q hq => ?_, fun strings' hsame => ?_⟩
  · have hlong := (hpq q).mpr hq
    exact ⟨hlong, hlong.length_le⟩
  · rw [commonPrefix_congr h hsame, hp]

/-- The accents have their first byte in common, and it is not taken. -/
theorem commonPrefix_longest_accents :
    commonPrefix ["/\u00e9".toList, "/\u00e8".toList, "/\u00e9".toList] = some ['/'] ∧
      ∀ q, (∀ s ∈ ["/\u00e9".toList, "/\u00e8".toList, "/\u00e9".toList], q <+: s) → q <+: ['/'] := by
  have hslash : commonPrefix ["/\u00e9".toList, "/\u00e8".toList, "/\u00e9".toList] = some ['/'] := by decide
  obtain ⟨p, hp, -, hlongest, -⟩ :=
    @commonPrefix_longest ["/\u00e9".toList, "/\u00e8".toList, "/\u00e9".toList] (List.cons_ne_nil _ _)
  obtain rfl : ['/'] = p := Option.some.inj (hslash.symm.trans hp)
  exact ⟨hslash, fun q hq => (hlongest q hq).1⟩

/-! ## The walk up -/

def posixDirname (p : Text) : Text :=
  let head := p.rdropWhile (· ≠ '/')
  if head.all (· = '/') then head else head.rdropWhile (· = '/')

def abspath (p : Text) (cwd : OsText) : OsText :=
  if p = [] then cwd
  else if unix.isAbsolute (encode p) then Os.findBaseNormalizePath (encode p)
  else Os.findBaseNormalizePath (unix.push cwd (encode p))

/-- The directories of the targets, and the current one behind them. -/
def dirs (cwd : OsText) (targets : List Text) : List Text :=
  (if targets = [] then ["all".toList] else targets).map (fun t => lossy (abspath (posixDirname t) cwd)) ++ [lossy cwd]

/-- The texts before a slash, the longest first. -/
def newbases (base : Text) : List Text :=
  let parts := base.splitOn '/'
  (List.range' 1 (parts.length - 1)).reverse.map fun i => ['/'].intercalate (parts.take i)

def findBase (present : Text → Bool) (cwd : OsText) (targets : List Text) : Option Text :=
  (commonPrefix (dirs cwd targets)).map fun base =>
    ((newbases base).find? fun newbase => present (newbase ++ "/.redo".toList)).getD base

variable {present : Text → Bool} {base a b : Text}

theorem mem_newbases : a ∈ newbases base ↔ ∃ rest, base = a ++ '/' :: rest := by
  simp only [newbases, List.mem_map, List.mem_reverse, List.mem_range'_1]
  constructor
  · rintro ⟨i, ⟨hpos, hlt⟩, rfl⟩
    have hfront : (base.splitOn '/').take i ≠ [] := by
      apply List.ne_nil_of_length_pos
      rw [List.length_take]
      omega
    have hback : (base.splitOn '/').drop i ≠ [] := by
      apply List.ne_nil_of_length_pos
      rw [List.length_drop]
      omega
    refine ⟨['/'].intercalate ((base.splitOn '/').drop i), ?_⟩
    rw [← intercalate_append _ hfront hback, List.take_append_drop, List.intercalate_splitOn]
  · rintro ⟨rest, rfl⟩
    have hfront := List.length_pos_iff.mpr (List.splitOn_ne_nil '/' a)
    have hback := List.length_pos_iff.mpr (List.splitOn_ne_nil '/' rest)
    refine ⟨(a.splitOn '/').length, ?_, ?_⟩
    · rw [List.splitOn_append_cons_self, List.length_append]
      omega
    · rw [List.splitOn_append_cons_self, List.take_left, List.intercalate_splitOn]

theorem length_take_lt {parts : List Text} {i j : ℕ} (hpos : 0 < i) (hij : i < j) (hj : j < parts.length) :
    (['/'].intercalate (parts.take i)).length < (['/'].intercalate (parts.take j)).length := by
  have hfront : parts.take i ≠ [] := by
    apply List.ne_nil_of_length_pos
    rw [List.length_take]
    omega
  have hback : (parts.take j).drop i ≠ [] := by
    apply List.ne_nil_of_length_pos
    rw [List.length_drop, List.length_take]
    omega
  have hcut : parts.take j = parts.take i ++ (parts.take j).drop i := by
    conv_lhs => rw [← List.take_append_drop i (parts.take j), List.take_take, min_eq_left hij.le]
  rw [hcut, intercalate_append _ hfront hback]
  simp

theorem newbases_pairwise (base : Text) : (newbases base).Pairwise fun a b => b.length < a.length := by
  rw [newbases, List.pairwise_map, List.pairwise_reverse]
  have hsorted := List.pairwise_lt_range' (s := 1) (n := (base.splitOn '/').length - 1)
  apply hsorted.imp_of_mem
  intro i j hi hj hij
  rw [List.mem_range'_1] at hi hj
  exact length_take_lt (by omega) hij (by omega)

/-- `base` is the nearest text above `start` with a `.redo`, or `start` if there is none. -/
inductive Nearest (present : Text → Bool) (start : Text) : Text → Prop
  | above {base rest : Text} (h : start = base ++ '/' :: rest) (hredo : present (base ++ "/.redo".toList) = true)
    (hnearest : ∀ a rest, start = a ++ '/' :: rest → present (a ++ "/.redo".toList) = true → a <+: base) :
    Nearest present start base
  | start (h : ∀ a rest, start = a ++ '/' :: rest → present (a ++ "/.redo".toList) = false) :
    Nearest present start start

theorem find_newbases (present : Text → Bool) (start : Text) :
    Nearest present start
      (((newbases start).find? fun newbase => present (newbase ++ "/.redo".toList)).getD start) := by
  cases hfind : (newbases start).find? fun newbase => present (newbase ++ "/.redo".toList) with
  | none =>
    apply Nearest.start
    intro a rest ha
    have hnone := List.find?_eq_none.mp hfind a (mem_newbases.mpr ⟨rest, ha⟩)
    simpa using hnone
  | some base =>
    obtain ⟨hredo, longer, shorter, hall, hlonger⟩ := List.find?_eq_some_iff_append.mp hfind
    obtain ⟨rest, hrest⟩ := mem_newbases.mp (List.mem_of_find?_eq_some hfind)
    rw [Option.getD_some]
    apply Nearest.above hrest hredo
    intro a rest' ha hpresent
    have hmem : a ∈ longer ++ base :: shorter := by
      rw [← hall]
      exact mem_newbases.mpr ⟨rest', ha⟩
    have hlength : a.length ≤ base.length := by
      have hsorted := newbases_pairwise start
      rw [hall, List.pairwise_append, List.pairwise_cons] at hsorted
      rcases List.mem_append.mp hmem with hlong | hshort
      · have hnot := hlonger a hlong
        rw [hpresent] at hnot
        cases hnot
      · rcases List.mem_cons.mp hshort with rfl | hshort
        · exact le_rfl
        · exact (hsorted.2.1.1 a hshort).le
    exact List.prefix_of_prefix_length_le ⟨_, ha.symm⟩ ⟨_, hrest.symm⟩ hlength

/-- The walk starts above the text that all directories begin with. -/
theorem findBase_nearest (present : Text → Bool) (cwd : OsText) (targets : List Text) :
    ∃ start base, commonPrefix (dirs cwd targets) = some start ∧
      findBase present cwd targets = some base ∧ Nearest present start base := by
  have hne : dirs cwd targets ≠ [] := by simp [dirs]
  obtain ⟨start, hstart, -⟩ := commonPrefix_eq hne
  refine ⟨start, _, hstart, ?_, find_newbases present start⟩
  rw [findBase, hstart]
  rfl
end Redo.Paths.BaseSelection
