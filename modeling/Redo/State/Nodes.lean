import Redo.State.Files

/-! # What is at a path, and the stamp it has

A stamp is a text: the fields of `lstat` joined by dashes, followed by those of
`stat` for a symbolic link. Builds compare stamps as texts; only the override
check looks inside.
-/
namespace Redo.State

abbrev Bytes := List UInt8

/-- The part of `std::fs::Metadata` that redo looks at; `mtime()` gives whole seconds. -/
structure Metadata where
  mtime : ℤ
  mtimeNsec : ℕ := 0
  size : ℕ := 0
  ino : ℕ := 0
  mode : ℕ := 0
  uid : ℕ := 0
  gid : ℕ := 0
  isDir : Bool := false
deriving DecidableEq, Repr

/-- What is at a path: its own metadata, whether `stat` can follow it, and what
reading the path gives. -/
structure Node extends Metadata where
  isLink : Bool := false
  resolves : Bool := true
  content : Bytes := []
  /-- The stamp of what a link leads to. -/
  post : Stamp := ""
deriving DecidableEq, Repr

/-- The text of `{:.6}` for seconds and nanoseconds added up in floating point. It has a
sign exactly before the epoch, and no other dash. -/
structure MtimeFormat where
  text : ℤ → ℕ → List Char
  ne_nil : ∀ s ns, text s ns ≠ []
  sign : ∀ s ns, (text s ns).head? = some '-' ↔ s < 0
  dash : ∀ s ns, '-' ∉ (text s ns).tail

def digits (n : ℕ) : List Char := (Nat.repr n).toList

/-- The text of `read_stamp_st` for what is no directory. -/
def Metadata.stampText (fmt : MtimeFormat) (m : Metadata) : List Char :=
  fmt.text m.mtime m.mtimeNsec ++ '-' :: digits m.size ++ '-' :: digits m.ino ++
    '-' :: digits m.mode ++ '-' :: digits m.uid ++ '-' :: digits m.gid

def readStamp (fmt : MtimeFormat) : Option Node → Stamp
  | none => STAMP_MISSING
  | some n =>
    if n.isDir then STAMP_DIR
    else String.ofList (n.stampText fmt ++ if n.isLink then '+' :: n.post.toList else [])

/-- `Path::exists`. -/
def pathExists (n : Option Node) : Bool := n.any (·.resolves)

/-- Up to the first dash, and behind it. -/
def splitDash (l : List Char) : List Char × List Char :=
  (l.takeWhile (· ≠ '-'), (l.dropWhile (· ≠ '-')).tail)

/-- `splitn(3, '-').take(2)`. -/
def splitnTake2 (l : List Char) : List (List Char) :=
  if '-' ∈ l then [(splitDash l).1, (splitDash (splitDash l).2).1] else [l]

def detectOverride (stamp1 stamp2 : Stamp) : Bool :=
  stamp1 ≠ stamp2 && splitnTake2 stamp1.toList ≠ splitnTake2 stamp2.toList

/-- The fields that the override check is about: modification time, sign included, and size. -/
def mtimeAndSize : List Char → List Char × List Char
  | '-' :: l => ('-' :: (splitDash l).1, (splitDash (splitDash l).2).1)
  | l => ((splitDash l).1, (splitDash (splitDash l).2).1)

theorem splitDash_append {a : List Char} (h : '-' ∉ a) (b : List Char) :
    splitDash (a ++ '-' :: b) = (a, b) := by
  have hpos : ∀ c ∈ a, (decide (c ≠ '-')) = true := by
    intro c hc
    simp only [ne_eq, decide_not, Bool.not_eq_true', decide_eq_false_iff_not]
    rintro rfl
    exact h hc
  rw [splitDash, List.takeWhile_append_of_pos hpos, List.dropWhile_append_of_pos hpos]
  simp

theorem digits_no_dash (n : ℕ) : '-' ∉ digits n := by
  intro h
  rw [digits, Nat.repr_eq_ofList_toDigits, String.toList_ofList] at h
  have hd := Nat.isDigit_of_mem_toDigits (by decide) (by decide) h
  revert hd
  decide

theorem readStamp_ne_empty (fmt : MtimeFormat) (n : Option Node) : readStamp fmt n ≠ "" := by
  cases n with
  | none => exact show STAMP_MISSING ≠ "" by decide
  | some n =>
    rw [readStamp]
    by_cases hd : n.isDir = true
    · rw [if_pos hd]
      decide
    · rw [if_neg hd]
      intro h
      have hl := congrArg String.toList h
      rw [String.toList_ofList] at hl
      simp [Metadata.stampText] at hl

theorem readStamp_ne_missing (fmt : MtimeFormat) (n : Node) :
    readStamp fmt (some n) ≠ STAMP_MISSING := by
  rw [readStamp]
  by_cases hd : n.isDir = true
  · rw [if_pos hd]
    decide
  · rw [if_neg hd]
    intro h
    have hl := congrArg String.toList h
    rw [String.toList_ofList] at hl
    have hdash : '-' ∈ n.stampText fmt ++ if n.isLink then '+' :: n.post.toList else [] := by
      simp [Metadata.stampText]
    rw [hl] at hdash
    revert hdash
    decide

/-- Two stamps from before the epoch that differ in the size alone: the split at dashes
takes the sign for an empty first field, and the size is not looked at. -/
def PreEpochResized (stamp1 stamp2 : Stamp) : Prop :=
  stamp1.toList.head? = some '-' ∧ stamp2.toList.head? = some '-' ∧
    (mtimeAndSize stamp1.toList).1 = (mtimeAndSize stamp2.toList).1 ∧
    (mtimeAndSize stamp1.toList).2 ≠ (mtimeAndSize stamp2.toList).2

theorem mtimeAndSize_of_head {l : List Char} (h : l.head? ≠ some '-') :
    mtimeAndSize l = ((splitDash l).1, (splitDash (splitDash l).2).1) := by
  cases l with
  | nil => rfl
  | cons c l =>
    rw [mtimeAndSize]
    rintro l' hl
    simp [(List.cons.inj hl).1] at h

theorem splitDash_fst_ne_nil {l : List Char} (h : l.head? ≠ some '-') (hm : '-' ∈ l) :
    (splitDash l).1 ≠ [] := by
  cases l with
  | nil => cases hm
  | cons c l =>
    have hc : c ≠ '-' := by simpa using h
    simp [splitDash, hc]

theorem splitDash_dash (l : List Char) : splitDash ('-' :: l) = ([], l) :=
  splitDash_append List.not_mem_nil l

/-- What passes for unmodified has the same modification time and size. -/
theorem fields_of_not_detectOverride {stamp1 stamp2 : Stamp}
    (h : detectOverride stamp1 stamp2 = false) (hr : ¬PreEpochResized stamp1 stamp2) :
    mtimeAndSize stamp1.toList = mtimeAndSize stamp2.toList := by
  unfold detectOverride at h
  by_cases heq : stamp1 = stamp2
  · rw [heq]
  have hs : splitnTake2 stamp1.toList = splitnTake2 stamp2.toList := by
    simpa [heq] using h
  unfold PreEpochResized at hr
  generalize stamp1.toList = l1 at hs hr ⊢
  generalize stamp2.toList = l2 at hs hr ⊢
  unfold splitnTake2 at hs
  by_cases h1 : '-' ∈ l1 <;> by_cases h2 : '-' ∈ l2
  · rw [if_pos h1, if_pos h2] at hs
    have hfst : (splitDash l1).1 = (splitDash l2).1 := by simpa using (List.cons.inj hs).1
    have hsnd : (splitDash (splitDash l1).2).1 = (splitDash (splitDash l2).2).1 := by
      simpa using (List.cons.inj hs).2
    by_cases hd1 : l1.head? = some '-' <;> by_cases hd2 : l2.head? = some '-'
    · obtain ⟨t1, rfl⟩ := List.head?_eq_some_iff.mp hd1
      obtain ⟨t2, rfl⟩ := List.head?_eq_some_iff.mp hd2
      rw [splitDash_dash, splitDash_dash] at hsnd
      have hmt : (mtimeAndSize ('-' :: t1)).1 = (mtimeAndSize ('-' :: t2)).1 := by
        rw [mtimeAndSize, mtimeAndSize, hsnd]
      have hsize : (mtimeAndSize ('-' :: t1)).2 = (mtimeAndSize ('-' :: t2)).2 := by
        by_contra hne
        exact hr ⟨rfl, rfl, hmt, hne⟩
      exact Prod.ext hmt hsize
    · obtain ⟨t1, rfl⟩ := List.head?_eq_some_iff.mp hd1
      rw [splitDash_dash] at hfst
      exact absurd hfst.symm (splitDash_fst_ne_nil hd2 h2)
    · obtain ⟨t2, rfl⟩ := List.head?_eq_some_iff.mp hd2
      rw [splitDash_dash] at hfst
      exact absurd hfst (splitDash_fst_ne_nil hd1 h1)
    · rw [mtimeAndSize_of_head hd1, mtimeAndSize_of_head hd2, hfst, hsnd]
  · rw [if_pos h1, if_neg h2] at hs
    cases (List.cons.inj hs).2
  · rw [if_neg h1, if_pos h2] at hs
    cases (List.cons.inj hs).2
  · rw [if_neg h1, if_neg h2] at hs
    rw [(List.cons.inj hs).1]

end Redo.State
