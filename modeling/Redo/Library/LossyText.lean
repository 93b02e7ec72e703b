import Redo.Library.Utf8

/-! # Bytes read as text with replacement

Where bytes are no UTF-8, the longest part that could have begun a character is replaced by one
character. Text that comes out without the replacement stood in the bytes as it is.
-/
namespace Redo.Library

def REPLACEMENT : Char := Char.ofNat 0xFFFD

def isContinuation (b : UInt8) : Bool := 0x80 ≤ b && b ≤ 0xBF

/-- The second bytes that can stand behind the first one of a character of three bytes or four. -/
def allowsSecond (x y : UInt8) : Bool :=
  (x == 0xE0 && 0xA0 ≤ y && y ≤ 0xBF) || (0xE1 ≤ x && x ≤ 0xEC && isContinuation y) ||
    (x == 0xED && 0x80 ≤ y && y ≤ 0x9F) || (0xEE ≤ x && x ≤ 0xEF && isContinuation y) ||
    (x == 0xF0 && 0x90 ≤ y && y ≤ 0xBF) || (0xF1 ≤ x && x ≤ 0xF3 && isContinuation y) ||
    (x == 0xF4 && 0x80 ≤ y && y ≤ 0x8F)

/-- How many bytes are passed over where no character stands. -/
def brokenLength : List UInt8 → ℕ
  | x :: y :: rest =>
    if allowsSecond x y then
      if 0xF0 ≤ x ∧ rest.head?.any isContinuation then 3 else 2
    else 1
  | _ => 1

/-- The character at the front. -/
def frontChar (b : List UInt8) : Option Char := b.toByteArray.utf8DecodeChar? 0

def lossyFrom : ℕ → List UInt8 → List Char
  | _, [] => []
  | skip + 1, _ :: b => lossyFrom skip b
  | 0, x :: b =>
    match frontChar (x :: b) with
    | some c => c :: lossyFrom (c.utf8Size - 1) b
    | none => REPLACEMENT :: lossyFrom (brokenLength (x :: b) - 1) b

/-- `String::from_utf8_lossy`. -/
def lossy (b : List UInt8) : List Char := lossyFrom 0 b

variable {b : List UInt8} {c : Char} {t : List Char}

theorem lossyFrom_append (l b : List UInt8) : lossyFrom l.length (l ++ b) = lossyFrom 0 b := by
  induction l with
  | nil => rfl
  | cons x l ih => exact ih

theorem frontChar_encodeChar (c : Char) (b : List UInt8) :
    frontChar (String.utf8EncodeChar c ++ b) = some c := by
  rw [frontChar, List.toByteArray_append]
  exact ByteArray.utf8DecodeChar?_utf8EncodeChar_append

theorem encodeChar_ne_nil (c : Char) : String.utf8EncodeChar c ≠ [] := by
  intro h
  have hlength := String.length_utf8EncodeChar c
  rw [h] at hlength
  exact absurd c.utf8Size_pos (by rw [← hlength]; decide)

/-- The front of bytes that has a character is that character's code. -/
theorem append_of_frontChar (h : frontChar b = some c) :
    ∃ rest, b = String.utf8EncodeChar c ++ rest := by
  have hextract := String.toByteArray_utf8EncodeChar_of_utf8DecodeChar?_eq_some h
  have hbytes := congrArg (fun a : ByteArray => a.data.toList) hextract
  refine ⟨b.drop c.utf8Size, ?_⟩
  have htake : String.utf8EncodeChar c = b.take c.utf8Size := by
    simpa [ByteArray.data_extract] using hbytes
  rw [htake, List.take_append_drop]

theorem lossy_cons (c : Char) (b : List UInt8) :
    lossy (String.utf8EncodeChar c ++ b) = c :: lossy b := by
  have hfront := frontChar_encodeChar c b
  obtain ⟨x, l, hl⟩ := List.exists_cons_of_ne_nil (encodeChar_ne_nil c)
  have hlength : c.utf8Size - 1 = l.length := by
    rw [← String.length_utf8EncodeChar, hl]
    rfl
  rw [hl, List.cons_append] at hfront
  rw [hl, List.cons_append, lossy, lossyFrom, hfront]
  dsimp only
  rw [hlength, lossyFrom_append]
  rfl

theorem lossy_encode_append (t : List Char) (b : List UInt8) : lossy (encode t ++ b) = t ++ lossy b := by
  induction t with
  | nil => rfl
  | cons c t ih => rw [encode_cons, List.append_assoc, lossy_cons, ih, List.cons_append]

/-- UTF-8 is read as it is. -/
@[simp] theorem lossy_encode (t : List Char) : lossy (encode t) = t := by
  have hread := lossy_encode_append t []
  rwa [List.append_nil, show lossy [] = [] from rfl, List.append_nil] at hread

/-- One text begins with another if its bytes do. -/
theorem encode_isPrefix_iff {u : List Char} : encode t <+: encode u ↔ t <+: u := by
  constructor
  · rintro ⟨rest, hrest⟩
    refine ⟨lossy rest, ?_⟩
    rw [← lossy_encode_append, hrest, lossy_encode]
  · rintro ⟨rest, rfl⟩
    exact ⟨encode rest, (encode_append t rest).symm⟩

/-- A reading of bytes: characters that stand there, and replacements. -/
inductive ReadsAs : List UInt8 → List Char → Prop
  | done : ReadsAs [] []
  | char {rest : List UInt8} {u : List Char} (d : Char) (h : ReadsAs rest u) :
    ReadsAs (String.utf8EncodeChar d ++ rest) (d :: u)
  | broken {rest : List UInt8} {u : List Char} (l : List UInt8) (h : ReadsAs rest u) (hne : l ≠ [])
    (hhigh : ∀ x ∈ l, 128 ≤ x.toNat) : ReadsAs (l ++ rest) (REPLACEMENT :: u)

/-- A byte below 128 is a character. -/
theorem high_of_frontChar {x : UInt8} (h : frontChar (x :: b) = none) : 128 ≤ x.toNat := by
  by_contra hlow
  have hvalid : x.toNat.isValidChar := Or.inl (by omega)
  have hnat : (Char.ofNat x.toNat).toNat = x.toNat := by
    rw [Char.ofNat, dif_pos hvalid]
    rfl
  have hcode := @encodeChar_ascii (Char.ofNat x.toNat) (by omega)
  rw [hnat, UInt8.ofNat_toNat] at hcode
  have hfront := frontChar_encodeChar (Char.ofNat x.toNat) b
  rw [hcode, List.singleton_append, h] at hfront
  cases hfront

theorem high_of_isContinuation {x : UInt8} (h : isContinuation x = true) : 128 ≤ x.toNat := by
  rw [isContinuation, Bool.and_eq_true, decide_eq_true_eq] at h
  exact UInt8.le_iff_toNat_le.mp h.1

theorem high_of_allowsSecond {x y : UInt8} (h : allowsSecond x y = true) : 128 ≤ y.toNat := by
  simp only [allowsSecond, isContinuation, Bool.or_eq_true, Bool.and_eq_true, decide_eq_true_eq,
    UInt8.le_iff_toNat_le] at h
  have hbounds : (0xA0 : UInt8).toNat = 160 ∧ (0x80 : UInt8).toNat = 128 ∧ (0x90 : UInt8).toNat = 144 := by
    decide
  omega

/-- No byte below 128 is passed over. -/
theorem high_of_broken {x : UInt8} (h : frontChar (x :: b) = none) :
    ∀ y ∈ x :: b.take (brokenLength (x :: b) - 1), 128 ≤ y.toNat := by
  have hx := high_of_frontChar h
  intro y hy
  rcases List.mem_cons.mp hy with rfl | hy
  · exact hx
  · cases b with
    | nil => cases hy
    | cons z rest =>
      rw [brokenLength] at hy
      split_ifs at hy with hsecond hthird
      · cases rest with
        | nil =>
          rcases List.mem_cons.mp (List.mem_of_mem_take hy) with rfl | hnil
          · exact high_of_allowsSecond hsecond
          · cases hnil
        | cons u rest =>
          rcases List.mem_cons.mp hy with rfl | hy
          · exact high_of_allowsSecond hsecond
          · rw [List.mem_singleton.mp hy]
            exact high_of_isContinuation hthird.2
      · rw [List.mem_singleton.mp hy]
        exact high_of_allowsSecond hsecond
      · cases hy

theorem reads_lossyFrom (skip : ℕ) (b : List UInt8) : ReadsAs (b.drop skip) (lossyFrom skip b) := by
  induction b generalizing skip with
  | nil =>
    rw [List.drop_nil]
    cases skip <;> exact .done
  | cons x b ih =>
    cases skip with
    | succ skip => exact ih skip
    | zero =>
      rw [List.drop_zero, lossyFrom]
      cases hfront : frontChar (x :: b) with
      | some c =>
        obtain ⟨rest, hrest⟩ := append_of_frontChar hfront
        have hdrop : rest = b.drop (c.utf8Size - 1) := by
          have hlength := String.length_utf8EncodeChar c
          have hpos := c.utf8Size_pos
          have hall := congrArg (List.drop c.utf8Size) hrest
          rw [← hlength, List.drop_left, hlength] at hall
          rw [← hall, ← Nat.sub_add_cancel hpos]
          rfl
        rw [hrest, hdrop]
        exact .char c (ih _)
      | none =>
        have hparts : x :: b = x :: b.take (brokenLength (x :: b) - 1) ++ b.drop (brokenLength (x :: b) - 1) := by
          rw [List.cons_append, List.take_append_drop]
        have hreads := ReadsAs.broken (x :: b.take (brokenLength (x :: b) - 1))
          (ih (brokenLength (x :: b) - 1)) (List.cons_ne_nil x _) (high_of_broken hfront)
        rwa [← hparts] at hreads

theorem reads_lossy (b : List UInt8) : ReadsAs b (lossy b) := reads_lossyFrom 0 b

theorem ReadsAs.encode (h : ReadsAs b t) (hne : REPLACEMENT ∉ t) : encode t = b := by
  induction h with
  | done => rfl
  | char c h ih => rw [encode_cons, ih fun hmem => hne (List.mem_cons_of_mem c hmem)]
  | broken l h _ _ ih => exact absurd List.mem_cons_self hne

theorem ReadsAs.ne_nil (h : ReadsAs b t) (hb : b ≠ []) : t ≠ [] := by
  cases h with
  | done => exact absurd rfl hb
  | char c h => exact List.cons_ne_nil c _
  | broken l h hne hhigh => exact List.cons_ne_nil _ _

/-- A byte below 128 that the text has, the bytes had. -/
theorem ReadsAs.mem (h : ReadsAs b t) {x : UInt8} (hx : x.toNat < 128) (hmem : x ∈ Library.encode t) : x ∈ b := by
  induction h with
  | done => cases hmem
  | char c h ih =>
    rw [encode_cons] at hmem
    rcases List.mem_append.mp hmem with hfront | hrest
    · exact List.mem_append_left _ hfront
    · exact List.mem_append_right _ (ih hrest)
  | broken l h _ _ ih =>
    rw [encode_cons] at hmem
    rcases List.mem_append.mp hmem with hfront | hrest
    · have hnat : REPLACEMENT.toNat = x.toNat := toNat_of_mem_encodeChar hx hfront
      have hbig : REPLACEMENT.toNat = 0xFFFD := by decide
      omega
    · exact List.mem_append_right _ (ih hrest)

/-- A byte below 128 stands in both as often. -/
theorem ReadsAs.count (h : ReadsAs b t) {x : UInt8} (hx : x.toNat < 128) :
    (Library.encode t).count x = b.count x := by
  induction h with
  | done => rfl
  | char c h ih => rw [encode_cons, List.count_append, List.count_append, ih]
  | broken l h _ hhigh ih =>
    have hfront : x ∉ String.utf8EncodeChar REPLACEMENT := by
      intro hmem
      have hnat := toNat_of_mem_encodeChar hx hmem
      have hbig : REPLACEMENT.toNat = 0xFFFD := by decide
      omega
    have hl : x ∉ l := fun hmem => by
      have := hhigh x hmem
      omega
    rw [encode_cons, List.count_append, List.count_append, ih, List.count_eq_zero_of_not_mem hfront,
      List.count_eq_zero_of_not_mem hl]

/-- Bytes that are UTF-8. -/
def IsUtf8 (b : List UInt8) : Prop := encode (lossy b) = b

instance (b : List UInt8) : Decidable (IsUtf8 b) := inferInstanceAs (Decidable (_ = _))

theorem isUtf8_iff : IsUtf8 b ↔ ∃ t, encode t = b := by
  constructor
  · exact fun h => ⟨lossy b, h⟩
  · rintro ⟨t, rfl⟩
    rw [IsUtf8, lossy_encode]

end Redo.Library
