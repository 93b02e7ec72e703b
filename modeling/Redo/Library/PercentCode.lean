import Redo.Library.Utf8

/-! # Percent-encoded bytes

Bytes as ASCII text: some stand for themselves, each of the others for two digits behind a percent
sign.
-/
namespace Redo.Library

/-- The bytes that need no encoding, wherever they stand in a URL. -/
def Unreserved (b : UInt8) : Prop :=
  48 ≤ b ∧ b ≤ 57 ∨ 65 ≤ b ∧ b ≤ 90 ∨ 97 ≤ b ∧ b ≤ 122 ∨ b ∈ [33, 39, 40, 41, 42, 45, 46, 95, 126]

instance (b : UInt8) : Decidable (Unreserved b) := inferInstanceAs (Decidable (_ ∨ _))

def hexByte (n : ℕ) : UInt8 := UInt8.ofNat (if n < 10 then 48 + n else 55 + n)

/-- The bytes of the text: those that are kept, and three for each of the others. -/
def percentBytes (keep : UInt8 → Bool) (bytes : List UInt8) : List UInt8 :=
  bytes.flatMap fun b => if keep b then [b] else [37, hexByte (b.toNat / 16), hexByte (b.toNat % 16)]

def asciiChar (b : UInt8) : Char := Char.ofNat b.toNat

def percentEncode (keep : UInt8 → Bool) (bytes : List UInt8) : List Char :=
  (percentBytes keep bytes).map asciiChar

variable {keep : UInt8 → Bool} {bytes : List UInt8} {b : UInt8}

theorem Unreserved.lt (h : Unreserved b) : b.toNat < 128 := by
  simp only [Unreserved, UInt8.le_iff_toNat_le, List.mem_cons, List.not_mem_nil, or_false] at h
  rcases h with h | h | h | h
  · exact lt_of_le_of_lt h.2 (by decide)
  · exact lt_of_le_of_lt h.2 (by decide)
  · exact lt_of_le_of_lt h.2 (by decide)
  · rcases h with rfl | rfl | rfl | rfl | rfl | rfl | rfl | rfl | rfl <;> decide

/-- A byte of the text is a percent sign or unreserved. -/
theorem mem_percentBytes (hkeep : ∀ b, keep b = true → Unreserved b) (h : b ∈ percentBytes keep bytes) :
    b = 37 ∨ Unreserved b := by
  obtain ⟨a, -, hb⟩ := List.mem_flatMap.mp h
  split at hb
  · rename_i ha
    rw [List.mem_singleton.mp hb]
    exact .inr (hkeep a ha)
  · have hhex : ∀ n < 16, Unreserved (hexByte n) := by decide
    have hlt : a.toNat < 256 := a.toNat_lt
    simp only [List.mem_cons, List.not_mem_nil, or_false] at hb
    rcases hb with rfl | rfl | rfl
    · exact .inl rfl
    · exact .inr (hhex _ (by omega))
    · exact .inr (hhex _ (by omega))

theorem toNat_asciiChar (h : b.toNat < 128) : (asciiChar b).toNat = b.toNat := by
  have hvalid : b.toNat.isValidChar := .inl (by omega)
  rw [asciiChar, Char.ofNat, dif_pos hvalid]
  rfl

theorem encode_percentEncode (hkeep : ∀ b, keep b = true → Unreserved b) :
    encode (percentEncode keep bytes) = percentBytes keep bytes := by
  have hascii : ∀ b ∈ percentBytes keep bytes, b.toNat < 128 := by
    intro b hb
    rcases mem_percentBytes hkeep hb with rfl | hb
    · decide
    · exact hb.lt
  rw [percentEncode, encode, List.flatMap_map]
  revert hascii
  generalize percentBytes keep bytes = l
  intro hascii
  induction l with
  | nil => rfl
  | cons a l ih =>
    have ha := hascii a List.mem_cons_self
    rw [List.flatMap_cons, ih fun b hb => hascii b (List.mem_cons_of_mem a hb),
      encodeChar_ascii ((toNat_asciiChar ha).symm ▸ ha), toNat_asciiChar ha, UInt8.ofNat_toNat]
    rfl

end Redo.Library
