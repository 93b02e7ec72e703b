import Mathlib.Data.List.Basic
import Mathlib.Data.List.TakeWhile
import Mathlib.Tactic.Common

/-! # Lines of bytes

A line is what stands before a newline, with it. In UTF-8 the newline's byte stands for nothing
else, so a line of characters is a line of bytes.
-/
namespace Redo.Library

def encode (t : List Char) : List UInt8 := t.flatMap String.utf8EncodeChar

def decode (b : List UInt8) : Option (List Char) := b.toByteArray.utf8Decode?.map Array.toList

def NEWLINE : UInt8 := 10

/-- The first line and the rest. Without a newline the line is all there is. -/
def cutLine (content : List UInt8) : List UInt8 × List UInt8 :=
  (content.takeWhile (· ≠ NEWLINE) ++ (content.dropWhile (· ≠ NEWLINE)).take 1,
    (content.dropWhile (· ≠ NEWLINE)).drop 1)

variable {line rest content : List UInt8} {t : List Char}

/-- The lines that have their newline, without it. -/
def wholeLines (content : List UInt8) : List (List UInt8) := (content.splitOn NEWLINE).dropLast

/-- What stands behind the last newline. -/
def openLine (content : List UInt8) : List UInt8 := (content.splitOn NEWLINE).getLastD []

theorem decode_encode (t : List Char) : decode (encode t) = some t := by
  have hbytes : (encode t).toByteArray = t.utf8Encode := rfl
  rw [decode, hbytes, List.utf8Decode?_utf8Encode]
  rfl

theorem encode_append (t t' : List Char) : encode (t ++ t') = encode t ++ encode t' :=
  List.flatMap_append

theorem encode_newline : encode ['\n'] = [NEWLINE] := by decide

theorem ne_ofNat {b : UInt8} {n : ℕ} (hb : b.toNat < 128) (h : 128 ≤ n) (h' : n < 256) : b ≠ UInt8.ofNat n := by
  rintro rfl
  rw [UInt8.toNat_ofNat', Nat.mod_eq_of_lt h'] at hb
  omega

/-- A byte below 128 stands for itself, and for nothing else. -/
theorem toNat_of_mem_encodeChar {b : UInt8} {c : Char} (hb : b.toNat < 128)
    (h : b ∈ String.utf8EncodeChar c) : c.toNat = b.toNat := by
  have hvalue : c.val.toNat < 0x110000 := by
    rcases c.valid with hv | hv
    · exact Nat.lt_trans hv (by decide)
    · exact hv.2
  unfold String.utf8EncodeChar at h
  dsimp only at h
  split_ifs at h with h1 h2 h3
  · rw [List.mem_singleton] at h
    rw [h, UInt8.toNat_ofNat', Nat.mod_eq_of_lt (by omega)]
    rfl
  · simp only [List.mem_cons, List.not_mem_nil, or_false] at h
    rcases h with h | h
    all_goals exact absurd h (ne_ofNat hb (by omega) (by omega))
  · simp only [List.mem_cons, List.not_mem_nil, or_false] at h
    rcases h with h | h | h
    all_goals exact absurd h (ne_ofNat hb (by omega) (by omega))
  · simp only [List.mem_cons, List.not_mem_nil, or_false] at h
    rcases h with h | h | h | h
    all_goals exact absurd h (ne_ofNat hb (by omega) (by omega))

/-- A character below 128 is the only one with its byte. -/
theorem eq_of_mem_encodeChar {a c : Char} (ha : a.toNat < 128)
    (h : UInt8.ofNat a.toNat ∈ String.utf8EncodeChar c) : c = a := by
  have hbyte : (UInt8.ofNat a.toNat).toNat = a.toNat := by
    rw [UInt8.toNat_ofNat', Nat.mod_eq_of_lt (by omega)]
  have hnat := toNat_of_mem_encodeChar (by omega) h
  exact Char.ext (UInt32.toNat_inj.mp (hnat.trans hbyte))

theorem newline_mem_encodeChar {c : Char} (h : NEWLINE ∈ String.utf8EncodeChar c) : c = '\n' :=
  @eq_of_mem_encodeChar '\n' c (by decide) h

theorem encodeChar_ascii {a : Char} (ha : a.toNat < 128) :
    String.utf8EncodeChar a = [UInt8.ofNat a.toNat] := by
  have hle : a.val.toNat ≤ 0x7f := Nat.lt_succ_iff.mp ha
  rw [String.utf8EncodeChar, if_pos hle]
  rfl

/-- Behind its first byte a character has no byte below 128. -/
theorem tail_encodeChar {b : UInt8} {c : Char} (h : b ∈ (String.utf8EncodeChar c).tail) : 128 ≤ b.toNat := by
  by_contra hsmall
  have hascii := toNat_of_mem_encodeChar (by omega) (List.mem_of_mem_tail h)
  rw [encodeChar_ascii (by omega)] at h
  cases h

theorem one_lt_length_encodeChar {c : Char} (hc : 128 ≤ c.toNat) : 1 < (String.utf8EncodeChar c).length := by
  have hlarge : ¬c.val.toNat ≤ 0x7f := by
    have hval : c.toNat = c.val.toNat := rfl
    omega
  rw [String.utf8EncodeChar, if_neg hlarge]
  split_ifs <;> simp

/-- The last byte of a character is no first byte of a longer one. -/
theorem last_encodeChar {b : UInt8} {c : Char} (h : (String.utf8EncodeChar c).getLast? = some b) :
    b.toNat < 0xC0 := by
  unfold String.utf8EncodeChar at h
  dsimp only at h
  split_ifs at h
  all_goals
    simp only [List.getLast?_cons_cons, List.getLast?_singleton, Option.some.injEq] at h
    rw [← h, UInt8.toNat_ofNat']
    omega

theorem encode_cons (c : Char) (t : List Char) : encode (c :: t) = String.utf8EncodeChar c ++ encode t :=
  List.flatMap_cons

theorem splitOn_append_of_not_mem {α : Type*} [DecidableEq α] {a : α} {l : List α} (h : a ∉ l) (r : List α) :
    (l ++ r).splitOn a = (r.splitOn a).modifyHead (l ++ ·) := by
  induction l with
  | nil =>
    cases hr : r.splitOn a with
    | nil => exact absurd hr (List.splitOn_ne_nil a r)
    | cons x xs => rw [List.nil_append, hr]; rfl
  | cons x l ih =>
    have hx : ¬ (x == a) = true := fun he => h (List.mem_cons.mpr (Or.inl (beq_iff_eq.mp he).symm))
    rw [List.cons_append, List.splitOn_cons_eq_if_modifyHead, if_neg hx,
      ih fun hmem => h (List.mem_cons_of_mem x hmem), List.modifyHead_modifyHead]
    rfl

/-- Text is split at a character below 128 by its byte. -/
theorem splitOn_encode {a : Char} (ha : a.toNat < 128) (t : List Char) :
    (encode t).splitOn (UInt8.ofNat a.toNat) = (t.splitOn a).map encode := by
  induction t with
  | nil => rfl
  | cons c t ih =>
    rw [encode_cons]
    by_cases hc : c = a
    · subst hc
      rw [encodeChar_ascii ha]
      exact (List.splitOn_append_cons_self [] (encode t)).trans
        ((congrArg _ ih).trans (congrArg (List.map encode) (List.splitOn_append_cons_self [] t)).symm)
    · have hne : UInt8.ofNat a.toNat ∉ String.utf8EncodeChar c := mt (eq_of_mem_encodeChar ha) hc
      have hbeq : ¬ (c == a) = true := mt beq_iff_eq.mp hc
      rw [splitOn_append_of_not_mem hne, ih, List.splitOn_cons_eq_if_modifyHead, if_neg hbeq]
      cases ht : t.splitOn a with
      | nil => exact absurd ht (List.splitOn_ne_nil a t)
      | cons x xs =>
        rw [List.modifyHead_cons, List.map_cons, List.map_cons, List.modifyHead_cons, encode_cons]

theorem newline_mem_encode (h : NEWLINE ∈ encode t) : '\n' ∈ t := by
  obtain ⟨c, hc, hmem⟩ := List.mem_flatMap.mp h
  rw [← newline_mem_encodeChar hmem]
  exact hc

theorem cutLine_append (h : NEWLINE ∉ line) :
    cutLine (line ++ NEWLINE :: rest) = (line ++ [NEWLINE], rest) := by
  have hkeep : ∀ b ∈ line, decide (b ≠ NEWLINE) = true := fun b hb =>
    decide_eq_true fun he => h (he ▸ hb)
  rw [cutLine, List.takeWhile_append_of_pos hkeep, List.dropWhile_append_of_pos hkeep,
    List.takeWhile_cons_of_neg (by simp), List.dropWhile_cons_of_neg (by simp), List.append_nil]
  rfl

theorem cutLine_whole (h : NEWLINE ∉ content) : cutLine content = (content, []) := by
  have hkeep : ∀ b ∈ content, decide (b ≠ NEWLINE) = true := fun b hb =>
    decide_eq_true fun he => h (he ▸ hb)
  rw [cutLine, List.takeWhile_eq_self_iff.mpr hkeep, List.dropWhile_eq_nil_iff.mpr hkeep,
    List.take_nil, List.append_nil, List.drop_nil]

theorem cutLine_parts (content : List UInt8) : (cutLine content).1 ++ (cutLine content).2 = content := by
  rw [cutLine, List.append_assoc, List.take_append_drop, List.takeWhile_append_dropWhile]

/-- A line takes something away from all content but the empty one. -/
theorem length_cutLine (h : (cutLine content).1 ≠ []) : (cutLine content).2.length < content.length := by
  have hparts := congrArg List.length (cutLine_parts content)
  have hpos := List.length_pos_iff.mpr h
  rw [List.length_append] at hparts
  omega

theorem encode_of_decode (h : decode content = some t) : encode t = content := by
  obtain ⟨chars, hchars, rfl⟩ := Option.map_eq_some_iff.mp h
  have hsome : content.toByteArray.utf8Decode?.isSome = true := by rw [hchars]; rfl
  have hencode := ByteArray.utf8Encode_get_utf8Decode? (h := hsome)
  rw [Option.get_of_mem hsome hchars] at hencode
  have hbytes : (encode chars.toList).toByteArray = chars.toList.utf8Encode := rfl
  have hlist := congrArg (fun b => b.data.toList) (hbytes.trans hencode)
  simpa using hlist

theorem encode_line (front back : List Char) :
    encode (front ++ '\n' :: back) = encode front ++ NEWLINE :: encode back := by
  rw [encode_append, ← List.singleton_append, encode_append, encode_newline]
  rfl

theorem newline_mem_encode_iff : NEWLINE ∈ encode t ↔ '\n' ∈ t := by
  refine ⟨newline_mem_encode, fun h => ?_⟩
  obtain ⟨front, back, rfl⟩ := List.append_of_mem h
  rw [encode_line]
  simp

/-- Text cannot end with the first byte of a longer character. -/
theorem decode_concat {last : UInt8} (content : List UInt8) (h : 0xC0 ≤ last.toNat) :
    decode (content ++ [last]) = none := by
  refine Option.eq_none_iff_forall_ne_some.mpr fun t ht => ?_
  have hbytes := encode_of_decode ht
  rcases List.eq_nil_or_concat t with rfl | ⟨t, c, rfl⟩
  · simp [encode] at hbytes
  · have hlast := congrArg List.getLast? hbytes
    have hchar : encode [c] = String.utf8EncodeChar c := by simp [encode]
    have hne : String.utf8EncodeChar c ≠ [] := by simp
    rw [List.concat_eq_append, encode_append, hchar, List.getLast?_append_of_ne_nil _ hne,
      List.getLast?_concat] at hlast
    have hsmall := last_encodeChar hlast
    omega

/-- The first separator cuts a list in one way only. -/
theorem append_cons_inj_of_not_mem {α : Type*} {a : α} {x y z w : List α} (hx : a ∉ x) (hy : a ∉ y)
    (h : x ++ a :: z = y ++ a :: w) : x = y ∧ z = w := by
  induction x generalizing y with
  | nil =>
    cases y with
    | nil => exact ⟨rfl, (List.cons.inj h).2⟩
    | cons b y =>
      rw [← (List.cons.inj h).1] at hy
      exact absurd List.mem_cons_self hy
  | cons b x ih =>
    cases y with
    | nil =>
      rw [(List.cons.inj h).1] at hx
      exact absurd List.mem_cons_self hx
    | cons c y =>
      obtain ⟨rfl, htail⟩ := List.cons.inj h
      obtain ⟨rfl, hrest⟩ := ih (fun hmem => hx (List.mem_cons_of_mem b hmem))
        (fun hmem => hy (List.mem_cons_of_mem b hmem)) htail
      exact ⟨rfl, hrest⟩

/-- A line that is text is text without its newline. -/
theorem decode_line (h : decode (line ++ [NEWLINE]) = some t) :
    ∃ l, t = l ++ ['\n'] ∧ encode l = line := by
  have hencode := encode_of_decode h
  rcases List.eq_nil_or_concat t with rfl | ⟨l, c, rfl⟩
  · exact absurd hencode.symm (by simp [encode])
  · rw [List.concat_eq_append] at hencode ⊢
    rw [encode_append] at hencode
    have hchar : encode [c] ≠ [] := by
      simp [encode]
    have hmem : NEWLINE ∈ encode [c] := by
      have hlast := congrArg List.getLast? hencode
      rw [List.getLast?_concat, List.getLast?_append_of_ne_nil _ hchar] at hlast
      exact List.mem_of_getLast? hlast
    obtain rfl : '\n' = c := List.mem_singleton.mp (newline_mem_encode hmem)
    rw [encode_newline] at hencode
    exact ⟨l, rfl, (List.append_inj' hencode rfl).1⟩

theorem cutLine_of_mem (h : NEWLINE ∈ content) :
    ∃ line rest, NEWLINE ∉ line ∧ content = line ++ NEWLINE :: rest ∧ cutLine content = (line ++ [NEWLINE], rest) := by
  obtain ⟨line, rest, rfl, hline⟩ := List.eq_append_cons_of_mem h
  exact ⟨line, rest, hline, rfl, cutLine_append hline⟩

theorem splitOn_lines {lines : List (List UInt8)} (h : ∀ line ∈ lines, NEWLINE ∉ line) (hrest : NEWLINE ∉ rest) :
    (lines.flatMap (· ++ [NEWLINE]) ++ rest).splitOn NEWLINE = lines ++ [rest] := by
  induction lines with
  | nil => exact List.splitOn_eq_singleton hrest
  | cons line lines ih =>
    have hrest' := ih fun l hl => h l (List.mem_cons_of_mem _ hl)
    rw [List.flatMap_cons, List.append_assoc, List.append_assoc, List.singleton_append,
      List.splitOn_append_cons_self, hrest', List.splitOn_eq_singleton (h line List.mem_cons_self)]
    rfl

theorem wholeLines_append {lines : List (List UInt8)} (h : ∀ line ∈ lines, NEWLINE ∉ line) (hrest : NEWLINE ∉ rest) :
    wholeLines (lines.flatMap (· ++ [NEWLINE]) ++ rest) = lines := by
  rw [wholeLines, splitOn_lines h hrest, List.dropLast_concat]
end Redo.Library
