import Redo.Cache.Metadata
import Redo.Library.Utf8

/-! # Dependency lines of generated scripts

The scanner takes the line byte by byte and makes each byte a character.
-/
namespace Redo.Logs.Dependencies
open Library Remote Cache

def isWs (b : UInt8) : Bool := b = 32 || b = 9 || b = 10 || b = 13

def SINGLE : UInt8 := 39

def DOUBLE : UInt8 := 34

def BACKSLASH : UInt8 := 92

def HASH : UInt8 := 35

/-- `b as char` -/
def asChar (b : UInt8) : Char := Char.ofNat b.toNat

/-- A word with backslash escapes, up to a byte that ends it. -/
def escapedWord (ends : UInt8 → Bool) : List UInt8 → Text × List UInt8
  | [] => ([], [])
  | [b] => if ends b then ([], [b]) else ([asChar b], [])
  | b :: c :: rest =>
    if ends b then ([], b :: c :: rest)
    else if b = BACKSLASH then (asChar c :: (escapedWord ends rest).1, (escapedWord ends rest).2)
    else (asChar b :: (escapedWord ends (c :: rest)).1, (escapedWord ends (c :: rest)).2)

/-- The word that begins here, and what stands behind it. A closing quote may be missing. -/
def nextWord : List UInt8 → Text × List UInt8
  | [] => ([], [])
  | b :: rest =>
    if b = SINGLE then ((rest.takeWhile (· ≠ SINGLE)).map asChar, (rest.dropWhile (· ≠ SINGLE)).drop 1)
    else if b = DOUBLE then
      ((escapedWord (· = DOUBLE) rest).1, (escapedWord (· = DOUBLE) rest).2.drop 1)
    else escapedWord isWs (b :: rest)

theorem escapedWord_length (ends : UInt8 → Bool) (l : List UInt8) :
    (escapedWord ends l).2.length ≤ l.length := by
  induction l using escapedWord.induct ends with
  | case1 => simp [escapedWord]
  | case2 b h => simp [escapedWord, h]
  | case3 b h => simp [escapedWord, h]
  | case4 b c rest h => simp [escapedWord, h]
  | case5 c rest h ih =>
    simp only [escapedWord, h, List.length_cons]
    simp
    omega
  | case6 b c rest h hb ih =>
    simp only [escapedWord, h, hb, List.length_cons] at ih ⊢
    simp
    omega

theorem escapedWord_shorter {ends : UInt8 → Bool} {b : UInt8} {rest : List UInt8} (hb : ends b = false) :
    (escapedWord ends (b :: rest)).2.length ≤ rest.length := by
  cases rest with
  | nil => simp [escapedWord, hb]
  | cons c rest =>
    have hrest := escapedWord_length ends rest
    have hcons := escapedWord_length ends (c :: rest)
    unfold escapedWord
    rw [if_neg (by simp [hb])]
    split_ifs
    · exact hrest.trans (Nat.le_succ _)
    · exact hcons

theorem nextWord_length {b : UInt8} {rest : List UInt8} (hb : isWs b = false) :
    (nextWord (b :: rest)).2.length ≤ rest.length := by
  unfold nextWord
  dsimp only
  split_ifs
  · rw [List.length_drop]
    exact (Nat.sub_le _ _).trans (List.dropWhile_suffix _).length_le
  · rw [List.length_drop]
    exact (Nat.sub_le _ _).trans (escapedWord_length _ rest)
  · exact escapedWord_shorter hb

theorem not_isWs_of_dropWhile {bytes rest : List UInt8} {b : UInt8} (h : bytes.dropWhile isWs = b :: rest) :
    isWs b = false := by
  have hhead := List.head?_dropWhile_not isWs bytes
  rw [h] at hhead
  simpa using hhead

/-- The words up to a comment. -/
def scanWords (bytes : List UInt8) : List Text :=
  match _h : bytes.dropWhile isWs with
  | [] => []
  | b :: rest =>
    if b = HASH then []
    else
      let word := (nextWord (b :: rest)).1
      let words := scanWords (nextWord (b :: rest)).2
      if word = [] then words else word :: words
termination_by bytes.length
decreasing_by
  have hshort := @nextWord_length _ rest (not_isWs_of_dropWhile _h)
  have hlength := (List.dropWhile_suffix isWs (l := bytes)).length_le
  rw [_h, List.length_cons] at hlength
  omega

/-- The words that are not options. Two of the options have an argument. -/
def depWords : List Text → List Text
  | [] => []
  | [w] =>
    if w = "--from-file".toList ∨ w = "--from-file0".toList then []
    else if w.head? = some '-' then [] else [w]
  | w :: next :: rest =>
    if w = "--from-file".toList ∨ w = "--from-file0".toList then depWords rest
    else if w.head? = some '-' then depWords (next :: rest) else w :: depWords (next :: rest)

def ifchangeDeps (line : Text) : List Text :=
  match afterStart "redo-ifchange".toList (trimStart line) with
  | none => []
  | some s => depWords (scanWords (encode s))

/-- The function of `redo.rs`. -/
def Plan.parseRedoIfchangeDeps (line : Text) : List Text := ifchangeDeps line

/-- The same text in `redo_log.rs`. -/
def RedoLog.parseRedoIfchangeDeps (line : Text) : List Text := ifchangeDeps line

/-! ## How words are written -/

def isBlank (c : Char) : Bool := c = ' ' || c = '\t' || c = '\n' || c = '\r'

/-- The characters of a word; before some of them a backslash. -/
def escapes (chars : List (Char × Bool)) : Text :=
  chars.flatMap fun p => if p.2 then ['\\', p.1] else [p.1]

/-- A word in one of the three forms. -/
inductive Written where
  | single (word : Text) (plain : '\'' ∉ word)
  | double (chars : List (Char × Bool)) (plain : ∀ p ∈ chars, p.2 = false → p.1 ≠ '"' ∧ p.1 ≠ '\\')
  | bare (chars : List (Char × Bool))
      (plain : ∀ p ∈ chars, p.2 = false → isBlank p.1 = false ∧ p.1 ≠ '"' ∧ p.1 ≠ '\'' ∧ p.1 ≠ '\\')
      (start : chars.head? ≠ some ('#', false))

namespace Written

def word : Written → Text
  | single word _ => word
  | double chars _ => chars.map Prod.fst
  | bare chars _ _ => chars.map Prod.fst

def text : Written → Text
  | single word _ => '\'' :: (word ++ ['\''])
  | double chars _ => '"' :: (escapes chars ++ ['"'])
  | bare chars _ _ => escapes chars

end Written

/-- A word of the line with the blanks before it. -/
structure Dependency where
  gap : Text
  written : Written
  gap_ne : gap ≠ []
  gap_blank : ∀ c ∈ gap, isBlank c = true
  word_ne : written.word ≠ []
  word_plain : written.word.head? ≠ some '-'

structure DependencyLine where
  front : Text
  deps : List Dependency
  back : Text
  front_blank : ∀ c ∈ front, isBlank c = true
  back_blank : ∀ c ∈ back, isBlank c = true

namespace DependencyLine

def text (l : DependencyLine) : Text :=
  l.front ++ ("redo-ifchange".toList ++ (l.deps.flatMap (fun d => d.gap ++ d.written.text) ++ l.back))

def words (l : DependencyLine) : List Text := l.deps.map fun d => d.written.word

end DependencyLine

/-- A word with each of its bytes as a character. -/
def misread (w : Text) : Text := (encode w).map asChar

/-! ## Bytes of characters -/

variable {c : Char} {b : UInt8} {ends : UInt8 → Bool} {bs rest : List UInt8}

theorem isWs_iff : isWs b = true ↔ b = 32 ∨ b = 9 ∨ b = 10 ∨ b = 13 := by
  simp [isWs, or_assoc]

theorem isBlank_iff : isBlank c = true ↔ c = ' ' ∨ c = '\t' ∨ c = '\n' ∨ c = '\r' := by
  simp [isBlank, or_assoc]

theorem isBlank_of_isWs (hb : isWs b = true) (h : b ∈ String.utf8EncodeChar c) : isBlank c = true := by
  rw [isBlank_iff]
  rcases isWs_iff.mp hb with rfl | rfl | rfl | rfl
  · exact .inl (eq_of_mem_encodeChar (a := ' ') (by decide) h)
  · exact .inr (.inl (eq_of_mem_encodeChar (a := '\t') (by decide) h))
  · exact .inr (.inr (.inl (eq_of_mem_encodeChar (a := '\n') (by decide) h)))
  · exact .inr (.inr (.inr (eq_of_mem_encodeChar (a := '\r') (by decide) h)))

theorem isWs_of_isBlank {t : Text} (ht : ∀ c ∈ t, isBlank c = true) (hb : b ∈ encode t) : isWs b = true := by
  obtain ⟨c, hc, hmem⟩ := List.mem_flatMap.mp hb
  rcases isBlank_iff.mp (ht c hc) with rfl | rfl | rfl | rfl
  all_goals
    rw [encodeChar_ascii (by decide), List.mem_singleton] at hmem
    rw [hmem]
    decide

/-! ## Words with escapes -/

theorem escapedWord_cons (hend : ends b = false) (hb : b ≠ BACKSLASH) :
    escapedWord ends (b :: rest) = (asChar b :: (escapedWord ends rest).1, (escapedWord ends rest).2) := by
  cases rest with
  | nil => simp [escapedWord, hend]
  | cons c rest => simp [escapedWord, hend, hb]

theorem escapedWord_plain (hplain : ∀ b ∈ bs, ends b = false ∧ b ≠ BACKSLASH) (rest : List UInt8) :
    escapedWord ends (bs ++ rest) = (bs.map asChar ++ (escapedWord ends rest).1, (escapedWord ends rest).2) := by
  induction bs with
  | nil => rfl
  | cons b bs ih =>
    obtain ⟨hend, hb⟩ := hplain b List.mem_cons_self
    rw [List.cons_append, escapedWord_cons hend hb, ih fun b hb => hplain b (List.mem_cons_of_mem _ hb)]
    rfl

theorem escapedWord_escape (hends : ends BACKSLASH = false) (b : UInt8) (rest : List UInt8) :
    escapedWord ends (BACKSLASH :: b :: rest) =
      (asChar b :: (escapedWord ends rest).1, (escapedWord ends rest).2) := by
  simp [escapedWord, hends]

/-- What ends a word is a byte below 128, and not the backslash. -/
structure Ends (ends : UInt8 → Bool) : Prop where
  small : ∀ b, ends b = true → b.toNat < 128
  not_backslash : ends BACKSLASH = false

theorem ends_double : Ends (· = DOUBLE) where
  small b hb := by
    rw [of_decide_eq_true hb]
    decide
  not_backslash := by decide

theorem ends_isWs : Ends isWs where
  small b hb := by rcases isWs_iff.mp hb with rfl | rfl | rfl | rfl <;> decide
  not_backslash := by decide

/-- A character behind a backslash stands for itself. -/
theorem escapedWord_char (h : Ends ends) (c : Char) (rest : List UInt8) :
    escapedWord ends (BACKSLASH :: (String.utf8EncodeChar c ++ rest)) =
      ((String.utf8EncodeChar c).map asChar ++ (escapedWord ends rest).1, (escapedWord ends rest).2) := by
  cases hchar : String.utf8EncodeChar c with
  | nil => simp at hchar
  | cons first others =>
    have hplain : ∀ b ∈ others, ends b = false ∧ b ≠ BACKSLASH := by
      intro b hb
      have hlarge : 128 ≤ b.toNat := tail_encodeChar (c := c) (by rw [hchar]; exact hb)
      refine ⟨?_, ?_⟩
      · by_contra hend
        have hsmall := h.small b (by simpa using hend)
        omega
      · rintro rfl
        exact absurd hlarge (by decide)
    rw [List.cons_append, escapedWord_escape h.not_backslash, escapedWord_plain hplain]
    rfl

/-- The characters come back as bytes, however they are escaped. -/
theorem escapedWord_escapes (h : Ends ends) {chars : List (Char × Bool)}
    (hplain : ∀ p ∈ chars, p.2 = false → ∀ b ∈ String.utf8EncodeChar p.1, ends b = false ∧ b ≠ BACKSLASH)
    (rest : List UInt8) :
    escapedWord ends (encode (escapes chars) ++ rest) =
      (misread (chars.map Prod.fst) ++ (escapedWord ends rest).1, (escapedWord ends rest).2) := by
  induction chars with
  | nil => rfl
  | cons p chars ih =>
    obtain ⟨c, escaped⟩ := p
    have hnext := ih fun p hp => hplain p (List.mem_cons_of_mem _ hp)
    have hword : misread (((c, escaped) :: chars).map Prod.fst) =
        (String.utf8EncodeChar c).map asChar ++ misread (chars.map Prod.fst) := by
      rw [List.map_cons, misread, encode_cons, List.map_append]
      rfl
    cases escaped with
    | true =>
      have htext : encode (escapes ((c, true) :: chars)) =
          BACKSLASH :: (String.utf8EncodeChar c ++ encode (escapes chars)) := by
        simp [escapes, encode]
        rfl
      rw [htext, List.cons_append, List.append_assoc, escapedWord_char h, hnext, hword, List.append_assoc]
    | false =>
      have htext : encode (escapes ((c, false) :: chars)) = String.utf8EncodeChar c ++ encode (escapes chars) := by
        simp [escapes, encode]
      have hchar := hplain (c, false) List.mem_cons_self rfl
      rw [htext, List.append_assoc, escapedWord_plain hchar, hnext, hword, List.append_assoc]

/-! ## A written word is read -/

theorem nextWord_bare (hs : bs.head? ≠ some SINGLE) (hd : bs.head? ≠ some DOUBLE) :
    nextWord bs = escapedWord isWs bs := by
  cases bs with
  | nil => rfl
  | cons b bs =>
    have hsingle : b ≠ SINGLE := fun he => hs (by rw [he]; rfl)
    have hdouble : b ≠ DOUBLE := fun he => hd (by rw [he]; rfl)
    simp [nextWord, hsingle, hdouble]

theorem escapedWord_ended (h : ∀ b, bs.head? = some b → ends b = true) : escapedWord ends bs = ([], bs) := by
  cases bs with
  | nil => rfl
  | cons b bs =>
    have hb := h b rfl
    cases bs <;> simp [escapedWord, hb]

theorem nextWord_single {word : Text} (h : '\'' ∉ word) (rest : List UInt8) :
    nextWord (SINGLE :: (encode word ++ SINGLE :: rest)) = (misread word, rest) := by
  have hkeep : ∀ b ∈ encode word, decide (b ≠ SINGLE) = true := by
    intro b hb
    refine decide_eq_true ?_
    rintro rfl
    obtain ⟨c, hc, hmem⟩ := List.mem_flatMap.mp hb
    cases eq_of_mem_encodeChar (a := '\'') (by decide) hmem
    exact h hc
  unfold nextWord
  dsimp only
  rw [if_pos rfl, List.takeWhile_append_of_pos hkeep, List.dropWhile_append_of_pos hkeep,
    List.takeWhile_cons_of_neg (by simp), List.dropWhile_cons_of_neg (by simp), List.append_nil]
  rfl

theorem nextWord_double {chars : List (Char × Bool)}
    (h : ∀ p ∈ chars, p.2 = false → p.1 ≠ '"' ∧ p.1 ≠ '\\') (rest : List UInt8) :
    nextWord (DOUBLE :: (encode (escapes chars) ++ DOUBLE :: rest)) = (misread (chars.map Prod.fst), rest) := by
  have hplain : ∀ p ∈ chars, p.2 = false → ∀ b ∈ String.utf8EncodeChar p.1,
      decide (b = DOUBLE) = false ∧ b ≠ BACKSLASH := by
    intro p hp hfalse b hb
    obtain ⟨hquote, hback⟩ := h p hp hfalse
    refine ⟨decide_eq_false ?_, ?_⟩
    · rintro rfl
      exact hquote (eq_of_mem_encodeChar (a := '"') (by decide) hb)
    · rintro rfl
      exact hback (eq_of_mem_encodeChar (a := '\\') (by decide) hb)
  have hend : escapedWord (· = DOUBLE) (DOUBLE :: rest) = ([], DOUBLE :: rest) := by
    refine escapedWord_ended ?_
    simp
  unfold nextWord
  dsimp only
  rw [if_neg (by decide), if_pos rfl, escapedWord_escapes ends_double hplain, hend]
  simp

/-- The first byte of a bare word. -/
theorem head_escapes {chars : List (Char × Bool)} (hne : chars ≠ []) :
    ∃ p ∈ chars.head?, ∃ b, (encode (escapes chars)).head? = some b ∧
      (p.2 = true ∧ b = BACKSLASH ∨ p.2 = false ∧ b ∈ String.utf8EncodeChar p.1) := by
  cases chars with
  | nil => exact absurd rfl hne
  | cons p chars =>
    obtain ⟨c, escaped⟩ := p
    refine ⟨(c, escaped), rfl, ?_⟩
    cases escaped with
    | true => exact ⟨BACKSLASH, by simp [escapes, encode]; rfl, .inl ⟨rfl, rfl⟩⟩
    | false =>
      cases hchar : String.utf8EncodeChar c with
      | nil => simp at hchar
      | cons b others =>
        exact ⟨b, by simp [escapes, encode, hchar], .inr ⟨rfl, by simp⟩⟩

namespace Written

/-- No word begins like a blank or a comment. -/
theorem head_text (w : Written) (hne : w.word ≠ []) :
    ∃ b, (encode w.text).head? = some b ∧ isWs b = false ∧ b ≠ HASH := by
  cases w with
  | single word plain => exact ⟨SINGLE, rfl, by decide, by decide⟩
  | double chars plain => exact ⟨DOUBLE, rfl, by decide, by decide⟩
  | bare chars plain start =>
    have hchars : chars ≠ [] := by
      rintro rfl
      exact hne rfl
    obtain ⟨p, hp, b, hb, ⟨_, rfl⟩ | ⟨hfalse, hmem⟩⟩ := head_escapes hchars
    · exact ⟨BACKSLASH, hb, by decide, by decide⟩
    · obtain ⟨hblank, _⟩ := plain p (List.mem_of_mem_head? hp) hfalse
      refine ⟨b, hb, ?_, ?_⟩
      · by_contra hws
        rw [isBlank_of_isWs (by simpa using hws) hmem] at hblank
        cases hblank
      · rintro rfl
        have hhash : p = ('#', false) := Prod.ext (eq_of_mem_encodeChar (a := '#') (by decide) hmem) hfalse
        exact start (hhash ▸ hp)

theorem nextWord_text (w : Written) (hne : w.word ≠ []) (hrest : ∀ b, rest.head? = some b → isWs b = true) :
    nextWord (encode w.text ++ rest) = (misread w.word, rest) := by
  cases w with
  | single word plain =>
    have htext : encode (single word plain).text ++ rest = SINGLE :: (encode word ++ SINGLE :: rest) := by
      simp [text, encode]
      rfl
    rw [htext]
    exact nextWord_single plain rest
  | double chars plain =>
    have htext : encode (double chars plain).text ++ rest =
        DOUBLE :: (encode (escapes chars) ++ DOUBLE :: rest) := by
      simp [text, encode]
      rfl
    rw [htext]
    exact nextWord_double plain rest
  | bare chars plain start =>
    have hplain : ∀ p ∈ chars, p.2 = false → ∀ b ∈ String.utf8EncodeChar p.1, isWs b = false ∧ b ≠ BACKSLASH := by
      intro p hp hfalse b hb
      obtain ⟨hblank, _, _, hback⟩ := plain p hp hfalse
      constructor
      · by_contra hws
        rw [isBlank_of_isWs (by simpa using hws) hb] at hblank
        cases hblank
      · rintro rfl
        exact hback (eq_of_mem_encodeChar (a := '\\') (by decide) hb)
    have hchars : chars ≠ [] := by
      rintro rfl
      exact hne rfl
    have hhead : ∀ q : Char, q.toNat < 128 → q = '\'' ∨ q = '"' →
        (encode (escapes chars) ++ rest).head? ≠ some (UInt8.ofNat q.toNat) := by
      intro q hq hquote hfirst
      obtain ⟨p, hp, b, hb, hcase⟩ := head_escapes hchars
      rw [List.head?_append, hb, Option.some_or] at hfirst
      cases hfirst
      rcases hcase with ⟨_, hback⟩ | ⟨hfalse, hmem⟩
      · rcases hquote with rfl | rfl <;> exact absurd hback (by decide)
      · obtain ⟨_, hdouble, hsingle, _⟩ := plain p (List.mem_of_mem_head? hp) hfalse
        have heq := eq_of_mem_encodeChar hq hmem
        rcases hquote with rfl | rfl
        · exact hsingle heq
        · exact hdouble heq
    have hs := hhead '\'' (by decide) (.inl rfl)
    have hd := hhead '"' (by decide) (.inr rfl)
    change nextWord (encode (escapes chars) ++ rest) = _
    rw [nextWord_bare hs hd, escapedWord_escapes ends_isWs hplain, escapedWord_ended hrest, List.append_nil]
    rfl

end Written

/-! ## A line is read -/

theorem misread_ne {w : Text} (h : w ≠ []) : misread w ≠ [] := by
  cases w with
  | nil => exact absurd rfl h
  | cons c w => simp [misread, encode_cons]

theorem scanWords_blank {t : Text} (ht : ∀ c ∈ t, isBlank c = true) (rest : List UInt8) :
    scanWords (encode t ++ rest) = scanWords rest := by
  have hdrop : (encode t ++ rest).dropWhile isWs = rest.dropWhile isWs :=
    List.dropWhile_append_of_pos fun b hb => isWs_of_isBlank ht hb
  conv_lhs => unfold scanWords
  conv_rhs => unfold scanWords
  rw [hdrop]

theorem scanWords_nil (h : bs.dropWhile isWs = []) : scanWords bs = [] := by
  rw [scanWords]
  split
  · rfl
  · next hcons =>
    rw [h] at hcons
    cases hcons

theorem scanWords_cons (h : bs.dropWhile isWs = b :: rest) (hhash : b ≠ HASH)
    (hword : (nextWord (b :: rest)).1 ≠ []) :
    scanWords bs = (nextWord (b :: rest)).1 :: scanWords (nextWord (b :: rest)).2 := by
  rw [scanWords]
  split
  · next hnil =>
    rw [h] at hnil
    cases hnil
  · next hcons =>
    rw [h] at hcons
    cases hcons
    rw [if_neg hhash, if_neg hword]

theorem scanWords_word (w : Written) (hne : w.word ≠ []) (hrest : ∀ b, rest.head? = some b → isWs b = true) :
    scanWords (encode w.text ++ rest) = misread w.word :: scanWords rest := by
  obtain ⟨b, hb, hws, hhash⟩ := w.head_text hne
  obtain ⟨others, hothers⟩ : ∃ others, encode w.text ++ rest = b :: others := by
    cases htext : encode w.text with
    | nil =>
      rw [htext] at hb
      cases hb
    | cons first others =>
      rw [htext] at hb
      cases hb
      exact ⟨_, rfl⟩
  have hdrop : (encode w.text ++ rest).dropWhile isWs = b :: others := by
    rw [hothers, List.dropWhile_cons_of_neg (by simp [hws])]
  have hnext := w.nextWord_text hne hrest
  rw [hothers] at hnext
  have hword : (nextWord (b :: others)).1 ≠ [] := by
    rw [hnext]
    exact misread_ne hne
  rw [scanWords_cons hdrop hhash hword, hnext]

/-- What follows a word begins with a blank. -/
theorem head_deps (deps : List Dependency) {back : Text} (hback : ∀ c ∈ back, isBlank c = true)
    (hb : (encode (deps.flatMap (fun d => d.gap ++ d.written.text) ++ back)).head? = some b) : isWs b = true := by
  cases deps with
  | nil => exact isWs_of_isBlank hback (List.mem_of_head? hb)
  | cons d deps =>
    obtain ⟨c, gap, hgap⟩ := List.exists_cons_of_ne_nil d.gap_ne
    have hc := d.gap_blank c (by simp [hgap])
    have hhead : b ∈ String.utf8EncodeChar c := by
      have hchar : String.utf8EncodeChar c ≠ [] := by simp
      rw [List.flatMap_cons, hgap, List.cons_append, List.cons_append, List.cons_append, encode_cons,
        List.head?_append_of_ne_nil _ hchar] at hb
      exact List.mem_of_head? hb
    refine isWs_of_isBlank (t := [c]) ?_ ?_
    · simpa using hc
    · simpa [encode] using hhead

theorem scanWords_deps (deps : List Dependency) {back : Text} (hback : ∀ c ∈ back, isBlank c = true) :
    scanWords (encode (deps.flatMap (fun d => d.gap ++ d.written.text) ++ back)) =
      deps.map fun d => misread d.written.word := by
  induction deps with
  | nil =>
    have hdrop : (encode back).dropWhile isWs = [] :=
      List.dropWhile_eq_nil_iff.mpr fun b hb => isWs_of_isBlank hback hb
    exact scanWords_nil hdrop
  | cons d deps ih =>
    rw [List.flatMap_cons, List.append_assoc, List.append_assoc, encode_append, scanWords_blank d.gap_blank,
      encode_append, scanWords_word d.written d.word_ne fun b hb => head_deps deps hback hb, ih]
    rfl

/-- Words that are no options are all kept. -/
theorem depWords_of_plain {words : List Text} (h : ∀ w ∈ words, w.head? ≠ some '-') : depWords words = words := by
  have hfile : ∀ w ∈ words, ¬(w = "--from-file".toList ∨ w = "--from-file0".toList) := by
    rintro w hw (rfl | rfl)
    all_goals exact h _ hw rfl
  induction words with
  | nil => rfl
  | cons w words ih =>
    have hhead := h w List.mem_cons_self
    have hoption := hfile w List.mem_cons_self
    have hrest := ih (fun w hw => h w (List.mem_cons_of_mem _ hw)) fun w hw => hfile w (List.mem_cons_of_mem _ hw)
    cases words with
    | nil => rw [depWords, if_neg hoption, if_neg hhead]
    | cons next words => rw [depWords, if_neg hoption, if_neg hhead, hrest]

theorem toNat_asChar (b : UInt8) : (asChar b).toNat = b.toNat := by
  have hvalid : b.toNat.isValidChar := .inl (b.toNat_lt.trans (by decide))
  rw [asChar, Char.ofNat, dif_pos hvalid]
  rfl

theorem misread_head {w : Text} (h : w.head? ≠ some '-') : (misread w).head? ≠ some '-' := by
  cases w with
  | nil => simp [misread, encode]
  | cons c w =>
    intro hhead
    cases hchar : String.utf8EncodeChar c with
    | nil => simp at hchar
    | cons first others =>
      have hfirst : asChar first = '-' := by
        simpa [misread, encode_cons, hchar] using hhead
      have hbyte : first = UInt8.ofNat '-'.toNat := by
        rw [← hfirst, toNat_asChar, UInt8.ofNat_toNat]
      have hc : c = '-' := eq_of_mem_encodeChar (by decide) (by rw [hchar, hbyte]; exact List.mem_cons_self)
      exact h (by rw [hc]; rfl)

theorem ifchangeDeps_text (l : DependencyLine) : ifchangeDeps l.text = l.words.map misread := by
  have hspace : ∀ c ∈ l.front, isSpace c = true := by
    intro c hc
    rcases isBlank_iff.mp (l.front_blank c hc) with rfl | rfl | rfl | rfl <;> decide
  have htrim : trimStart l.text =
      "redo-ifchange".toList ++ (l.deps.flatMap (fun d => d.gap ++ d.written.text) ++ l.back) := by
    unfold trimStart DependencyLine.text
    rw [List.dropWhile_append_of_pos hspace]
    rfl
  have hstart : afterStart "redo-ifchange".toList (trimStart l.text) =
      some (l.deps.flatMap (fun d => d.gap ++ d.written.text) ++ l.back) := by
    rw [htrim, afterStart, if_pos (List.isPrefixOf_iff_prefix.mpr (List.prefix_append _ _)), List.drop_left]
  have hplain : ∀ w ∈ l.words.map misread, w.head? ≠ some '-' := by
    intro w hw
    obtain ⟨word, hword, rfl⟩ := List.mem_map.mp hw
    obtain ⟨d, hd, rfl⟩ := List.mem_map.mp hword
    exact misread_head d.word_plain
  unfold ifchangeDeps
  rw [hstart]
  dsimp only
  have hwords : l.deps.map (fun d => misread d.written.word) = l.words.map misread := by
    rw [DependencyLine.words, List.map_map]
    rfl
  rw [scanWords_deps l.deps l.back_blank, hwords, depWords_of_plain hplain]

/-! ## Which words come back -/

theorem misread_cons (c : Char) (w : Text) :
    misread (c :: w) = (String.utf8EncodeChar c).map asChar ++ misread w := by
  rw [misread, encode_cons, List.map_append]
  rfl

theorem misread_of_ascii {w : Text} (h : ∀ c ∈ w, c.toNat < 128) : misread w = w := by
  induction w with
  | nil => rfl
  | cons c w ih =>
    have hc := h c List.mem_cons_self
    have hchar : asChar (UInt8.ofNat c.toNat) = c := by
      apply Char.ext
      apply UInt32.toNat_inj.mp
      have hbyte := toNat_asChar (UInt8.ofNat c.toNat)
      rw [UInt8.toNat_ofNat', Nat.mod_eq_of_lt (by omega)] at hbyte
      exact hbyte
    rw [misread_cons, encodeChar_ascii hc, ih fun c hc => h c (List.mem_cons_of_mem _ hc)]
    simp [hchar]

theorem length_misread (w : Text) : w.length ≤ (misread w).length := by
  induction w with
  | nil => exact le_rfl
  | cons c w ih =>
    have hpos : 1 ≤ (String.utf8EncodeChar c).length := by
      rw [String.length_utf8EncodeChar]
      exact c.utf8Size_pos
    rw [misread_cons, List.length_cons, List.length_append, List.length_map]
    omega

theorem misread_eq_iff {w : Text} : misread w = w ↔ ∀ c ∈ w, c.toNat < 128 := by
  refine ⟨fun h c hc => ?_, misread_of_ascii⟩
  by_contra hlarge
  obtain ⟨front, back, rfl⟩ := List.append_of_mem hc
  have hlength := congrArg List.length h
  have htwo : 1 < (String.utf8EncodeChar c).length := one_lt_length_encodeChar (by omega)
  have hfront := length_misread front
  have hback := length_misread back
  have happend : misread (front ++ c :: back) = misread front ++ misread (c :: back) := by
    rw [misread, encode_append, List.map_append]
    rfl
  rw [happend, misread_cons] at hlength
  simp only [List.length_append, List.length_cons, List.length_map] at hlength
  omega

theorem map_eq_self_iff {f : Text → Text} {words : List Text} : words.map f = words ↔ ∀ w ∈ words, f w = w := by
  induction words with
  | nil => simp
  | cons w words ih => simp [ih]

/-- The line is read back exactly when its words are ASCII. -/
theorem parseRedoIfchangeDeps_iff (l : DependencyLine) :
    (Plan.parseRedoIfchangeDeps l.text = l.words ↔ ∀ w ∈ l.words, ∀ c ∈ w, c.toNat < 128) ∧
      (RedoLog.parseRedoIfchangeDeps l.text = l.words ↔ ∀ w ∈ l.words, ∀ c ∈ w, c.toNat < 128) := by
  have hline : ifchangeDeps l.text = l.words ↔ ∀ w ∈ l.words, ∀ c ∈ w, c.toNat < 128 := by
    rw [ifchangeDeps_text, map_eq_self_iff]
    exact forall_congr' fun w => forall_congr' fun _ => misread_eq_iff
  exact ⟨hline, hline⟩

/-- `redo-ifchange 'é'` -/
def accented : DependencyLine where
  front := []
  deps := [⟨[' '], .single ['é'] (by decide), by decide, forall_of_all (by decide), by decide, by decide⟩]
  back := ['\n']
  front_blank := forall_of_all (by decide)
  back_blank := forall_of_all (by decide)

theorem not_read_back : ¬ ∀ l : DependencyLine, Plan.parseRedoIfchangeDeps l.text = l.words := by
  intro h
  have hread : misread ['é'] = ['é'] := by
    have hwords := h accented
    rw [Plan.parseRedoIfchangeDeps, ifchangeDeps_text] at hwords
    exact (List.cons.inj hwords).1
  have hascii := misread_eq_iff.mp hread 'é' List.mem_cons_self
  exact absurd hascii (by decide)

end Redo.Logs.Dependencies
