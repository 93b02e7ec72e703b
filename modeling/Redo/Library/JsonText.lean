import Mathlib.Data.Char
import Mathlib.Data.List.Basic
import Mathlib.Data.Nat.Basic
import Mathlib.Tactic.Common

/-! # Texts that are JSON

A reader for values without white space, and how their texts are put together: a text reads as a
value when the reader takes it for the value, whatever stands behind it.
-/
namespace Redo.Library

inductive Json where
  | null
  | bool (b : Bool)
  | nat (n : ℕ)
  | str (s : List Char)
  | arr (items : List Json)
  | obj (members : List (List Char × Json))

namespace Json

def hexValue (c : Char) : Option ℕ :=
  if '0' ≤ c ∧ c ≤ '9' then some (c.toNat - 48)
  else if 'a' ≤ c ∧ c ≤ 'f' then some (c.toNat - 87)
  else if 'A' ≤ c ∧ c ≤ 'F' then some (c.toNat - 55)
  else none

/-- Four digits. Code points outside of the first plane are not put together from two. -/
def readHex : List Char → Option (Char × List Char)
  | a :: b :: c :: d :: rest =>
    (hexValue a).bind fun a => (hexValue b).bind fun b => (hexValue c).bind fun c => (hexValue d).bind fun d =>
      let n := ((a * 16 + b) * 16 + c) * 16 + d
      if n.isValidChar then some (Char.ofNat n, rest) else none
  | _ => none

/-- What follows a backslash. -/
def readEscape : List Char → Option (Char × List Char)
  | [] => none
  | c :: rest =>
    if c = '"' ∨ c = '\\' ∨ c = '/' then some (c, rest)
    else if c = 'b' then some ('\x08', rest)
    else if c = 'f' then some ('\x0c', rest)
    else if c = 'n' then some ('\n', rest)
    else if c = 'r' then some ('\r', rest)
    else if c = 't' then some ('\t', rest)
    else if c = 'u' then readHex rest
    else none

/-- A character of a string, or nothing at its end. -/
def readChar : List Char → Option (Option Char × List Char)
  | [] => none
  | c :: rest =>
    if c = '"' then some (none, rest)
    else if c = '\\' then (readEscape rest).map fun p => (some p.1, p.2)
    else if c.toNat < 32 then none
    else some (some c, rest)

def readChars : ℕ → List Char → Option (List Char × List Char)
  | 0, _ => none
  | n + 1, t => (readChar t).bind fun p =>
    match p.1 with
    | none => some ([], p.2)
    | some c => (readChars n p.2).map fun q => (c :: q.1, q.2)

/-- The string behind a quote. -/
def readString (t : List Char) : Option (List Char × List Char) := readChars t.length t

def readItems {α : Type} (item : List Char → Option (α × List Char)) (close : Char) :
    ℕ → List Char → Option (List α × List Char)
  | 0, _ => none
  | n + 1, t => (item t).bind fun p =>
    if p.2.head? = some close then some ([p.1], p.2.tail)
    else if p.2.head? = some ',' then (readItems item close n p.2.tail).map fun q => (p.1 :: q.1, q.2)
    else none

def readSequence {α : Type} (item : List Char → Option (α × List Char)) (close : Char) (t : List Char) :
    Option (List α × List Char) :=
  if t.head? = some close then some ([], t.tail) else readItems item close t.length t

def readMember (value : List Char → Option (Json × List Char)) (t : List Char) :
    Option ((List Char × Json) × List Char) :=
  if t.head? = some '"' then
    (readString t.tail).bind fun key =>
      if key.2.head? = some ':' then (value key.2.tail).map fun p => ((key.1, p.1), p.2) else none
  else none

/-- A number without fraction or sign; only zero begins with a zero. -/
def readNat (t : List Char) : Option (Json × List Char) :=
  let digits := t.takeWhile Char.isDigit
  if digits.head? = some '0' ∧ digits ≠ ['0'] then none
  else some (.nat (Nat.ofDigitChars 10 digits 0), t.dropWhile Char.isDigit)

def readWord (t : List Char) : Option (Json × List Char) :=
  if "true".toList.isPrefixOf t then some (.bool true, t.drop 4)
  else if "false".toList.isPrefixOf t then some (.bool false, t.drop 5)
  else if "null".toList.isPrefixOf t then some (.null, t.drop 4)
  else none

/-- The value at the front of a text, down to some depth. -/
def readValue : ℕ → List Char → Option (Json × List Char)
  | 0, _ => none
  | n + 1, t =>
    if t.head? = some '"' then (readString t.tail).map fun p => (.str p.1, p.2)
    else if t.head? = some '[' then (readSequence (readValue n) ']' t.tail).map fun p => (.arr p.1, p.2)
    else if t.head? = some '\x7b' then
      (readSequence (readMember (readValue n)) '\x7d' t.tail).map fun p => (.obj p.1, p.2)
    else if t.head?.any Char.isDigit then readNat t
    else readWord t

def read (t : List Char) : Option Json :=
  (readValue (t.length + 1) t).bind fun p => if p.2 = [] then some p.1 else none

/-- Nothing that could belong to a number. -/
def Ends (rest : List Char) : Prop := ∀ c ∈ rest.head?, c.isDigit = false

/-- The reader takes the text for the value, whatever follows. -/
def Reads (v : Json) (t : List Char) : Prop :=
  ∀ n rest, t.length < n → Ends rest → readValue n (t ++ rest) = some (v, rest)

/-- The reader takes the text for the character, inside of a string. -/
def Spells (c : Char) (t : List Char) : Prop := ∀ rest, readChar (t ++ rest) = some (some c, rest)

variable {v : Json} {t rest s : List Char} {c : Char} {n : ℕ}

theorem ends_cons (h : c.isDigit = false) : Ends (c :: rest) := by
  intro d hd
  rw [List.head?_cons, Option.mem_some_iff] at hd
  rwa [← hd]

theorem Reads.read (h : Reads v t) : read t = some v := by
  have hread := h (t.length + 1) [] (Nat.lt_succ_self _) (by simp [Ends])
  rw [List.append_nil] at hread
  rw [Json.read, hread]
  rfl

theorem Spells.ne_nil (h : Spells c t) : t ≠ [] := by
  rintro rfl
  cases h []

theorem spells_self (hquote : c ≠ '"') (hback : c ≠ '\\') (hcontrol : 32 ≤ c.toNat) : Spells c [c] := by
  intro rest
  simp [readChar, hquote, hback, not_lt.mpr hcontrol]

theorem readChars_flatMap {spell : Char → List Char} (h : ∀ c ∈ s, Spells c (spell c)) (hn : s.length < n) :
    readChars n (s.flatMap spell ++ '"' :: rest) = some (s, rest) := by
  induction s generalizing n with
  | nil =>
    obtain ⟨n, rfl⟩ := Nat.exists_eq_add_of_lt hn
    rfl
  | cons c s ih =>
    cases n with
    | zero => cases hn
    | succ n =>
      have hrest := ih (fun d hd => h d (List.mem_cons_of_mem c hd)) (Nat.lt_of_succ_lt_succ hn)
      have hc := h c List.mem_cons_self (s.flatMap spell ++ '"' :: rest)
      rw [List.flatMap_cons, List.append_assoc, readChars, hc, Option.bind_some]
      simp only [hrest, Option.map_some]

theorem readString_flatMap {spell : Char → List Char} (h : ∀ c ∈ s, Spells c (spell c)) (rest : List Char) :
    readString (s.flatMap spell ++ '"' :: rest) = some (s, rest) := by
  refine readChars_flatMap h ?_
  have hlength : s.length ≤ (s.flatMap spell).length := by
    induction s with
    | nil => simp
    | cons c s ih =>
      have hpos := List.length_pos_of_ne_nil (h c List.mem_cons_self).ne_nil
      have hrest := ih fun d hd => h d (List.mem_cons_of_mem c hd)
      simp only [List.flatMap_cons, List.length_cons, List.length_append]
      omega
  simp only [List.length_append, List.length_cons]
  omega

theorem reads_str {spell : Char → List Char} (h : ∀ c ∈ s, Spells c (spell c)) :
    Reads (.str s) ('"' :: (s.flatMap spell ++ ['"'])) := by
  intro n rest hn _
  cases n with
  | zero => cases hn
  | succ n => simp [readValue, readString_flatMap h]

theorem reads_bool (b : Bool) : Reads (.bool b) (if b then "true".toList else "false".toList) := by
  intro n rest hn _
  cases n with
  | zero => cases hn
  | succ n => cases b <;> simp [readValue, readWord, List.isPrefixOf]

theorem head_toDigits (n : ℕ) : (Nat.toDigits 10 n).head? = some '0' → Nat.toDigits 10 n = ['0'] := by
  induction n using Nat.strong_induction_on with
  | _ n ih =>
    rw [Nat.toDigits_eq_if (by decide)]
    split
    · rename_i hlt
      intro h
      rw [List.head?_cons, Option.some_inj] at h
      rw [h]
    · rename_i hlt
      intro h
      have hne : Nat.toDigits 10 (n / 10) ≠ [] := Nat.toDigits_ne_nil
      rw [List.head?_append_of_ne_nil _ hne] at h
      have hzero := ih (n / 10) (by omega) h
      have hvalue := congrArg (Nat.ofDigitChars 10 · 0) hzero
      simp only [Nat.ofDigitChars_ten_toDigits] at hvalue
      have hdiv : n / 10 = 0 := hvalue
      omega

theorem reads_nat (k : ℕ) : Reads (.nat k) (Nat.toDigits 10 k) := by
  intro n rest hn hends
  cases n with
  | zero => cases hn
  | succ n =>
    have hdigits : ∀ c ∈ Nat.toDigits 10 k, c.isDigit = true := fun c hc =>
      Nat.isDigit_of_mem_toDigits (by decide) (by decide) hc
    obtain ⟨c, l, hcons⟩ := List.exists_cons_of_ne_nil (Nat.toDigits_ne_nil (n := k) (b := 10))
    have hc : c.isDigit = true := hdigits c (hcons ▸ List.mem_cons_self)
    have hnone : rest.takeWhile Char.isDigit = [] ∧ rest.dropWhile Char.isDigit = rest := by
      cases rest with
      | nil => simp
      | cons d rest =>
        have hd := hends d rfl
        simp [hd]
    have htake : (Nat.toDigits 10 k ++ rest).takeWhile Char.isDigit = Nat.toDigits 10 k := by
      rw [List.takeWhile_append_of_pos hdigits, hnone.1, List.append_nil]
    have hdrop : (Nat.toDigits 10 k ++ rest).dropWhile Char.isDigit = rest := by
      rw [List.dropWhile_append_of_pos hdigits, hnone.2]
    have hzero : ¬((Nat.toDigits 10 k).head? = some '0' ∧ Nat.toDigits 10 k ≠ ['0']) := fun h =>
      h.2 (head_toDigits k h.1)
    have hnat : readNat (Nat.toDigits 10 k ++ rest) = some (.nat k, rest) := by
      unfold readNat
      simp only [htake, hdrop, if_neg hzero, Nat.ofDigitChars_ten_toDigits]
    have hhead : (Nat.toDigits 10 k ++ rest).head? = some c := by rw [hcons]; rfl
    have hquote : c ≠ '"' := by rintro rfl; exact absurd hc (by decide)
    have hbracket : c ≠ '[' := by rintro rfl; exact absurd hc (by decide)
    have hbrace : c ≠ '\x7b' := by rintro rfl; exact absurd hc (by decide)
    rw [readValue, hhead]
    simp only [Option.some_inj, hquote, hbracket, hbrace, if_false, Option.any_some, hc, if_true, hnat]

theorem readItems_intercalate {α : Type} {item : List Char → Option (α × List Char)} {close : Char}
    {l : List (α × List Char)} (hitem : ∀ p ∈ l, ∀ rest, Ends rest → item (p.2 ++ rest) = some (p.1, rest))
    (hclose : close.isDigit = false) (hcomma : close ≠ ',') (hne : l ≠ []) (hn : l.length ≤ n)
    (rest : List Char) :
    readItems item close n ([','].intercalate (l.map Prod.snd) ++ close :: rest) = some (l.map Prod.fst, rest) := by
  induction l generalizing n with
  | nil => exact absurd rfl hne
  | cons p l ih =>
    cases n with
    | zero => cases hn
    | succ n =>
      have hp := hitem p List.mem_cons_self
      cases l with
      | nil =>
        have hread := hp (close :: rest) (ends_cons hclose)
        simp [readItems, hread]
      | cons q l =>
        have hrest := ih (fun q hq => hitem q (List.mem_cons_of_mem p hq)) (List.cons_ne_nil q l)
          (Nat.le_of_succ_le_succ hn)
        have hread := hp (',' :: ([','].intercalate ((q :: l).map Prod.snd) ++ close :: rest))
          (ends_cons (by decide))
        rw [List.map_cons, List.map_cons, List.intercalate_cons_cons, ← List.map_cons, List.append_assoc,
          List.append_assoc, List.singleton_append, readItems, hread, Option.bind_some]
        simp only [List.head?_cons, Option.some_inj, Ne.symm hcomma, if_false, if_true, List.tail_cons]
        rw [hrest]
        rfl

theorem length_intercalate {texts : List (List Char)} : texts.length ≤ ([','].intercalate texts).length + 1 ∧
    ∀ t ∈ texts, t.length ≤ ([','].intercalate texts).length := by
  induction texts with
  | nil => simp
  | cons a texts ih =>
    cases texts with
    | nil => simp
    | cons b texts =>
      rw [List.intercalate_cons_cons]
      simp only [List.length_append, List.length_cons, List.mem_cons] at ih ⊢
      refine ⟨by omega, ?_⟩
      rintro t (rfl | ht)
      · omega
      · have hle := ih.2 t ht
        omega

theorem readSequence_intercalate {α : Type} {item : List Char → Option (α × List Char)} {close : Char}
    {l : List (α × List Char)} (hitem : ∀ p ∈ l, ∀ rest, Ends rest → item (p.2 ++ rest) = some (p.1, rest))
    (hclose : close.isDigit = false) (hcomma : close ≠ ',')
    (hhead : ∀ p ∈ l, ∃ c t, p.2 = c :: t ∧ c ≠ close) (rest : List Char) :
    readSequence item close ([','].intercalate (l.map Prod.snd) ++ close :: rest) =
      some (l.map Prod.fst, rest) := by
  cases l with
  | nil => simp [readSequence]
  | cons p l =>
    obtain ⟨c, t, hp, hc⟩ := hhead p List.mem_cons_self
    have hfirst : ([','].intercalate ((p :: l).map Prod.snd) ++ close :: rest).head? ≠ some close := by
      cases l <;> simp [hp, hc]
    have hlength := (@length_intercalate ((p :: l).map Prod.snd)).1
    rw [readSequence, if_neg hfirst]
    refine readItems_intercalate hitem hclose hcomma (List.cons_ne_nil p l) ?_ rest
    simp only [List.length_append, List.length_cons, List.length_map] at hlength ⊢
    omega

theorem Reads.head (h : Reads v t) : ∃ c l, t = c :: l ∧ c ≠ ']' := by
  cases t with
  | nil =>
    have hread := h 1 [] Nat.one_pos (by simp [Ends])
    exact absurd hread (by simp [readValue, readWord])
  | cons c l =>
    refine ⟨c, l, rfl, ?_⟩
    rintro rfl
    have hread := h (l.length + 2) [] (by simp) (by simp [Ends])
    exact absurd hread (by simp [readValue, readWord, List.isPrefixOf])

theorem reads_arr {l : List (Json × List Char)} (h : ∀ p ∈ l, Reads p.1 p.2) :
    Reads (.arr (l.map Prod.fst)) ('[' :: ([','].intercalate (l.map Prod.snd) ++ [']'])) := by
  intro n rest hn _
  cases n with
  | zero => cases hn
  | succ n =>
    have hitem : ∀ p ∈ l, ∀ rest, Ends rest → readValue n (p.2 ++ rest) = some (p.1, rest) := by
      intro p hp rest hrest
      refine h p hp n rest ?_ hrest
      have hlength := length_intercalate.2 p.2 (List.mem_map_of_mem (f := Prod.snd) hp)
      simp only [List.length_cons, List.length_append, List.length_nil] at hn
      omega
    have hread := @readSequence_intercalate _ _ ']' _ hitem (by decide) (by decide)
      (fun p hp => (h p hp).head) rest
    simp [readValue, hread]

theorem reads_obj {spell : Char → List Char} {l : List (List Char × Json × List Char)}
    (hkey : ∀ p ∈ l, ∀ c ∈ p.1, Spells c (spell c)) (h : ∀ p ∈ l, Reads p.2.1 p.2.2) :
    Reads (.obj (l.map fun p => (p.1, p.2.1)))
      ('\x7b' :: ([','].intercalate (l.map fun p => '"' :: (p.1.flatMap spell ++ '"' :: ':' :: p.2.2)) ++
        ['\x7d'])) := by
  intro n rest hn _
  cases n with
  | zero => cases hn
  | succ n =>
    let members := l.map fun p => ((p.1, p.2.1), '"' :: (p.1.flatMap spell ++ '"' :: ':' :: p.2.2))
    have hfst : members.map Prod.fst = l.map fun p => (p.1, p.2.1) := by
      simp [members]
    have hsnd : members.map Prod.snd = l.map fun p => '"' :: (p.1.flatMap spell ++ '"' :: ':' :: p.2.2) := by
      simp [members]
    have hitem : ∀ m ∈ members, ∀ rest, Ends rest →
        readMember (readValue n) (m.2 ++ rest) = some (m.1, rest) := by
      intro m hm rest hrest
      obtain ⟨p, hp, rfl⟩ := List.mem_map.mp hm
      have hlength := length_intercalate.2 _ (List.mem_map_of_mem (f := Prod.snd) hm)
      rw [hsnd] at hlength
      simp only [List.length_cons, List.length_append, List.length_nil] at hn hlength
      have hvalue := h p hp n rest (by omega) hrest
      have hstring := readString_flatMap (hkey p hp) (':' :: p.2.2 ++ rest)
      simp only [List.cons_append] at hstring
      simp [readMember, hstring, hvalue]
    have hread := @readSequence_intercalate _ _ '\x7d' _ hitem (by decide) (by decide)
      (fun m hm => ?_) rest
    · rw [hfst, hsnd] at hread
      simp [readValue, hread]
    · obtain ⟨p, hp, rfl⟩ := List.mem_map.mp hm
      exact ⟨'"', _, rfl, by decide⟩

end Json
end Redo.Library
