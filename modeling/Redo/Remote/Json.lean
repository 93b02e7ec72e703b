import Mathlib.Data.List.Basic
import Mathlib.Tactic.Common

/-! # The texts that clients and the cache server exchange

JSON is not parsed: a field is looked for by its quoted name. This finds what the printers
of this repository write, as the manifest shows.
-/
namespace Redo.Remote

abbrev Text := List Char

scoped instance : LawfulBEq Text := inferInstance

/-- The code points with the property White_Space. -/
def isSpace (c : Char) : Bool :=
  let n := c.toNat
  (9 ≤ n && n ≤ 13) || n == 0x20 || n == 0x85 || n == 0xA0 || n == 0x1680 ||
    (0x2000 ≤ n && n ≤ 0x200A) || n == 0x2028 || n == 0x2029 || n == 0x202F || n == 0x205F ||
    n == 0x3000

def trimStart (t : Text) : Text := t.dropWhile isSpace

def trimEnd (t : Text) : Text := (t.reverse.dropWhile isSpace).reverse

def trim (t : Text) : Text := trimEnd (trimStart t)

/-- The first line without the space around it: a carriage return at its end is space. -/
def firstLine (t : Text) : Text := trim (t.takeWhile (· ≠ '\n'))

def isHexDigit (c : Char) : Bool :=
  (48 ≤ c.toNat && c.toNat ≤ 57) || (97 ≤ c.toNat && c.toNat ≤ 102) || (65 ≤ c.toNat && c.toNat ≤ 70)

def isHex (t : Text) : Bool := !t.isEmpty && t.all isHexDigit

/-- A name that the server takes for the digest of a manifest. -/
def isDigest (t : Text) : Bool := t.length == 64 && isHex t

/-- What stands behind the first occurrence of `needle`. -/
def textAfter (needle : Text) : Text → Option Text
  | [] => if needle.isEmpty then some [] else none
  | c :: t =>
    if needle.isPrefixOf (c :: t) then some ((c :: t).drop needle.length) else textAfter needle t

def quoted (key : Text) : Text := '"' :: key ++ ['"']

/-- The value of the field, from its first character on. -/
def jsonValue (body key : Text) : Option Text :=
  ((textAfter (quoted key) body).bind fun rest => textAfter [':'] rest).map trimStart

def jsonGetString (body key : Text) : Option Text :=
  (jsonValue body key).bind fun rest =>
    match rest with
    | '"' :: rest => if '"' ∈ rest then some (rest.takeWhile (· ≠ '"')) else none
    | _ => none

def jsonGetU64 (body key : Text) : Option ℕ :=
  (jsonValue body key).bind fun rest =>
    let digits := rest.takeWhile Char.isDigit
    if digits.isEmpty then none
    else
      let n := Nat.ofDigitChars 10 digits 0
      if n < 18446744073709551616 then some n else none

/-- `parse` for an unsigned type with values below the bound. -/
def parseUnsigned (bound : ℕ) (t : Text) : Option ℕ :=
  let digits := if t.head? = some '+' then t.tail else t
  if digits ≠ [] ∧ digits.all Char.isDigit ∧ Nat.ofDigitChars 10 digits 0 < bound then
    some (Nat.ofDigitChars 10 digits 0)
  else none

/-- The manifest's digest in the body of a mapping. -/
def mappingManifest (body : Text) : Option Text :=
  (jsonGetString body "manifest_sha256".toList).or
    ((jsonGetString body "artifact_manifest_sha256".toList).or
      (jsonGetString body "artifact_manifest_digest".toList))

def mappingJson (manifest : Text) : Text :=
  "\x7b\"schema\":\"redo-action-result:v1\",\"manifest_sha256\":\"".toList ++
    (manifest ++ "\"\x7d".toList)

/-- The digest, and how texts are coded in the bodies of requests. -/
structure Hashing (Body : Type*) where
  bytes : Text → Body
  text : Body → Text
  sha : Body → Text
  text_bytes : ∀ t, text (bytes t) = t
  sha_isDigest : ∀ b, isDigest (sha b)

structure ArtifactManifest where
  blobSha256 : Text
  size : ℕ
  mode : ℕ
deriving DecidableEq, Repr

def manifestMode (m : ArtifactManifest) : Text :=
  "\"mode\":".toList ++ (Nat.toDigits 10 m.mode ++ "\x7d".toList)

def manifestSize (m : ArtifactManifest) : Text :=
  ",\"size\":".toList ++ (Nat.toDigits 10 m.size ++ ',' :: manifestMode m)

def manifestJson (m : ArtifactManifest) : Text :=
  "\x7b\"schema\":\"redo-artifact-manifest:v1\",\"kind\":\"file\",\"digest\":\"sha256:".toList ++
    (m.blobSha256 ++ '"' :: manifestSize m)

def parseArtifactManifestV1 (body : Text) : Option ArtifactManifest :=
  if (jsonGetString body "schema".toList).getD [] ≠ "redo-artifact-manifest:v1".toList then none
  else if (jsonGetString body "kind".toList).getD [] ≠ "file".toList then none
  else
    let digest := (jsonGetString body "digest".toList).getD []
    if "sha256:".toList.isPrefixOf digest then
      some
        { blobSha256 := digest.drop 7
          size := (jsonGetU64 body "size".toList).getD 0
          mode := (jsonGetU64 body "mode".toList).getD 0 % 4294967296 }
    else none

theorem isHexDigit_bounds {c : Char} (h : isHexDigit c = true) :
    (48 ≤ c.toNat ∧ c.toNat ≤ 57) ∨ (97 ≤ c.toNat ∧ c.toNat ≤ 102) ∨
      (65 ≤ c.toNat ∧ c.toNat ≤ 70) := by
  simp only [isHexDigit, Bool.or_eq_true, Bool.and_eq_true, decide_eq_true_eq] at h
  omega

theorem isHexDigit_not_space {c : Char} (h : isHexDigit c = true) : isSpace c = false := by
  have hb := isHexDigit_bounds h
  simp only [isSpace, Bool.or_eq_false_iff, Bool.and_eq_false_iff, decide_eq_false_iff_not,
    beq_eq_false_iff_ne]
  omega

theorem isHexDigit_ne {c d : Char} (h : isHexDigit c = true) (hd : isHexDigit d = false) : c ≠ d := by
  rintro rfl
  rw [h] at hd
  cases hd

theorem isHex_digits {t : Text} (h : isHex t) : ∀ c ∈ t, isHexDigit c = true := by
  simp only [isHex, Bool.and_eq_true, List.all_eq_true] at h
  exact h.2

theorem isDigest_isHex {t : Text} (h : isDigest t) : isHex t := by
  simp only [isDigest, Bool.and_eq_true] at h
  exact h.2

theorem dropWhile_of_none {p : Char → Bool} {t : Text} (h : ∀ c ∈ t, p c = false) :
    t.dropWhile p = t := by
  cases t with
  | nil => rfl
  | cons c t => simp [List.dropWhile, h c List.mem_cons_self]

theorem not_space_of_all {t : Text} (h : t.all fun c => !isSpace c) : ∀ c ∈ t, isSpace c = false :=
  fun c hc => by simpa using List.all_eq_true.mp h c hc

theorem forall_of_all {p : Char → Prop} [DecidablePred p] {t : Text} (h : t.all fun c => decide (p c)) :
    ∀ c ∈ t, p c :=
  fun c hc => of_decide_eq_true (List.all_eq_true.mp h c hc)

theorem trim_of_not_space {t : Text} (h : ∀ c ∈ t, isSpace c = false) : trim t = t := by
  rw [trim, trimStart, dropWhile_of_none h, trimEnd, dropWhile_of_none, List.reverse_reverse]
  exact fun c hc => h c (List.mem_reverse.mp hc)

theorem trim_of_hex {t : Text} (h : isHex t) : trim t = t :=
  trim_of_not_space fun c hc => isHexDigit_not_space (isHex_digits h c hc)

/-- What a mapping file says is the digest that was written to it. -/
theorem firstLine_of_hex {t : Text} (h : isHex t) : firstLine (t ++ ['\n']) = t := by
  have hline : (t ++ ['\n']).takeWhile (· ≠ '\n') = t := by
    rw [List.takeWhile_append_of_pos]
    · simp
    · intro c hc
      simpa using isHexDigit_ne (isHex_digits h c hc) (by decide)
  rw [firstLine, hline, trim_of_hex h]

/-- The name of a field is not found in what has no quote. -/
theorem textAfter_append {needle t : Text} {q : Char} (h : q ∉ t) (rest : Text) :
    textAfter (q :: needle) (t ++ rest) = textAfter (q :: needle) rest := by
  induction t with
  | nil => rfl
  | cons c t ih =>
    have hc : (q == c) = false := by
      rw [beq_eq_false_iff_ne]
      rintro rfl
      exact h List.mem_cons_self
    rw [List.cons_append, textAfter, if_neg (by simp [List.isPrefixOf, hc])]
    exact ih fun hm => h (List.mem_cons_of_mem c hm)

theorem not_quote_of_hex {t : Text} (h : isHex t) : '"' ∉ t :=
  fun hm => isHexDigit_ne (isHex_digits h _ hm) (by decide) rfl

theorem takeWhile_quote {t : Text} (h : '"' ∉ t) (rest : Text) :
    (t ++ '"' :: rest).takeWhile (· ≠ '"') = t := by
  rw [List.takeWhile_append_of_pos]
  · simp
  · intro c hc
    have hne : c ≠ '"' := by
      rintro rfl
      exact h hc
    simpa using hne

theorem jsonGetString_of_value {body key t rest : Text} (ht : '"' ∉ t)
    (h : jsonValue body key = some ('"' :: (t ++ '"' :: rest))) :
    jsonGetString body key = some t := by
  rw [jsonGetString, h, Option.bind_some]
  simp only [List.mem_append, List.mem_cons, true_or, or_true, if_true, takeWhile_quote ht]

theorem mappingManifest_mappingJson {m : Text} (h : isHex m) :
    mappingManifest (mappingJson m) = some m := by
  have hv : jsonValue (mappingJson m) "manifest_sha256".toList =
      some ('"' :: (m ++ '"' :: "\x7d".toList)) := rfl
  rw [mappingManifest, jsonGetString_of_value (not_quote_of_hex h) hv, Option.some_or]

theorem isDigit_bounds {c : Char} (h : c.isDigit = true) : 48 ≤ c.toNat ∧ c.toNat ≤ 57 := by
  simp only [Char.isDigit, Bool.and_eq_true, decide_eq_true_eq] at h
  exact ⟨h.1, Char.le_def.mp h.2⟩

theorem isDigit_toDigits {n : ℕ} {c : Char} (h : c ∈ Nat.toDigits 10 n) : c.isDigit = true :=
  Nat.isDigit_of_mem_toDigits (by omega) (by omega) h

theorem isDigit_not_space {c : Char} (h : c.isDigit = true) : isSpace c = false := by
  have hb := isDigit_bounds h
  simp only [isSpace, Bool.or_eq_false_iff, Bool.and_eq_false_iff, decide_eq_false_iff_not,
    beq_eq_false_iff_ne]
  omega

theorem parseUnsigned_toDigits {n bound : ℕ} (hn : n < bound) :
    parseUnsigned bound (Nat.toDigits 10 n) = some n := by
  have hsign : (Nat.toDigits 10 n).head? ≠ some '+' := by
    intro hplus
    have hdigit := isDigit_toDigits (List.mem_of_head? hplus)
    exact absurd hdigit (by decide)
  have hall : (Nat.toDigits 10 n).all Char.isDigit = true :=
    List.all_eq_true.mpr fun c hc => isDigit_toDigits hc
  rw [parseUnsigned, if_neg hsign, Nat.ofDigitChars_ten_toDigits]
  exact if_pos ⟨Nat.toDigits_ne_nil, hall, hn⟩

theorem not_quote_toDigits (n : ℕ) : '"' ∉ Nat.toDigits 10 n := by
  intro h
  have hd := isDigit_toDigits h
  revert hd
  decide

/-- Printing a number and reading it back. -/
theorem jsonGetU64_of_value {body key rest : Text} {n : ℕ} {c : Char} (hn : n < 18446744073709551616)
    (hc : c.isDigit = false)
    (h : (textAfter (quoted key) body).bind (textAfter [':']) =
      some (Nat.toDigits 10 n ++ c :: rest)) :
    jsonGetU64 body key = some n := by
  have hdigits : ∀ d ∈ Nat.toDigits 10 n, d.isDigit = true := fun d hd => isDigit_toDigits hd
  have hstart : trimStart (Nat.toDigits 10 n ++ c :: rest) = Nat.toDigits 10 n ++ c :: rest := by
    have hne := Nat.toDigits_ne_nil (b := 10) (n := n)
    cases hds : Nat.toDigits 10 n with
    | nil => exact absurd hds hne
    | cons d ds =>
      have hspace : isSpace d = false :=
        isDigit_not_space (hdigits d (by rw [hds]; exact List.mem_cons_self))
      simp [trimStart, hspace]
  have hvalue : jsonValue body key = some (Nat.toDigits 10 n ++ c :: rest) := by
    rw [jsonValue]
    simp only [h, Option.map_some, hstart]
  have htake : (Nat.toDigits 10 n ++ c :: rest).takeWhile Char.isDigit = Nat.toDigits 10 n := by
    rw [List.takeWhile_append_of_pos hdigits]
    simp [hc]
  rw [jsonGetU64, hvalue, Option.bind_some]
  simp only [htake, Nat.ofDigitChars_ten_toDigits, hn, if_true]
  rw [if_neg]
  simp

theorem textAfter_size (m : ArtifactManifest) (hblob : '"' ∉ m.blobSha256) {key : Text}
    (hskip : textAfter (quoted key) (manifestJson m) =
      textAfter (quoted key) (m.blobSha256 ++ '"' :: manifestSize m)) :
    textAfter (quoted key) (manifestJson m) = textAfter (quoted key) ('"' :: manifestSize m) := by
  rw [hskip, quoted, List.cons_append, textAfter_append hblob]

/-- A manifest is read back as it was printed. -/
theorem parse_manifestJson {m : ArtifactManifest} (hblob : isHex m.blobSha256)
    (hsize : m.size < 18446744073709551616) (hmode : m.mode < 4294967296) :
    parseArtifactManifestV1 (manifestJson m) = some m := by
  have hquote := not_quote_of_hex hblob
  have hschema : jsonGetString (manifestJson m) "schema".toList =
    some "redo-artifact-manifest:v1".toList := rfl
  have hkind : jsonGetString (manifestJson m) "kind".toList = some "file".toList := rfl
  have hdigest : jsonGetString (manifestJson m) "digest".toList =
      some ("sha256:".toList ++ m.blobSha256) := by
    have hv : jsonValue (manifestJson m) "digest".toList =
        some ('"' :: ("sha256:".toList ++ m.blobSha256 ++ '"' :: manifestSize m)) := by
      rw [List.append_assoc]
      rfl
    apply jsonGetString_of_value _ hv
    intro hm
    rcases List.mem_append.mp hm with hm | hm
    · revert hm
      decide
    · exact hquote hm
  have hsizeRead : jsonGetU64 (manifestJson m) "size".toList = some m.size := by
    apply jsonGetU64_of_value (c := ',') hsize (by decide)
    rw [textAfter_size m hquote rfl]
    rfl
  have hmodeRead : jsonGetU64 (manifestJson m) "mode".toList = some m.mode := by
    apply jsonGetU64_of_value (c := '\x7d') (by omega) (by decide)
    have hskip : textAfter (quoted "mode".toList) ('"' :: manifestSize m) =
      textAfter (quoted "mode".toList) (Nat.toDigits 10 m.size ++ ',' :: manifestMode m) := rfl
    rw [textAfter_size m hquote rfl, hskip, quoted, List.cons_append,
      textAfter_append (not_quote_toDigits m.size)]
    rfl
  rw [parseArtifactManifestV1, hschema, hkind, hdigest, hsizeRead, hmodeRead]
  simp [Nat.mod_eq_of_lt hmode]

end Redo.Remote
