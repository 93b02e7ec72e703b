import Redo.Remote.Push

/-! # The metadata file of an entry

Three lines with a name, an equals sign and a value each. What is written is read back.
-/
namespace Redo.Cache
open Remote

def metaText (m : CachedMeta) : Text :=
  ("mode=".toList ++ Nat.toDigits 10 m.mode.toNat) ++ '\n' ::
    (("size=".toList ++ Nat.toDigits 10 m.size.toNat) ++ '\n' ::
      (("sha256=".toList ++ m.sha256) ++ '\n' :: []))

def stripCr (line : Text) : Text := if line.getLast? = some '\r' then line.dropLast else line

/-- `str::lines`: a carriage return goes with a newline only. -/
def lines (t : Text) : List Text :=
  let parts := t.splitOn '\n'
  parts.dropLast.map stripCr ++ if parts.getLast? = some [] then [] else parts.getLast?.toList

def afterStart (start line : Text) : Option Text :=
  if start.isPrefixOf line then some (line.drop start.length) else none

structure MetaFields where
  mode : Option UInt32 := none
  size : Option UInt64 := none
  sha256 : Option Text := none

def readField (f : MetaFields) (line : Text) : MetaFields :=
  match afterStart "mode=".toList line with
  | some v => { f with mode := (parseUnsigned 4294967296 (trim v)).map UInt32.ofNat }
  | none =>
    match afterStart "size=".toList line with
    | some v => { f with size := (parseUnsigned 18446744073709551616 (trim v)).map UInt64.ofNat }
    | none =>
      match afterStart "sha256=".toList line with
      | some v => if trim v = [] then f else { f with sha256 := some (trim v) }
      | none => f

def readMeta (t : Text) : CachedMeta :=
  let f := (lines t).foldl readField {}
  { mode := f.mode.getD 0o644, size := f.size.getD 0, sha256 := f.sha256.getD [] }

variable {m : CachedMeta}

theorem stripCr_of_not_mem {line : Text} (h : '\r' ∉ line) : stripCr line = line := by
  rw [stripCr, if_neg fun hlast => h (List.mem_of_getLast? hlast)]

theorem not_mem_number (start : Text) {c : Char} (hstart : c ∉ start) (hc : c.isDigit = false) (n : ℕ) :
    c ∉ start ++ Nat.toDigits 10 n := by
  intro h
  rcases List.mem_append.mp h with h | h
  · exact hstart h
  · rw [isDigit_toDigits h] at hc
    cases hc

theorem not_mem_hex (start : Text) {c : Char} (hstart : c ∉ start) (hc : isHexDigit c = false) {t : Text}
    (ht : isHex t) : c ∉ start ++ t := by
  intro h
  rcases List.mem_append.mp h with h | h
  · exact hstart h
  · rw [isHex_digits ht c h] at hc
    cases hc

theorem lines_metaText (h : isHex m.sha256) :
    lines (metaText m) =
      ["mode=".toList ++ Nat.toDigits 10 m.mode.toNat, "size=".toList ++ Nat.toDigits 10 m.size.toNat,
        "sha256=".toList ++ m.sha256] := by
  have hparts : (metaText m).splitOn '\n' =
      ["mode=".toList ++ Nat.toDigits 10 m.mode.toNat, "size=".toList ++ Nat.toDigits 10 m.size.toNat,
        "sha256=".toList ++ m.sha256, []] := by
    rw [metaText, List.splitOn_append_cons_self_of_not_mem (not_mem_number _ (by decide) (by decide) _),
      List.splitOn_append_cons_self_of_not_mem (not_mem_number _ (by decide) (by decide) _),
      List.splitOn_append_cons_self_of_not_mem (not_mem_hex _ (by decide) (by decide) h)]
    rfl
  rw [lines, hparts]
  dsimp only [List.dropLast, List.map]
  rw [stripCr_of_not_mem (not_mem_number _ (by decide) (by decide) _),
    stripCr_of_not_mem (not_mem_number _ (by decide) (by decide) _),
    stripCr_of_not_mem (not_mem_hex _ (by decide) (by decide) h)]
  rfl

theorem trim_toDigits (n : ℕ) : trim (Nat.toDigits 10 n) = Nat.toDigits 10 n :=
  trim_of_not_space fun _ hc => isDigit_not_space (isDigit_toDigits hc)

/-- What `store` writes down, `lookup` reads. -/
theorem readMeta_metaText (h : isHex m.sha256) : readMeta (metaText m) = m := by
  have hmode : parseUnsigned 4294967296 (Nat.toDigits 10 m.mode.toNat) = some m.mode.toNat :=
    parseUnsigned_toDigits m.mode.toNat_lt
  have hsize : parseUnsigned 18446744073709551616 (Nat.toDigits 10 m.size.toNat) = some m.size.toNat :=
    parseUnsigned_toDigits m.size.toNat_lt
  have hne : m.sha256 ≠ [] := by
    intro hnil
    rw [hnil] at h
    cases h
  rw [readMeta, lines_metaText h]
  simp [readField, afterStart, trim_toDigits, trim_of_hex h, hmode, hsize, hne]

end Redo.Cache
