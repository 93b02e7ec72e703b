import Redo.Cache.Metadata
import Redo.Processes.Pools
import Redo.Remote.Downloads

/-! # Pool directives

A directive is looked for in the first lines of a `.do` file. The file is cut at a number of bytes
before it is decoded and split into lines.
-/
namespace Redo.Processes.Directives
open Library Remote Cache

def LIMIT : ℕ := 16 * 1024

def MAX_LINES : ℕ := 64

inductive DirectiveError where
  | unreadable
  | missingName
  | missingDepth
  | badDepth (depthS : Text)
  | zeroDepth
  | exceeds (depth : ℕ)
deriving DecidableEq, Repr

/-- `depth as i64` -/
def asI64 (depth : ℕ) : ℤ := if depth < 2 ^ 63 then depth else depth - 18446744073709551616

theorem le_stride_of_asI64 {depth : ℕ} (h : ¬(POOL_LOCK_STRIDE : ℤ) < asI64 depth) :
    depth ≤ POOL_LOCK_STRIDE ∨ 2 ^ 63 ≤ depth := by
  unfold asI64 at h
  split_ifs at h with hsmall
  · left
    omega
  · right
    omega

/-- The words behind `# redo-pool:`. -/
def poolWords (line : Text) : Option (List Text) :=
  (afterStart ['#'] (trimStart line)).bind fun rest =>
    (afterStart "redo-pool:".toList (trimStart rest)).map Downloads.splitWhitespace

def poolSpec : List Text → Except DirectiveError PoolSpec
  | [] => .error .missingName
  | [_] => .error .missingDepth
  | name :: depthS :: _ =>
    match parseUnsigned (2 ^ 64) depthS with
    | none => .error (.badDepth depthS)
    | some depth =>
      if hpos : depth = 0 then .error .zeroDepth
      else if hlarge : (POOL_LOCK_STRIDE : ℤ) < asI64 depth then .error (.exceeds depth)
      else .ok ⟨encode name, depth, Nat.pos_of_ne_zero hpos, le_stride_of_asI64 hlarge⟩

def scanLines : List Text → Except DirectiveError (Option PoolSpec)
  | [] => .ok none
  | line :: lines =>
    match poolWords line with
    | none => scanLines lines
    | some words => (poolSpec words).map some

/-- The `.do` file is there; its content is given. -/
def parseRedoPoolDirective (content : List UInt8) : Except DirectiveError (Option PoolSpec) :=
  match decode (content.take LIMIT) with
  | none => .error .unreadable
  | some s => scanLines ((lines s).take MAX_LINES)

/-! ## What a file says -/

/-- The lines that end within the first `room` bytes. A carriage return before the newline is no part
of a line. -/
def within : ℕ → List Text → List Text
  | _, [] => []
  | room, line :: lines =>
    if room < (encode (stripCr line)).length then []
    else line :: if room ≤ (encode line).length then [] else within (room - ((encode line).length + 1)) lines

/-- What of a line lies within the first `room` bytes, if the line ends behind them. -/
def overhang : ℕ → List Text → Option (List UInt8)
  | _, [] => none
  | room, line :: lines =>
    if room < (encode (stripCr line)).length then some ((encode line).take room)
    else if room ≤ (encode line).length then none else overhang (room - ((encode line).length + 1)) lines

/-- The first of the lines that has a directive. -/
def firstWords (lines : List Text) : Option (List Text) := lines.findSome? poolWords

/-- The directive that a file has: it stands in the first lines, and within the limit. -/
def topWords (file : Text) : Option (List Text) :=
  firstWords ((within LIMIT (file.splitOn '\n')).take MAX_LINES)

/-- A name and a number. -/
def Declares (words : List Text) (name : Text) (depth : ℕ) : Prop :=
  ∃ depthS rest, words = name :: depthS :: rest ∧ parseUnsigned (2 ^ 64) depthS = some depth

def Valid (words : List Text) : Prop :=
  ∃ name depth, Declares words name depth ∧ 1 ≤ depth ∧ depth ≤ POOL_LOCK_STRIDE

/-- The directive's name and depth, nothing if there is no directive, and an error only for a
directive that is not valid. -/
structure AsClaimed (file : Text) (result : Except DirectiveError (Option PoolSpec)) : Prop where
  absent : topWords file = none → result = .ok none
  present : ∀ words, topWords file = some words → result ≠ .ok none
  valid : ∀ words, topWords file = some words → Valid words → ∃ spec, result = .ok (some spec)
  spec : ∀ words spec, topWords file = some words → result = .ok (some spec) →
    ∃ name, spec.name = encode name ∧ Declares words name spec.depth

/-- The limit does not fall into a character. -/
def Whole (file : Text) : Prop := (decode ((encode file).take LIMIT)).isSome

/-- The limit falls into one of the first lines, and what lies before it there is a directive. -/
def CutDirective (file : Text) : Prop :=
  (within LIMIT (file.splitOn '\n')).length < MAX_LINES ∧
    ∃ part, ((overhang LIMIT (file.splitOn '\n')).bind decode) = some part ∧ (poolWords part).isSome

/-- A depth that is negative as an `i64`. -/
def Oversized (words : List Text) : Prop := ∃ name depth, Declares words name depth ∧ 2 ^ 63 ≤ depth

/-- A directive that is not valid is an error. -/
def Strict (file : Text) (result : Except DirectiveError (Option PoolSpec)) : Prop :=
  ∀ words, topWords file = some words → ¬Valid words → ∃ e, result = .error e

/-- When the file is read as it should be. -/
def ReadsWell (file : Text) : Prop :=
  (Whole file ∧ (topWords file = none → ¬CutDirective file)) ∨
    ∃ words, topWords file = some words ∧ ¬Valid words

/-! ## The lines of what is decoded -/

theorem scanLines_eq (ls : List Text) :
    scanLines ls = ((firstWords ls).map fun words => (poolSpec words).map some).getD (.ok none) := by
  induction ls with
  | nil => rfl
  | cons line ls ih =>
    unfold scanLines firstWords
    rw [List.findSome?_cons]
    cases poolWords line with
    | none => exact ih
    | some words => rfl

theorem firstWords_append (front back : List Text) :
    firstWords (front ++ back) = (firstWords front).or (firstWords back) :=
  List.findSome?_append

theorem afterStart_concat {c : Char} {start : Text} (hc : c ∉ start) (t : Text) :
    afterStart start (t ++ [c]) = (afterStart start t).map (· ++ [c]) := by
  unfold afterStart
  by_cases hstart : start.isPrefixOf t = true
  · have hfront := List.isPrefixOf_iff_prefix.mp hstart
    have hlonger : start.isPrefixOf (t ++ [c]) = true :=
      List.isPrefixOf_iff_prefix.mpr (hfront.trans (List.prefix_append t [c]))
    rw [if_pos hstart, if_pos hlonger, List.drop_append_of_le_length hfront.length_le]
    rfl
  · have hlonger : ¬start.isPrefixOf (t ++ [c]) = true := by
      intro hlonger
      rcases List.prefix_concat_iff.mp (List.isPrefixOf_iff_prefix.mp hlonger) with heq | hfront
      · exact hc (heq ▸ List.mem_concat_self)
      · exact hstart (List.isPrefixOf_iff_prefix.mpr hfront)
    rw [if_neg hstart, if_neg hlonger]
    rfl

/-- A blank at the end stays, unless there is nothing else. -/
theorem trimStart_concat {c : Char} (hc : isSpace c = true) (t : Text) :
    trimStart (t ++ [c]) = if trimStart t = [] then [] else trimStart t ++ [c] := by
  unfold trimStart
  rw [List.dropWhile_append]
  simp [hc]

theorem splitWhitespace_concat {c : Char} (hc : isSpace c = true) (t : Text) :
    Downloads.splitWhitespace (t ++ [c]) = Downloads.splitWhitespace t := by
  unfold Downloads.splitWhitespace
  rw [List.splitOnP_append_cons _ _ hc]
  simp

theorem poolWords_concat (line : Text) : poolWords (line ++ ['\r']) = poolWords line := by
  have hr : isSpace '\r' = true := by decide
  unfold poolWords
  rw [trimStart_concat hr]
  split_ifs with hblank
  · rw [hblank]
  rw [afterStart_concat (by decide)]
  cases afterStart ['#'] (trimStart line) with
  | none => rfl
  | some rest =>
    dsimp only [Option.map_some, Option.bind_some]
    rw [trimStart_concat hr]
    split_ifs with hblank
    · rw [hblank]
    rw [afterStart_concat (by decide), Option.map_map]
    congr 1
    funext words
    exact splitWhitespace_concat hr words

theorem poolWords_stripCr (line : Text) : poolWords (stripCr line) = poolWords line := by
  unfold stripCr
  split_ifs with hlast
  · obtain ⟨front, rfl⟩ := List.getLast?_eq_some_iff.mp hlast
    rw [List.dropLast_concat, poolWords_concat]
  · rfl

/-- The lines without their line ends have the same directives. -/
theorem firstWords_lines (t : Text) (n : ℕ) :
    firstWords ((lines t).take n) = firstWords ((t.splitOn '\n').take n) := by
  obtain ⟨front, last, hparts⟩ : ∃ front last, t.splitOn '\n' = front ++ [last] :=
    ⟨_, _, (List.dropLast_concat_getLast (List.splitOn_ne_nil '\n' t)).symm⟩
  have hfront : ∀ k, firstWords ((front.map stripCr).take k) = firstWords (front.take k) := by
    intro k
    rw [← List.map_take]
    simp only [firstWords, List.findSome?_map]
    congr 1
    funext line
    exact poolWords_stripCr line
  have hlast : ∀ k, firstWords ((if some last = some [] then [] else [last]).take k) =
      firstWords ([last].take k) := by
    intro k
    split_ifs with hnil
    · cases hnil
      have hnone : poolWords [] = none := by decide
      cases k with
      | zero => rfl
      | succ k => simp [firstWords, hnone]
    · rfl
  unfold lines
  rw [hparts]
  dsimp only
  rw [List.dropLast_concat, List.getLast?_concat, Option.toList_some, List.take_append, List.take_append,
    firstWords_append, firstWords_append, hfront, hlast, List.length_map]

/-! ## The lines within the limit -/

/-- The words behind the cut that the limit makes in one of the first `n` lines. -/
def cutWords (room n : ℕ) (lines : List Text) : Option (List Text) :=
  if (within room lines).length < n then ((overhang room lines).bind decode).bind poolWords else none

/-- What the scan of what was decoded finds. -/
def readWords (room n : ℕ) (lines : List Text) : Option (List Text) :=
  (firstWords ((within room lines).take n)).or (cutWords room n lines)

theorem firstWords_one (line : Text) (n : ℕ) :
    firstWords ([line].take (n + 1)) = poolWords line := by
  simp [firstWords]

theorem stripCr_of_take {line part : Text} {room : ℕ} (hpart : encode part = (encode line).take room)
    (hle : (encode (stripCr line)).length ≤ room) (hroom : room ≤ (encode line).length) :
    part = line ∨ part = stripCr line := by
  have hinj : ∀ {t : Text}, encode part = encode t → part = t := by
    intro t ht
    have hdecode := decode_encode part
    rw [ht, decode_encode] at hdecode
    exact (Option.some.inj hdecode).symm
  unfold stripCr at hle ⊢
  split_ifs at hle ⊢ with hlast
  · obtain ⟨front, rfl⟩ := List.getLast?_eq_some_iff.mp hlast
    have hr : (encode ['\r']).length = 1 := by decide
    rw [List.dropLast_concat] at hle ⊢
    rw [encode_append, List.length_append, hr] at hroom
    rcases Nat.lt_or_ge (encode front).length room with hlt | hge
    · left
      rw [encode_append, List.take_of_length_le (by rw [List.length_append, hr]; omega)] at hpart
      exact hinj (hpart.trans (encode_append front ['\r']).symm)
    · right
      rw [encode_append, List.take_append_of_le_length hge, List.take_of_length_le hle] at hpart
      exact hinj hpart
  · left
    rw [List.take_of_length_le hle] at hpart
    exact hinj hpart

/-- The limit lies in the first line. -/
theorem readWords_part {line part : Text} {room : ℕ} (hpart : encode part = (encode line).take room)
    (hroom : room ≤ (encode line).length) (n : ℕ) (rest : List Text) :
    firstWords ([part].take n) = readWords room n (line :: rest) := by
  have hdecode : decode ((encode line).take room) = some part := by
    rw [← hpart]
    exact decode_encode part
  unfold readWords cutWords within overhang
  cases n with
  | zero => simp [firstWords]
  | succ n =>
    rw [firstWords_one]
    by_cases hcut : room < (encode (stripCr line)).length
    · simp [hcut, hdecode, firstWords]
    · have hsame : poolWords part = poolWords line := by
        rcases stripCr_of_take hpart (by omega) hroom with rfl | rfl
        · rfl
        · exact poolWords_stripCr line
      simp [hcut, hroom, hsame, firstWords]

theorem plain_of_take {line part : Text} {room : ℕ} (hline : '\n' ∉ line)
    (hpart : encode part = (encode line).take room) : '\n' ∉ part := by
  intro hmem
  have hnew := newline_mem_encode_iff.mpr hmem
  rw [hpart] at hnew
  exact hline (newline_mem_encode (List.mem_of_mem_take hnew))

/-- Text that begins with the bytes of a line begins with the line. -/
theorem line_of_encode {line text : Text} {b : List UInt8} (hline : '\n' ∉ line)
    (h : encode text = encode line ++ NEWLINE :: b) :
    ∃ rest, text = line ++ '\n' :: rest ∧ encode rest = b := by
  have hmem : NEWLINE ∈ encode text := by
    rw [h]
    simp
  obtain ⟨front, rest, rfl, hfront⟩ := List.eq_append_cons_of_mem (newline_mem_encode hmem)
  rw [encode_line] at h
  obtain ⟨hsame, hrest⟩ := append_cons_inj_of_not_mem (mt newline_mem_encode_iff.mp hfront)
    (mt newline_mem_encode_iff.mp hline) h
  have hdecode := decode_encode front
  rw [hsame, decode_encode] at hdecode
  cases hdecode
  exact ⟨rest, rfl, hrest⟩

theorem encode_stripCr_le (line : Text) : (encode (stripCr line)).length ≤ (encode line).length := by
  unfold stripCr
  split_ifs with hlast
  · obtain ⟨front, rfl⟩ := List.getLast?_eq_some_iff.mp hlast
    rw [List.dropLast_concat, encode_append, List.length_append]
    omega
  · exact le_rfl

/-- The limit lies behind the first line. -/
theorem readWords_cons {line : Text} {room : ℕ} (hroom : (encode line).length < room) (n : ℕ) (rest : List Text) :
    readWords room (n + 1) (line :: rest) =
      (poolWords line).or (readWords (room - ((encode line).length + 1)) n rest) := by
  have hshort := encode_stripCr_le line
  have hin : ¬room < (encode (stripCr line)).length := by omega
  have hbehind : ¬room ≤ (encode line).length := by omega
  have hone : firstWords [line] = poolWords line := firstWords_one line 0
  unfold readWords cutWords
  rw [within, overhang, if_neg hin, if_neg hin, if_neg hbehind, if_neg hbehind, List.take_succ_cons,
    ← List.singleton_append, firstWords_append, hone, Option.or_assoc]
  simp only [List.length_cons, Nat.add_lt_add_iff_right]

theorem readWords_zero (room : ℕ) (lines : List Text) : readWords room 0 lines = none := by
  simp [readWords, cutWords, firstWords]

/-- What is decoded of a file has the directives of the lines within the limit, and that of the line
that the limit cuts. -/
theorem firstWords_decode {pieces : List Text} {file text : Text} {room : ℕ} (n : ℕ)
    (hpieces : file.splitOn '\n' = pieces) (htext : decode ((encode file).take room) = some text) :
    firstWords ((text.splitOn '\n').take n) = readWords room n pieces := by
  induction pieces generalizing file text room n with
  | nil => exact absurd hpieces (List.splitOn_ne_nil '\n' file)
  | cons line rest ih =>
    have hbytes := encode_of_decode htext
    by_cases hmem : '\n' ∈ file
    · obtain ⟨front, back, rfl, hfront⟩ := List.eq_append_cons_of_mem hmem
      rw [List.splitOn_append_cons_self_of_not_mem hfront] at hpieces
      obtain ⟨rfl, hback⟩ := List.cons.inj hpieces
      have hfile : encode (front ++ '\n' :: back) = encode front ++ NEWLINE :: encode back :=
        encode_line front back
      rw [hfile] at hbytes
      by_cases hroom : room ≤ (encode front).length
      · rw [List.take_append_of_le_length hroom] at hbytes
        rw [List.splitOn_eq_singleton (plain_of_take hfront hbytes)]
        exact readWords_part hbytes hroom n rest
      · have hlonger : room - (encode front).length = (room - ((encode front).length + 1)) + 1 := by
          omega
        rw [List.take_append, List.take_of_length_le (by omega), hlonger, List.take_succ_cons] at hbytes
        obtain ⟨after, rfl, hafter⟩ := line_of_encode hfront hbytes
        rw [List.splitOn_append_cons_self_of_not_mem hfront]
        cases n with
        | zero =>
          rw [readWords_zero]
          rfl
        | succ n =>
          have hdecode : decode ((encode back).take (room - ((encode front).length + 1))) = some after := by
            rw [← hafter]
            exact decode_encode after
          have hone : firstWords [front] = poolWords front := firstWords_one front 0
          rw [readWords_cons (by omega), ← ih n hback hdecode, List.take_succ_cons, ← List.singleton_append,
            firstWords_append, hone]
    · rw [List.splitOn_eq_singleton hmem] at hpieces
      obtain ⟨rfl, rfl⟩ := List.cons.inj hpieces
      rw [List.splitOn_eq_singleton (plain_of_take hmem hbytes)]
      by_cases hroom : room ≤ (encode file).length
      · exact readWords_part hbytes hroom n []
      · rw [List.take_of_length_le (by omega)] at htext
        rw [decode_encode] at htext
        cases htext
        cases n with
        | zero =>
          rw [readWords_zero]
          rfl
        | succ n =>
          rw [readWords_cons (by omega), firstWords_one]
          have hnone : readWords (room - ((encode file).length + 1)) n [] = none := by
            unfold readWords cutWords
            split_ifs <;> simp [within, overhang, firstWords]
          rw [hnone, Option.or_none]

/-! ## The directive -/

theorem parse_of_decode {file text : Text} (htext : decode ((encode file).take LIMIT) = some text) :
    parseRedoPoolDirective (encode file) =
      (((topWords file).or (cutWords LIMIT MAX_LINES (file.splitOn '\n'))).map fun words =>
        (poolSpec words).map some).getD (.ok none) := by
  have hwords := firstWords_decode MAX_LINES rfl htext
  unfold parseRedoPoolDirective
  rw [htext]
  dsimp only
  rw [scanLines_eq, firstWords_lines, hwords]
  rfl

theorem parseUnsigned_lt {bound n : ℕ} {t : Text} (h : parseUnsigned bound t = some n) : n < bound := by
  unfold parseUnsigned at h
  extract_lets digits at h
  split_ifs at h with hdigits
  cases h
  exact hdigits.2.2

theorem parse_of_none {file : Text} (hnone : decode ((encode file).take LIMIT) = none) :
    parseRedoPoolDirective (encode file) = .error .unreadable := by
  unfold parseRedoPoolDirective
  rw [hnone]

theorem cutDirective_iff (file : Text) :
    CutDirective file ↔ cutWords LIMIT MAX_LINES (file.splitOn '\n') ≠ none := by
  unfold CutDirective cutWords
  split_ifs with hfew
  · cases (overhang LIMIT (file.splitOn '\n')).bind decode with
    | none => simp [hfew]
    | some part => simp [hfew, Option.isSome_iff_ne_none]
  · simp [hfew]

variable {words : List Text} {name : Text} {depth : ℕ} {spec : PoolSpec}

theorem poolSpec_of_declares (h : Declares words name depth) (hpos : depth ≠ 0)
    (hfit : ¬(POOL_LOCK_STRIDE : ℤ) < asI64 depth) : ∃ spec, poolSpec words = .ok spec := by
  obtain ⟨depthS, rest, rfl, hdepth⟩ := h
  unfold poolSpec
  simp only [hdepth, dif_neg hpos, dif_neg hfit]
  exact ⟨_, rfl⟩

/-- A directive that is accepted is a name and a number. -/
theorem poolSpec_ok (h : poolSpec words = .ok spec) :
    ∃ name, spec.name = encode name ∧ Declares words name spec.depth ∧ spec.depth ≠ 0 ∧
      ¬(POOL_LOCK_STRIDE : ℤ) < asI64 spec.depth := by
  unfold poolSpec at h
  split at h
  · cases h
  · cases h
  · next name depthS rest =>
    split at h
    · cases h
    · next depth hdepth =>
      split_ifs at h with hpos hlarge
      cases h
      exact ⟨name, rfl, ⟨depthS, rest, rfl, hdepth⟩, hpos, hlarge⟩

theorem Declares.unique {name' : Text} {depth' : ℕ} (h : Declares words name depth)
    (h' : Declares words name' depth') : name = name' ∧ depth = depth' := by
  obtain ⟨depthS, rest, rfl, hdepth⟩ := h
  obtain ⟨depthS', rest', heq, hdepth'⟩ := h'
  cases heq
  rw [hdepth] at hdepth'
  cases hdepth'
  exact ⟨rfl, rfl⟩

theorem Valid.not_oversized (h : Valid words) : ¬Oversized words := by
  rintro ⟨name', depth', hdeclares', hlarge⟩
  obtain ⟨name, depth, hdeclares, _, hle⟩ := h
  obtain ⟨_, rfl⟩ := hdeclares.unique hdeclares'
  have hstride : POOL_LOCK_STRIDE < 2 ^ 63 := by decide
  omega

/-- A valid directive is accepted. -/
theorem poolSpec_of_valid (h : Valid words) : ∃ spec, poolSpec words = .ok spec := by
  obtain ⟨name, depth, hdeclares, hpos, hle⟩ := h
  have hsmall : depth < 2 ^ 63 := Nat.lt_of_le_of_lt hle (by decide)
  refine poolSpec_of_declares hdeclares (by omega) ?_
  rw [asI64, if_pos hsmall]
  omega

/-- Besides the valid directives those are accepted whose depth is negative as an `i64`. -/
theorem poolSpec_error_iff (h : ¬Valid words) : (∃ e, poolSpec words = .error e) ↔ ¬Oversized words := by
  cases hspec : poolSpec words with
  | error e =>
    refine iff_of_true ⟨e, rfl⟩ ?_
    rintro ⟨name, depth, hdeclares, hlarge⟩
    have hlt : depth < 2 ^ 64 := by
      obtain ⟨depthS, rest, _, hdepth⟩ := hdeclares
      exact parseUnsigned_lt hdepth
    have hfit : ¬(POOL_LOCK_STRIDE : ℤ) < asI64 depth := by
      rw [asI64, if_neg (by omega)]
      omega
    obtain ⟨spec, hok⟩ := poolSpec_of_declares hdeclares (by omega) hfit
    rw [hspec] at hok
    cases hok
  | ok spec =>
    refine iff_of_false (by simp) ?_
    obtain ⟨name, _, hdeclares, hpos, hfit⟩ := poolSpec_ok hspec
    rcases le_stride_of_asI64 hfit with hle | hlarge
    · exact absurd ⟨name, spec.depth, hdeclares, by omega, hle⟩ h
    · exact not_not_intro ⟨name, spec.depth, hdeclares, hlarge⟩

theorem asClaimed_of_decode {file text : Text} (htext : decode ((encode file).take LIMIT) = some text) :
    AsClaimed file (parseRedoPoolDirective (encode file)) ↔ (topWords file = none → ¬CutDirective file) := by
  rw [parse_of_decode htext, cutDirective_iff, not_not]
  cases htop : topWords file with
  | none =>
    rw [Option.none_or]
    constructor
    · intro h _
      have habsent := h.absent htop
      cases hcut : cutWords LIMIT MAX_LINES (file.splitOn '\n') with
      | none => rfl
      | some words =>
        rw [hcut] at habsent
        cases hspec : poolSpec words <;> simp [hspec, Except.map] at habsent
    · intro h
      rw [h rfl]
      refine ⟨fun _ => rfl, ?_, ?_, ?_⟩
      all_goals simp [htop]
  | some words =>
    rw [Option.some_or]
    refine iff_of_true ⟨?_, ?_, ?_, ?_⟩ (by simp)
    · simp [htop]
    · intro words' hwords'
      cases hspec : poolSpec words <;> simp [hspec, Except.map]
    · intro words' hwords' hvalid
      cases htop.symm.trans hwords'
      obtain ⟨spec, hspec⟩ := poolSpec_of_valid hvalid
      exact ⟨spec, by simp [hspec, Except.map]⟩
    · intro words' spec hwords' hok
      cases htop.symm.trans hwords'
      cases hspec : poolSpec words with
      | error e => simp [hspec, Except.map] at hok
      | ok spec' =>
        obtain ⟨name, hname, hdeclares, _⟩ := poolSpec_ok hspec
        simp only [Option.map_some, Option.getD_some, hspec, Except.map, Except.ok.injEq,
          Option.some.injEq] at hok
        subst hok
        exact ⟨name, hname, hdeclares⟩

theorem asClaimed_of_none {file : Text} (hnone : decode ((encode file).take LIMIT) = none) :
    AsClaimed file (parseRedoPoolDirective (encode file)) ↔ ∃ words, topWords file = some words ∧ ¬Valid words := by
  rw [parse_of_none hnone]
  cases htop : topWords file with
  | none =>
    refine iff_of_false (fun h => ?_) (by simp)
    cases h.absent htop
  | some words =>
    constructor
    · intro h
      refine ⟨words, rfl, fun hvalid => ?_⟩
      obtain ⟨spec, hspec⟩ := h.valid words htop hvalid
      cases hspec
    · rintro ⟨words', hwords', hinvalid⟩
      cases hwords'
      refine ⟨by simp [htop], by simp, ?_, by simp⟩
      intro words' hwords' hvalid
      cases htop.symm.trans hwords'
      exact absurd hvalid hinvalid

theorem asClaimed_iff (file : Text) :
    AsClaimed file (parseRedoPoolDirective (encode file)) ↔ ReadsWell file := by
  unfold ReadsWell Whole
  cases htext : decode ((encode file).take LIMIT) with
  | none =>
    rw [asClaimed_of_none htext]
    simp
  | some text =>
    rw [asClaimed_of_decode htext]
    constructor
    · intro h
      exact .inl ⟨rfl, h⟩
    · rintro (⟨_, h⟩ | ⟨words, hwords, _⟩)
      · exact h
      · simp [hwords]

theorem strict_iff (file : Text) :
    Strict file (parseRedoPoolDirective (encode file)) ↔
      ∀ words, topWords file = some words → Whole file → ¬Oversized words := by
  unfold Strict Whole
  cases htext : decode ((encode file).take LIMIT) with
  | none =>
    rw [parse_of_none htext]
    simp
  | some text =>
    rw [parse_of_decode htext]
    refine forall_congr' fun words => forall_congr' fun hwords => ?_
    rw [hwords, Option.some_or, Option.map_some, Option.getD_some]
    by_cases hvalid : Valid words
    · exact iff_of_true (fun hinvalid => absurd hvalid hinvalid) fun _ => hvalid.not_oversized
    · have hsome : (some text).isSome = true := rfl
      rw [forall_prop_of_true hvalid, forall_prop_of_true hsome, ← poolSpec_error_iff hvalid]
      cases poolSpec words <;> simp [Except.map]

/-- Where the file is read as it should be: the limit does not fall into a character, and if there is
no directive within the limit then the line that the limit cuts does not look like one; or the
directive is not valid anyway. Then a directive that is not valid is an error, but for depths that
are negative as an `i64`. -/
theorem parseRedoPoolDirective_iff (file : Text) :
    (AsClaimed file (parseRedoPoolDirective (encode file)) ↔ ReadsWell file) ∧
      (Strict file (parseRedoPoolDirective (encode file)) ↔
        ∀ words, topWords file = some words → Whole file → ¬Oversized words) :=
  ⟨asClaimed_iff file, strict_iff file⟩

/-! ## A limit inside a character -/

/-- A long line without a directive, with a character on the limit. -/
def longLine : Text := List.replicate 16383 'a' ++ ['é']

theorem encode_longLine : encode longLine = List.replicate 16383 97 ++ [0xC3] ++ [0xA9] := by
  have hones : ∀ n, encode (List.replicate n 'a') = List.replicate n 97 := by
    intro n
    induction n with
    | zero => rfl
    | succ n ih =>
      rw [List.replicate_succ, encode_cons, ih]
      rfl
  have hlast : encode ['é'] = [0xC3] ++ [0xA9] := by decide
  rw [longLine, encode_append, hones, hlast, List.append_assoc]

theorem topWords_longLine : topWords longLine = none := by
  have hplain : '\n' ∉ longLine := by
    unfold longLine
    rw [List.mem_append, List.mem_replicate]
    simp
  have hstrip : stripCr longLine = longLine := by
    unfold stripCr longLine
    rw [List.getLast?_concat, if_neg (by decide)]
  have hlong : LIMIT < (encode longLine).length := by
    rw [encode_longLine, List.length_append, List.length_append, List.length_replicate, LIMIT]
    decide
  unfold topWords
  rw [List.splitOn_eq_singleton hplain, within, hstrip, if_pos hlong]
  rfl

/-- The script has no directive, and no target can be built with it. -/
theorem not_asClaimed : ¬ ∀ file : Text, AsClaimed file (parseRedoPoolDirective (encode file)) := by
  intro h
  have habsent := (h longLine).absent topWords_longLine
  have hlength : (List.replicate 16383 (97 : UInt8) ++ [0xC3]).length = LIMIT := by
    rw [List.length_append, List.length_replicate, List.length_singleton, LIMIT]
  have hnone : decode ((encode longLine).take LIMIT) = none := by
    rw [encode_longLine, ← hlength, List.take_left]
    exact decode_concat _ (by decide)
  rw [parse_of_none hnone] at habsent
  cases habsent

end Redo.Processes.Directives
