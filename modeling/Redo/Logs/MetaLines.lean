import Redo.Logs.Follow

/-! # Meta-lines and back

A meta-line is a header between two marks and a message that is not escaped. The header has neither
mark, so the first `@@ ` of the line ends it whatever the message is.
-/
namespace Redo.Logs
open Library Remote Cache Paths

/-- `{:.4}` of a time in ten-thousandths of a second. -/
def printTime (time : ℕ) : Text :=
  let fraction := Nat.toDigits 10 (time % 10000)
  Nat.toDigits 10 (time / 10000) ++ '.' :: (List.replicate (4 - fraction.length) '0' ++ fraction)

/-- The line of `Log::meta` in raw mode. -/
def metaRaw (kind : Text) (pid time : ℕ) (msg : Text) : Text :=
  "@@REDO:".toList ++ (kind ++ ':' :: (Nat.toDigits 10 pid ++ ':' :: printTime time) ++
    "@@ ".toList ++ trimEnd msg)

/-- The message of a target that is done. -/
def doneMsg (rv : ℤ) (name : Text) : Text := printInt rv ++ ' ' :: name

/-- The loop of `catlog` for what one `read_line` gives: a line, or what there is of it so far. -/
def Follower.readLine (c : Call) (f : Follower) (piece : List UInt8) : Follower :=
  if piece.getLast? = some NEWLINE then Follower.wholeLine { f with buf := piece } c
  else Follower.endOfFile { f with buf := piece }

/-- What `read_line` gives. -/
def IsPiece (piece : Text) : Prop := '\n' ∉ piece.dropLast

/-- What `Log::meta` is called with. -/
structure Report where
  kind : Text
  pid : ℕ
  time : ℕ
  msg : Text
  kind_plain : ∀ c ∈ kind, c ≠ ':' ∧ c ≠ '@' ∧ c ≠ '\n'
  pid_lt : pid < 4294967296
  msg_line : '\n' ∉ msg

namespace Report

def line (r : Report) : Text := metaRaw r.kind r.pid r.time r.msg

/-- What is to come out of the log for it. -/
def read (r : Report) : MetaLine := ⟨r.kind, r.pid, trimEnd r.msg⟩

end Report

/-- A line of a log. -/
inductive Entry where
  | output (line : Text) (h : '\n' ∉ line)
  | report (r : Report)

def Entry.line : Entry → Text
  | .output line _ => line
  | .report r => r.line

def logText (lines : List Text) : Text := lines.flatMap (· ++ ['\n'])

/-! ## The first separator -/

theorem splitOnce_nil (a : Char) (sep rest : Text) :
    splitOnce (a :: sep) (a :: sep ++ rest) = some ([], rest) := by
  have hfront : (a :: sep).isPrefixOf (a :: sep ++ rest) = true :=
    List.isPrefixOf_iff_prefix.mpr (List.prefix_append _ _)
  rw [List.cons_append, splitOnce, ← List.cons_append, if_pos hfront, List.drop_left]

theorem splitOnce_append {a : Char} {front : Text} (h : a ∉ front) (sep rest : Text) :
    splitOnce (a :: sep) (front ++ (a :: sep ++ rest)) = some (front, rest) := by
  induction front with
  | nil => exact splitOnce_nil a sep rest
  | cons c front ih =>
    have hne : (a == c) = false := by
      rw [beq_eq_false_iff_ne]
      rintro rfl
      exact h List.mem_cons_self
    rw [List.cons_append, splitOnce, if_neg (by simp [List.isPrefixOf, hne])]
    rw [ih fun hmem => h (List.mem_cons_of_mem c hmem)]
    rfl

/-! ## The header -/

/-- A mark is not in a number. -/
theorem not_mem_toDigits {c : Char} (hc : c.isDigit = false) (n : ℕ) : c ∉ Nat.toDigits 10 n := by
  intro hmem
  rw [isDigit_toDigits hmem] at hc
  cases hc

theorem not_mem_printTime {c : Char} (hc : c.isDigit = false) (hdot : c ≠ '.') (time : ℕ) :
    c ∉ printTime time := by
  intro hmem
  simp only [printTime, List.mem_append, List.mem_cons, List.mem_replicate] at hmem
  rcases hmem with hmem | rfl | ⟨_, rfl⟩ | hmem
  · exact not_mem_toDigits hc _ hmem
  · exact hdot rfl
  · cases hc
  · exact not_mem_toDigits hc _ hmem

variable {kind msg name : Text} {pid time : ℕ}

/-- The parts of the header are those that were put into it. -/
theorem splitOn_header (h : ':' ∉ kind) :
    (kind ++ ':' :: (Nat.toDigits 10 pid ++ ':' :: printTime time)).splitOn ':' =
      [kind, Nat.toDigits 10 pid, printTime time] := by
  have hpid : ':' ∉ Nat.toDigits 10 pid := not_mem_toDigits (by decide) pid
  have htime : ':' ∉ printTime time := not_mem_printTime (by decide) (by decide) time
  rw [List.splitOn_append_cons_self, List.splitOn_append_cons_self, List.splitOn_eq_singleton h,
    List.splitOn_eq_singleton hpid, List.splitOn_eq_singleton htime]
  rfl

theorem at_notMem_header (h : '@' ∉ kind) :
    '@' ∉ kind ++ ':' :: (Nat.toDigits 10 pid ++ ':' :: printTime time) := by
  have hpid : '@' ∉ Nat.toDigits 10 pid := not_mem_toDigits (by decide) pid
  have htime : '@' ∉ printTime time := not_mem_printTime (by decide) (by decide) time
  simp [h, hpid, htime]

/-- A line whose header ends at the first mark behind `@@REDO:`. -/
theorem parse_of_splitOnce {rest header msg : Text} (h : splitOnce "@@ ".toList rest = some (header, msg)) :
    parseRedoMetaLine ("@@REDO:".toList ++ rest) =
      some ⟨(header.splitOn ':').headD [],
        ((header.splitOn ':')[1]?.bind (parseUnsigned 4294967296)).getD 0, msg⟩ := by
  have hfront : "@@REDO:".toList.isPrefixOf ("@@REDO:".toList ++ rest) = true :=
    List.isPrefixOf_iff_prefix.mpr (List.prefix_append _ _)
  unfold parseRedoMetaLine
  rw [if_pos hfront, List.drop_left, h]
  rfl

/-- The header ends where `Log::meta` ended it, whatever the message is. -/
theorem parse_metaRaw (hcolon : ':' ∉ kind) (hat : '@' ∉ kind) (hpid : pid < 4294967296) :
    parseRedoMetaLine (metaRaw kind pid time msg) = some ⟨kind, pid, trimEnd msg⟩ := by
  have hheader : '@' ∉ kind ++ ':' :: (Nat.toDigits 10 pid ++ ':' :: printTime time) :=
    at_notMem_header hat
  have hsplit := splitOnce_append hheader ['@', ' '] (trimEnd msg)
  have hmark : "@@ ".toList = ['@', '@', ' '] := rfl
  unfold metaRaw
  rw [List.append_assoc, hmark, parse_of_splitOnce hsplit, splitOn_header hcolon]
  simp only [List.headD_cons, List.getElem?_cons_succ, List.getElem?_cons_zero,
    Option.bind_some, parseUnsigned_toDigits hpid, Option.getD_some]

/-! ## The line -/

theorem newline_notMem_trimEnd (h : '\n' ∉ msg) : '\n' ∉ trimEnd msg := by
  intro hmem
  exact h ((List.rdropWhile_prefix isSpace msg).subset hmem)

theorem newline_notMem_metaRaw (hkind : '\n' ∉ kind) (hmsg : '\n' ∉ msg) :
    '\n' ∉ metaRaw kind pid time msg := by
  have hpid : '\n' ∉ Nat.toDigits 10 pid := not_mem_toDigits (by decide) pid
  have htime : '\n' ∉ printTime time := not_mem_printTime (by decide) (by decide) time
  unfold metaRaw
  simp [hkind, hpid, htime, newline_notMem_trimEnd hmsg]

theorem Entry.line_plain (e : Entry) : '\n' ∉ e.line := by
  cases e with
  | output line h => exact h
  | report r => exact newline_notMem_metaRaw (fun h => (r.kind_plain _ h).2.2 rfl) r.msg_line

theorem Report.parse_line (r : Report) : parseRedoMetaLine r.line = some r.read :=
  parse_metaRaw (fun h => (r.kind_plain _ h).1 rfl) (fun h => (r.kind_plain _ h).2.1 rfl) r.pid_lt

/-! ## The message of a target that is done -/

theorem space_notMem_printInt (rv : ℤ) : ' ' ∉ printInt rv := by
  have hdigits : ' ' ∉ Nat.toDigits 10 rv.natAbs := not_mem_toDigits (by decide) _
  unfold printInt
  split_ifs <;> simp [hdigits]

theorem parseI32_printInt {rv : ℤ} (h : -2147483648 ≤ rv) (h' : rv < 2147483648) :
    parseI32 (printInt rv) = some rv := by
  by_cases hneg : rv < 0
  · have hhead : (Nat.toDigits 10 rv.natAbs).head? ≠ some '+' := by
      intro hplus
      exact not_mem_toDigits (by decide) _ (List.mem_of_head? hplus)
    have hparse : parseUnsigned 2147483649 (Nat.toDigits 10 rv.natAbs) = some rv.natAbs :=
      parseUnsigned_toDigits (by omega)
    have habs : -((rv.natAbs : ℕ) : ℤ) = rv := by omega
    unfold parseI32 printInt
    rw [if_pos hneg, List.singleton_append, List.head?_cons, if_pos rfl, List.tail_cons, if_neg hhead, hparse]
    exact congrArg some habs
  · have hhead : (Nat.toDigits 10 rv.natAbs).head? ≠ some '-' := by
      intro hminus
      exact not_mem_toDigits (by decide) _ (List.mem_of_head? hminus)
    have hparse : parseUnsigned 2147483648 (Nat.toDigits 10 rv.natAbs) = some rv.natAbs :=
      parseUnsigned_toDigits (by omega)
    have habs : ((rv.natAbs : ℕ) : ℤ) = rv := by omega
    unfold parseI32 printInt
    rw [if_neg hneg, List.nil_append, if_neg hhead, hparse]
    exact congrArg some habs

theorem splitOnce_doneMsg (rv : ℤ) (name : Text) :
    splitOnce [' '] (doneMsg rv name) = some (printInt rv, name) :=
  splitOnce_append (space_notMem_printInt rv) [] name

theorem trimEnd_of_last {t : Text} {c : Char} (h : isSpace c = false) : trimEnd (t ++ [c]) = t ++ [c] := by
  simp [trimEnd, h]

/-- The name is all of the message behind the code. -/
theorem trimEnd_doneMsg (rv : ℤ) {name : Text} (hne : name ≠ []) (hend : trimEnd name = name) :
    trimEnd (doneMsg rv name) = doneMsg rv name := by
  induction name using List.reverseRecOn with
  | nil => exact absurd rfl hne
  | append_singleton name c =>
    have hlast := List.rdropWhile_eq_self_iff.mp hend (by simp)
    have hspace : isSpace c = false := by simpa using hlast
    have happend : doneMsg rv (name ++ [c]) = doneMsg rv name ++ [c] := by simp [doneMsg]
    rw [happend, trimEnd_of_last hspace]

/-! ## The loop over the lines -/

theorem rdropWhile_newline {line : Text} (h : '\n' ∉ line) :
    (line ++ ['\n']).rdropWhile (· = '\n') = line := by
  rw [List.rdropWhile_concat_pos _ _ _ (by decide), List.rdropWhile_eq_self_iff]
  intro hne hlast
  exact h (by simpa using (of_decide_eq_true hlast) ▸ List.getLast_mem hne)

variable {c : Call} {f : Follower}

theorem readLine_whole {text : Text} (h : '\n' ∉ f.lineHead ++ text) :
    (f.readLine c (encode (text ++ ['\n']))).lines = f.lines ++ [f.lineHead ++ text] ∧
      (f.readLine c (encode (text ++ ['\n']))).lineHead = [] := by
  have hlast : (encode (text ++ ['\n'])).getLast? = some NEWLINE := by
    rw [encode_append, encode_newline, List.getLast?_concat]
  rw [Follower.readLine, if_pos hlast, Follower.wholeLine, decode_encode]
  simp only [← List.append_assoc, rdropWhile_newline h, and_self]

theorem readLine_part {text : Text} (h : '\n' ∉ text) :
    (f.readLine c (encode text)).lines = f.lines ∧
      (f.readLine c (encode text)).lineHead = f.lineHead ++ text := by
  have hlast : (encode text).getLast? ≠ some NEWLINE := by
    intro hlast
    exact h (newline_mem_encode (List.mem_of_getLast? hlast))
  rw [Follower.readLine, if_neg hlast, Follower.endOfFile]
  dsimp only
  split_ifs with hnil
  · have htext : text = [] := by
      have hdecode := decode_encode text
      rw [hnil] at hdecode
      exact (Option.some.inj hdecode).symm
    simp [htext]
  · rw [decode_encode]
    exact ⟨rfl, rfl⟩

theorem piece_cases {piece : Text} (h : IsPiece piece) :
    '\n' ∉ piece ∨ ∃ text, piece = text ++ ['\n'] ∧ '\n' ∉ text := by
  induction piece using List.reverseRecOn with
  | nil => exact .inl List.not_mem_nil
  | append_singleton text c =>
    rw [IsPiece, List.dropLast_concat] at h
    by_cases hc : c = '\n'
    · exact .inr ⟨text, by rw [hc], h⟩
    · left
      simp [h, Ne.symm hc]

/-- However the log is cut into pieces, its lines come out whole. -/
theorem lines_pieces (pieces lines : List Text) (rest : Text) (hpieces : ∀ p ∈ pieces, IsPiece p)
    (hlines : ∀ line ∈ lines, '\n' ∉ line) (hrest : '\n' ∉ rest) (hhead : '\n' ∉ f.lineHead)
    (hall : f.lineHead ++ pieces.flatten = logText lines ++ rest) :
    ((pieces.map encode).foldl (Follower.readLine c) f).lines = f.lines ++ lines ∧
      ((pieces.map encode).foldl (Follower.readLine c) f).lineHead = rest := by
  induction pieces generalizing f lines with
  | nil =>
    cases lines with
    | nil =>
      refine ⟨by simp, ?_⟩
      simpa [logText] using hall
    | cons line lines =>
      have hmem : '\n' ∈ f.lineHead ++ [].flatten := by
        rw [hall]
        simp [logText]
      exact absurd (by simpa using hmem) hhead
  | cons piece pieces ih =>
    rcases piece_cases (hpieces piece List.mem_cons_self) with hpart | ⟨text, rfl, htext⟩
    · obtain ⟨hkept, hlonger⟩ := readLine_part (c := c) (f := f) hpart
      have hnext := ih (f := f.readLine c (encode piece)) lines
        (fun p hp => hpieces p (List.mem_cons_of_mem _ hp)) hlines
        (by rw [hlonger]; simp [hhead, hpart])
        (by rw [hlonger, List.append_assoc]; exact hall)
      rw [hkept] at hnext
      exact hnext
    · have hwhole : '\n' ∉ f.lineHead ++ text := by simp [hhead, htext]
      obtain ⟨hadded, hempty⟩ := readLine_whole (c := c) hwhole
      have hcut : f.lineHead ++ text ++ '\n' :: pieces.flatten = logText lines ++ rest := by
        rw [← hall]
        simp
      cases lines with
      | nil =>
        have hmem : '\n' ∈ rest := by
          have hrest' : rest = f.lineHead ++ text ++ '\n' :: pieces.flatten := by
            simpa [logText] using hcut.symm
          rw [hrest']
          simp
        exact absurd hmem hrest
      | cons line lines =>
        have hfirst : f.lineHead ++ text ++ '\n' :: pieces.flatten =
            line ++ '\n' :: (logText lines ++ rest) := by
          rw [hcut]
          simp [logText]
        obtain ⟨hline, hflatten⟩ := append_cons_inj_of_not_mem hwhole (hlines line List.mem_cons_self) hfirst
        have hnext := ih (f := f.readLine c (encode (text ++ ['\n']))) lines
          (fun p hp => hpieces p (List.mem_cons_of_mem _ hp))
          (fun l hl => hlines l (List.mem_cons_of_mem _ hl))
          (by rw [hempty]; exact List.not_mem_nil)
          (by rw [hempty, List.nil_append, hflatten])
        rw [hadded, hline, List.append_assoc] at hnext
        exact hnext

/-- A log that is read in pieces as it grows, each piece cut between two characters. -/
structure ReadInPieces (entries : List Entry) (rest : Text) (pieces : List Text) : Prop where
  each : ∀ p ∈ pieces, IsPiece p
  unended : '\n' ∉ rest
  whole : pieces.flatten = logText (entries.map Entry.line) ++ rest

/-- The lines come out as they were written, what follows the last one is kept for later, and each
meta-line is parsed into what it was made of. A `done` message gives its code and its name. -/
theorem metaLines_read_back {entries : List Entry} {rest : Text} {pieces : List Text}
    (h : ReadInPieces entries rest pieces) (c : Call) :
    let f := (pieces.map encode).foldl (Follower.readLine c) { phase := .reading }
    f.lines = entries.map Entry.line ∧ f.lineHead = rest ∧
      (∀ r, .report r ∈ entries → r.line ∈ f.lines ∧ parseRedoMetaLine r.line = some r.read) ∧
      ∀ r rv name, .report r ∈ entries → r.msg = doneMsg rv name → name ≠ [] → trimEnd name = name →
        splitOnce [' '] r.read.msg = some (printInt rv, name) ∧
          (-2147483648 ≤ rv → rv < 2147483648 → parseI32 (printInt rv) = some rv) := by
  intro f
  have hplain : ∀ line ∈ entries.map Entry.line, '\n' ∉ line := by
    intro line hline
    obtain ⟨e, _, rfl⟩ := List.mem_map.mp hline
    exact e.line_plain
  obtain ⟨hlines, hhead⟩ := lines_pieces (c := c) (f := { phase := .reading }) pieces _ rest h.each
    hplain h.unended List.not_mem_nil h.whole
  have hlines : f.lines = entries.map Entry.line := hlines
  refine ⟨hlines, hhead, ?_, ?_⟩
  · intro r hr
    rw [hlines]
    exact ⟨List.mem_map_of_mem hr, r.parse_line⟩
  · intro r rv name _ hmsg hne hend
    have hread : r.read.msg = doneMsg rv name := by
      rw [Report.read, hmsg]
      exact trimEnd_doneMsg rv hne hend
    rw [hread]
    exact ⟨splitOnce_doneMsg rv name, parseI32_printInt⟩

/-- A target whose name has the marks in it. -/
def marked : Report where
  kind := "done".toList
  pid := 4294967295
  time := 17000000000005
  msg := doneMsg (-7) "a @@ b@@REDO:c".toList
  kind_plain := forall_of_all (by decide)
  pid_lt := by decide
  msg_line := by decide

/-- The reader sees the line twice before it is whole. -/
theorem metaLines_read_back_marked :
    ([marked.line.take 9, marked.line.drop 9 ++ "\n".toList, "x".toList].map encode |>.foldl
      (Follower.readLine ⟨noOptions false 0, [], false⟩) { phase := .reading }).lines = [marked.line] ∧
    parseRedoMetaLine marked.line = some ⟨"done".toList, 4294967295, "-7 a @@ b@@REDO:c".toList⟩ ∧
    splitOnce [' '] marked.read.msg = some ("-7".toList, "a @@ b@@REDO:c".toList) := by
  have hread : ReadInPieces [.report marked] "x".toList
      [marked.line.take 9, marked.line.drop 9 ++ "\n".toList, "x".toList] := by
    refine ⟨?_, by decide, by decide +kernel⟩
    unfold IsPiece
    decide +kernel
  obtain ⟨hlines, _, hparse, hdone⟩ := metaLines_read_back hread ⟨noOptions false 0, [], false⟩
  have hmem : Entry.report marked ∈ [Entry.report marked] := List.mem_cons_self
  exact ⟨hlines, (hparse marked hmem).2, (hdone marked (-7) _ hmem rfl (by decide) (by decide)).1⟩

/-- A kind with a newline in it makes two lines. -/
theorem not_metaLines_read_back : ¬ ∀ (kind : Text) (pid time : ℕ) (msg : Text) (pieces : List Text),
    ':' ∉ kind → '@' ∉ kind → pid < 4294967296 → '\n' ∉ msg → (∀ p ∈ pieces, IsPiece p) →
    pieces.flatten = metaRaw kind pid time msg ++ ['\n'] → ∀ c : Call,
    ((pieces.map encode).foldl (Follower.readLine c) { phase := .reading }).lines.map parseRedoMetaLine =
      [some ⟨kind, pid, trimEnd msg⟩] := by
  intro h
  have hlines := h "a\nb".toList 1 0 "m".toList
    ["@@REDO:a\n".toList, "b:1:0.0000@@ m\n".toList] (by decide) (by decide) (by decide) (by decide)
    (by unfold IsPiece; decide) (by decide +kernel) ⟨noOptions false 0, [], false⟩
  exact absurd hlines (by decide +kernel)

end Redo.Logs
