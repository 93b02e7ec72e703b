import Mathlib.Data.List.Infix
import Redo.Library.Utf8
import Redo.Remote.Storage

/-! # Blobs from the cache server

A response is read from a connection by two readers. One has the whole body in memory, the other
writes the body to a file piece by piece. Both compare the digest with the one asked for.
-/
namespace Redo.Remote.Downloads
open Library

/-- What a connection will deliver, whether a read error or the end comes behind it, and how many
bytes beside the first each read gets at most. -/
structure Stream where
  content : Bytes
  failing : Bool
  cuts : List ℕ
deriving DecidableEq, Repr

inductive Failure where
  | io
  | capacity
  | http (status : ℕ)
  | chunked
  | mismatch (got : Text)
deriving DecidableEq, Repr

def U64_MAX : ℕ := 18446744073709551615

/-- No `Vec` and no file is longer. -/
def ISIZE_MAX : ℕ := 9223372036854775807

namespace Stream

/-- `read_line`: also bytes that are no text are an error. -/
def readLine (s : Stream) : Except Failure (Text × Stream) :=
  let cut := cutLine s.content
  if s.failing ∧ cut.1.getLast? ≠ some NEWLINE then .error .io
  else
    match decode cut.1 with
    | none => .error .io
    | some line => .ok (line, { s with content := cut.2 })

def read (s : Stream) (want : ℕ) : Except Failure (Bytes × Stream) :=
  if s.content = [] then if s.failing then .error .io else .ok ([], s)
  else
    let n := match s.cuts with
      | [] => want
      | c :: _ => min want (c + 1)
    .ok (s.content.take n, { s with content := s.content.drop n, cuts := s.cuts.tail })

def readExact (s : Stream) (n : ℕ) : Except Failure Bytes :=
  if s.content.length < n then .error .io else .ok (s.content.take n)

end Stream

def splitWhitespace (t : Text) : List Text := (t.splitOnP isSpace).filter (· ≠ [])

def splitOnce (c : Char) (t : Text) : Option (Text × Text) :=
  if c ∈ t then some (t.takeWhile (· ≠ c), (t.dropWhile (· ≠ c)).tail) else none

def toAsciiLowercase (t : Text) : Text := t.map Char.toLower

def statusOf (statusLine : Text) : ℕ :=
  (parseUnsigned 65536 ((splitWhitespace statusLine)[1]?.getD ['0'])).getD 0

theorem Stream.readLine_length {s s' : Stream} {line : Text} (h : s.readLine = .ok (line, s'))
    (hline : line ≠ []) : s'.content.length < s.content.length := by
  unfold readLine at h
  dsimp only at h
  split_ifs at h with hfail
  split at h
  · cases h
  · next text hdecode =>
    cases h
    refine length_cutLine fun hnil => hline ?_
    rw [hnil] at hdecode
    exact (Option.some.inj hdecode).symm

/-- The header lines, each as a name and a value. -/
def eachHeader {α : Type} (header : α → Text → Text → Except Failure α) (a : α) (s : Stream) :
    Except Failure (α × Stream) :=
  match _h : s.readLine with
  | .error e => .error e
  | .ok (line, s') =>
    if _hnil : line = [] then .ok (a, s')
    else if line = ['\r', '\n'] then .ok (a, s')
    else
      match splitOnce ':' line with
      | none => eachHeader header a s'
      | some (k, v) =>
        match header a k v with
        | .error e => .error e
        | .ok a => eachHeader header a s'
termination_by s.content.length
decreasing_by
  · exact Stream.readLine_length _h _hnil
  · exact Stream.readLine_length _h _hnil

/-- The map of the headers: a later one hides an earlier one of its name. -/
def putHeader (headers : List (Text × Text)) (k v : Text) : Except Failure (List (Text × Text)) :=
  .ok ((toAsciiLowercase (trim k), trim v) :: headers)

def readHttpResponse (s : Stream) : Except Failure (ℕ × Bytes) := do
  let (statusLine, s) ← s.readLine
  let status := statusOf statusLine
  let (headers, s) ← eachHeader putHeader [] s
  match (headers.lookup "content-length".toList).bind (parseUnsigned (U64_MAX + 1)) with
  | some n =>
    if ISIZE_MAX < n then throw .capacity
    let body ← s.readExact n
    return (status, body)
  | none => return (status, s.content)

def getBlobBytesVerified (sha : Bytes → Text) (sha256Hex : Text) (s : Stream) : Except Failure Bytes := do
  let (status, body) ← readHttpResponse s
  if status ≠ 200 then throw (.http status)
  let got := sha body
  if got ≠ sha256Hex then throw (.mismatch got)
  return body

def isChunked (v : Text) : Prop := "chunked".toList <:+: toAsciiLowercase v

instance (v : Text) : Decidable (isChunked v) := inferInstanceAs (Decidable (_ <:+: _))

def contentLength (clen : Option ℕ) (k v : Text) : Except Failure (Option ℕ) :=
  let clen := if toAsciiLowercase (trim k) = "content-length".toList
    then parseUnsigned (U64_MAX + 1) (trim v) else clen
  if toAsciiLowercase (trim k) = "transfer-encoding".toList ∧ isChunked v then .error .chunked
  else .ok clen

def BUF_LEN : ℕ := 1048576

/-- The loop over the body: the file, what is hashed, the bytes counted, and the bytes to come. -/
structure Progress where
  file : Bytes := []
  hashed : Bytes := []
  total : ℕ := 0
  remaining : ℕ
deriving DecidableEq, Repr

def Progress.want (p : Progress) : ℕ := if p.remaining = U64_MAX then BUF_LEN else min BUF_LEN p.remaining

def Progress.add (p : Progress) (piece : Bytes) : Progress where
  file := p.file ++ piece
  hashed := p.hashed ++ piece
  total := min (p.total + piece.length) U64_MAX
  remaining := if p.remaining ≠ U64_MAX then p.remaining - piece.length else p.remaining

theorem Stream.read_length {s s' : Stream} {want : ℕ} {piece : Bytes}
    (h : s.read want = .ok (piece, s')) (hpiece : piece ≠ []) :
    s'.content.length < s.content.length := by
  unfold read at h
  split_ifs at h with hnil hfail
  · cases h
    exact absurd rfl hpiece
  · cases h
    have hpos := List.length_pos_iff.mpr hpiece
    rw [List.length_take] at hpos
    rw [List.length_drop]
    omega

/-- A write fails where the file would be too long. -/
def copyBody (s : Stream) (p : Progress) : Option Failure × Progress :=
  if p.remaining = 0 then (none, p)
  else
    match _h : s.read p.want with
    | .error e => (some e, p)
    | .ok (piece, s') =>
      if _hpiece : piece = [] then (none, p)
      else if ISIZE_MAX < p.file.length + piece.length then
        (some .io, { p with file := (p.file ++ piece).take ISIZE_MAX })
      else copyBody s' (p.add piece)
termination_by s.content.length
decreasing_by exact Stream.read_length _h _hpiece

def responseHead (s : Stream) : Except Failure (Option ℕ × Stream) := do
  let (statusLine, s) ← s.readLine
  if statusOf statusLine ≠ 200 then throw (.http (statusOf statusLine))
  eachHeader contentLength none s

/-- The length of the body, and the destination afterwards. -/
def downloadBlobToFileVerified (sha : Bytes → Text) (sha256Hex : Text) (s : Stream)
    (dest : Option Bytes) : Except Failure ℕ × Option Bytes :=
  match responseHead s with
  | .error e => (.error e, dest)
  | .ok (clen, s) =>
    match copyBody s { remaining := clen.getD U64_MAX } with
    | (some e, p) => (.error e, some p.file)
    | (none, p) =>
      let got := sha p.hashed
      if got ≠ sha256Hex then (.error (.mismatch got), none) else (.ok p.total, some p.file)

variable {sha : Bytes → Text} {sha256Hex : Text} {s : Stream} {p : Progress} {dest : Option Bytes}

theorem getBlobBytesVerified_ok {body : Bytes} (h : getBlobBytesVerified sha sha256Hex s = .ok body) :
    sha body = sha256Hex := by
  unfold getBlobBytesVerified at h
  cases hresponse : readHttpResponse s with
  | error e =>
    rw [hresponse] at h
    cases h
  | ok r =>
    obtain ⟨status, b⟩ := r
    rw [hresponse] at h
    simp only [bind, Except.bind, pure, Except.pure, throw, throwThe, MonadExceptOf.throw] at h
    split_ifs at h with hstatus hgot
    cases h
    exact not_not.mp hgot

/-- The file, the digest and the count are of the same bytes. -/
structure Progress.Agrees (p : Progress) : Prop where
  hashed : p.hashed = p.file
  total : p.total = p.file.length
  fits : p.file.length ≤ ISIZE_MAX

theorem Progress.Agrees.add (h : p.Agrees) {piece : Bytes}
    (hfits : p.file.length + piece.length ≤ ISIZE_MAX) : (p.add piece).Agrees where
  hashed := by rw [Progress.add, h.hashed]
  total := by
    have hmax : ISIZE_MAX ≤ U64_MAX := by decide
    simp only [Progress.add, h.total, List.length_append]
    omega
  fits := by rwa [Progress.add, List.length_append]

/-- The loop keeps them the same. -/
theorem copyBody_agrees (h : p.Agrees) (hdone : (copyBody s p).1 = none) : (copyBody s p).2.Agrees := by
  fun_induction copyBody s p with
  | case1 s p hzero => exact h
  | case2 s p hzero e hread => cases hdone
  | case3 s p hzero s' hread => exact h
  | case4 s p hzero piece s' hread hpiece hlong => cases hdone
  | case5 s p hzero piece s' hread hpiece hlong ih => exact ih (h.add (Nat.not_lt.mp hlong)) hdone

theorem downloadBlobToFileVerified_ok {n : ℕ} {dest' : Option Bytes}
    (h : downloadBlobToFileVerified sha sha256Hex s dest = (.ok n, dest')) :
    ∃ body, dest' = some body ∧ n = body.length ∧ sha body = sha256Hex := by
  unfold downloadBlobToFileVerified at h
  cases hhead : responseHead s with
  | error e =>
    rw [hhead] at h
    cases h
  | ok r =>
    obtain ⟨clen, s'⟩ := r
    rw [hhead] at h
    dsimp only at h
    have hagrees : (copyBody s' { remaining := clen.getD U64_MAX }).1 = none →
        (copyBody s' { remaining := clen.getD U64_MAX }).2.Agrees :=
      copyBody_agrees ⟨rfl, rfl, Nat.zero_le _⟩
    cases hcopy : copyBody s' { remaining := clen.getD U64_MAX } with
    | mk failure p =>
      rw [hcopy] at h hagrees
      cases failure with
      | some e => cases h
      | none =>
        have hsame := hagrees rfl
        dsimp only at h
        split_ifs at h with hgot
        · cases h
        · obtain ⟨hn, hdest⟩ := Prod.mk.inj h
          exact ⟨p.file, hdest.symm, (Except.ok.inj hn).symm.trans hsame.total,
            hsame.hashed ▸ not_not.mp hgot⟩

theorem Stream.readLine_error {e : Failure} (h : s.readLine = .error e) : e = .io := by
  unfold readLine at h
  dsimp only at h
  split_ifs at h with hfail
  · cases h
    rfl
  · split at h
    · cases h
      rfl
    · cases h

theorem Stream.read_error {e : Failure} {want : ℕ} (h : s.read want = .error e) : e = .io := by
  unfold read at h
  split_ifs at h
  cases h
  rfl

theorem eachHeader_error {α : Type} {header : α → Text → Text → Except Failure α} {a : α} {e : Failure}
    (hheader : ∀ a k v e', header a k v = .error e' → ∀ got, e' ≠ .mismatch got)
    (h : eachHeader header a s = .error e) : ∀ got, e ≠ .mismatch got := by
  fun_induction eachHeader header a s with
  | case1 a s e' hline =>
    cases h
    rw [Stream.readLine_error hline]
    exact fun got => Failure.noConfusion
  | case2 | case3 => cases h
  | case4 a s line s' hline hnil hend hsplit ih => exact ih h
  | case5 a s line s' hline hnil hend k v hsplit e' hfailed =>
    cases h
    exact hheader _ _ _ _ hfailed
  | case6 a s line s' hline hnil hend k v hsplit a' hnext ih => exact ih h

theorem contentLength_error {clen : Option ℕ} {k v : Text} {e : Failure}
    (h : contentLength clen k v = .error e) : ∀ got, e ≠ .mismatch got := by
  unfold contentLength at h
  split_ifs at h <;> cases h
  all_goals exact fun got => Failure.noConfusion

theorem responseHead_error {e : Failure} (h : responseHead s = .error e) : ∀ got, e ≠ .mismatch got := by
  unfold responseHead at h
  cases hline : s.readLine with
  | error e' =>
    rw [hline] at h
    cases h
    rw [Stream.readLine_error hline]
    exact fun got => Failure.noConfusion
  | ok r =>
    rw [hline] at h
    simp only [bind, Except.bind, throw, throwThe, MonadExceptOf.throw] at h
    split_ifs at h with hstatus
    · cases h
      exact fun got => Failure.noConfusion
    · exact eachHeader_error (fun _ _ _ _ => contentLength_error) h

theorem copyBody_error {e : Failure} (h : (copyBody s p).1 = some e) : e = .io := by
  fun_induction copyBody s p with
  | case1 | case3 => cases h
  | case2 s p hzero e' hread =>
    cases h
    exact Stream.read_error hread
  | case4 => exact (Option.some.inj h).symm
  | case5 s p hzero piece s' hread hpiece hlong ih => exact ih h

/-- A file with other bytes is taken away. -/
theorem downloadBlobToFileVerified_mismatch {got : Text} {dest' : Option Bytes}
    (h : downloadBlobToFileVerified sha sha256Hex s dest = (.error (.mismatch got), dest')) :
    dest' = none := by
  unfold downloadBlobToFileVerified at h
  cases hhead : responseHead s with
  | error e =>
    rw [hhead] at h
    cases h
    exact absurd rfl (responseHead_error hhead got)
  | ok r =>
    obtain ⟨clen, s'⟩ := r
    rw [hhead] at h
    dsimp only at h
    have herror := @copyBody_error s' { remaining := clen.getD U64_MAX }
    cases hcopy : copyBody s' { remaining := clen.getD U64_MAX } with
    | mk failure p =>
      rw [hcopy] at h herror
      cases failure with
      | some e =>
        cases h
        cases herror rfl
      | none =>
        dsimp only at h
        split_ifs at h with hgot
        · exact (Prod.mk.inj h).2.symm
        · cases h

/-- How the end of a body is told: by its length, with anything behind it, by the end of the
connection, or in pieces that have their lengths in front. -/
inductive Framing where
  | length (later : Bytes)
  | close
  | chunked (pieces : List Bytes)
deriving DecidableEq, Repr

/-- A response with the status 200. -/
structure Answer where
  version : Text
  reason : Text
  headers : List (Text × Text)
  framing : Framing
  body : Bytes
deriving DecidableEq, Repr

def crlf (t : Text) : Text := t ++ ['\r', '\n']

namespace Answer

def statusLine (a : Answer) : Text := crlf (a.version ++ ' ' :: "200".toList ++ ' ' :: a.reason)

def headerLine (h : Text × Text) : Text := crlf (h.1 ++ ':' :: h.2)

def sent (a : Answer) : Bytes :=
  match a.framing with
  | .length later => a.body ++ later
  | .close => a.body
  | .chunked pieces =>
    (pieces.flatMap fun piece =>
      encode (crlf (Nat.toDigits 16 piece.length)) ++ piece ++ encode (crlf [])) ++
        encode (crlf ['0'] ++ crlf [])

def bytes (a : Answer) : Bytes :=
  encode a.statusLine ++ encode (a.headers.flatMap headerLine) ++ encode (crlf []) ++ a.sent

end Answer

def Named (name : String) (h : Text × Text) : Prop := toAsciiLowercase h.1 = name.toList

/-- The value of a header is a number in decimal digits. -/
structure Counts (n : ℕ) (v : Text) : Prop where
  ne_nil : trim v ≠ []
  digits : (trim v).all Char.isDigit
  value : Nat.ofDigitChars 10 (trim v) 0 = n

def Framing.Announced (headers : List (Text × Text)) (body : Bytes) : Framing → Prop
  | .length _ => (∃ h ∈ headers, Named "content-length" h) ∧
      ∀ h ∈ headers, Named "content-length" h → Counts body.length h.2
  | .close => ∀ h ∈ headers, ¬ Named "content-length" h
  | .chunked pieces => (∀ h ∈ headers, ¬ Named "content-length" h) ∧ body = pieces.flatten ∧ [] ∉ pieces

namespace Answer

def Chunked (a : Answer) : Prop := ∃ h ∈ a.headers, Named "transfer-encoding" h ∧ isChunked h.2

structure WellFormed (a : Answer) : Prop where
  version : a.version ≠ [] ∧ ∀ c ∈ a.version, isSpace c = false
  reason : '\n' ∉ a.reason
  names : ∀ h ∈ a.headers, ∀ c ∈ h.1, isSpace c = false ∧ c ≠ ':'
  values : ∀ h ∈ a.headers, '\n' ∉ h.2
  announced : a.framing.Announced a.headers a.body
  chunked : a.Chunked ↔ ∃ pieces, a.framing = .chunked pieces

/-- Only behind a body of known length the connection may fail. -/
structure SentAs (a : Answer) (s : Stream) : Prop where
  content : s.content = a.bytes
  ends : s.failing = true → ∃ later, a.framing = .length later

end Answer

theorem trim_crlf (t : Text) : trim (crlf t) = trim t := by
  have hspace : ∀ c ∈ (['\r', '\n'] : Text).reverse, isSpace c = true :=
    List.all_eq_true.mp (by decide)
  have hend : ∀ x : Text, trimEnd (x ++ ['\r', '\n']) = trimEnd x := by
    intro x
    rw [trimEnd, trimEnd, List.reverse_append, List.dropWhile_append_of_pos hspace]
  rw [trim, trim, crlf, trimStart, trimStart, List.dropWhile_append]
  split_ifs with hall
  · rw [List.isEmpty_iff.mp hall]
    decide
  · exact hend _

theorem isChunked_crlf (v : Text) : isChunked (crlf v) ↔ isChunked v := by
  have hcrlf : toAsciiLowercase (crlf v) = toAsciiLowercase v ++ ['\r'] ++ ['\n'] := by
    rw [toAsciiLowercase, crlf, List.map_append, List.append_assoc]
    rfl
  have hlast : ∀ (x : Text) (c : Char), c ≠ 'd' → ¬ "chunked".toList <:+ x ++ [c] := by
    intro x c hc hsuffix
    obtain ⟨front, hfront⟩ := hsuffix
    have hend := congrArg List.getLast? hfront
    rw [List.getLast?_append, List.getLast?_concat] at hend
    exact hc (Option.some.inj hend).symm
  rw [isChunked, isChunked, hcrlf, List.infix_concat_iff, List.infix_concat_iff]
  constructor
  · rintro (hsuffix | hsuffix | hv)
    · exact absurd hsuffix (hlast _ '\n' (by decide))
    · exact absurd hsuffix (hlast _ '\r' (by decide))
    · exact hv
  · exact fun hv => Or.inr (Or.inr hv)

theorem splitOnce_append {k : Text} {c : Char} (h : c ∉ k) (v : Text) :
    splitOnce c (k ++ c :: v) = some (k, v) := by
  have hkeep : ∀ d ∈ k, decide (d ≠ c) = true := fun d hd => decide_eq_true fun he => h (he ▸ hd)
  rw [splitOnce, if_pos (List.mem_append_right k List.mem_cons_self),
    List.takeWhile_append_of_pos hkeep, List.dropWhile_append_of_pos hkeep,
    List.takeWhile_cons_of_neg (by simp), List.dropWhile_cons_of_neg (by simp), List.append_nil]
  rfl

theorem parseUnsigned_of_counts {n bound : ℕ} {v : Text} (h : Counts n v) (hn : n < bound) :
    parseUnsigned bound (trim v) = some n := by
  have hsign : (trim v).head? ≠ some '+' := by
    intro hplus
    have hdigit := List.all_eq_true.mp h.digits '+' (List.mem_of_head? hplus)
    exact absurd hdigit (by decide)
  rw [parseUnsigned, if_neg hsign, h.value]
  exact if_pos ⟨h.ne_nil, h.digits, hn⟩

theorem readLine_of_line {line : Text} {rest : Bytes} (hline : '\n' ∉ line)
    (hcontent : s.content = encode (crlf line) ++ rest) :
    s.readLine = .ok (crlf line, { s with content := rest }) := by
  have hnone : NEWLINE ∉ encode (line ++ ['\r']) := by
    intro hmem
    rcases List.mem_append.mp (newline_mem_encode hmem) with hn | hn
    · exact hline hn
    · exact absurd hn (by decide)
  have hsplit : encode (crlf line) = encode (line ++ ['\r']) ++ [NEWLINE] := by
    rw [← encode_newline, ← encode_append, List.append_assoc]
    rfl
  have hcut : cutLine s.content = (encode (crlf line), rest) := by
    rw [hcontent, hsplit, List.append_assoc]
    exact cutLine_append hnone
  have hlast : (encode (crlf line)).getLast? = some NEWLINE := by
    rw [hsplit, List.getLast?_concat]
  rw [Stream.readLine, hcut]
  dsimp only
  rw [if_neg fun hfail => hfail.2 hlast, decode_encode]

theorem crlf_ne {t : Text} (h : t ≠ []) : crlf t ≠ ['\r', '\n'] := by
  intro he
  exact h (List.append_cancel_right (he.trans (List.nil_append _).symm))

theorem crlf_ne_nil (t : Text) : crlf t ≠ [] := List.append_ne_nil_of_right_ne_nil t (List.cons_ne_nil _ _)

theorem splitOnce_headerLine {h : Text × Text} (hname : ∀ c ∈ h.1, isSpace c = false ∧ c ≠ ':') :
    splitOnce ':' (Answer.headerLine h) = some (h.1, crlf h.2) := by
  have hline : Answer.headerLine h = h.1 ++ ':' :: crlf h.2 := by
    rw [Answer.headerLine, crlf, crlf, List.append_assoc, List.cons_append]
  rw [hline, splitOnce_append fun hmem => (hname ':' hmem).2 rfl]

theorem eachHeader_last {α : Type} (header : α → Text → Text → Except Failure α) (a : α)
    {s s' : Stream} (hline : s.readLine = .ok (crlf [], s')) : eachHeader header a s = .ok (a, s') := by
  unfold eachHeader
  split
  · next e he =>
    rw [hline] at he
    cases he
  · next line s'' he =>
    rw [hline] at he
    cases he
    exact (dif_neg (crlf_ne_nil [])).trans (if_pos (List.nil_append _))

theorem eachHeader_line {α : Type} (header : α → Text → Text → Except Failure α) (a : α)
    {s s' : Stream} {line k v : Text} (hline : s.readLine = .ok (line, s')) (hnil : line ≠ [])
    (hend : line ≠ ['\r', '\n']) (hsplit : splitOnce ':' line = some (k, v)) :
    eachHeader header a s = (header a k v).bind fun a => eachHeader header a s' := by
  rw [eachHeader]
  split
  · next e he =>
    rw [hline] at he
    cases he
  · next line' s'' he =>
    rw [hline] at he
    cases he
    rw [dif_neg hnil, if_neg hend, hsplit]
    dsimp only
    cases header a k v <;> rfl

/-- The loop over the lines of the headers, and the empty line behind them. -/
theorem eachHeader_headers {α : Type} (header : α → Text → Text → Except Failure α)
    {headers : List (Text × Text)} (hnames : ∀ h ∈ headers, ∀ c ∈ h.1, isSpace c = false ∧ c ≠ ':')
    (hvalues : ∀ h ∈ headers, '\n' ∉ h.2) {rest : Bytes} (a : α) {s : Stream}
    (hcontent : s.content = encode (headers.flatMap Answer.headerLine) ++ encode (crlf []) ++ rest) :
    eachHeader header a s =
      (headers.foldlM (fun a h => header a h.1 (crlf h.2)) a).map
        fun a => (a, { s with content := rest }) := by
  induction headers generalizing a s with
  | nil => exact eachHeader_last header a (readLine_of_line List.not_mem_nil hcontent)
  | cons h headers ih =>
    have hname := hnames h List.mem_cons_self
    have hline : '\n' ∉ h.1 ++ ':' :: h.2 := by
      intro hmem
      rcases List.mem_append.mp hmem with hmem | hmem
      · exact absurd (hname _ hmem).1 (by decide)
      · exact hvalues h List.mem_cons_self ((List.mem_cons.mp hmem).resolve_left (by decide))
    have hcontent' : s.content = encode (crlf (h.1 ++ ':' :: h.2)) ++
        (encode (headers.flatMap Answer.headerLine) ++ encode (crlf []) ++ rest) := by
      rw [hcontent, List.flatMap_cons, encode_append]
      simp only [List.append_assoc]
      rfl
    have hread := readLine_of_line hline hcontent'
    have hne : h.1 ++ ':' :: h.2 ≠ [] := List.append_ne_nil_of_right_ne_nil _ (List.cons_ne_nil _ _)
    rw [eachHeader_line header a hread (crlf_ne_nil _) (crlf_ne hne) (splitOnce_headerLine hname),
      List.foldlM_cons]
    cases header a h.1 (crlf h.2) with
    | error e => rfl
    | ok a' =>
      exact ih (fun h' hh => hnames h' (List.mem_cons_of_mem _ hh))
        (fun h' hh => hvalues h' (List.mem_cons_of_mem _ hh)) a' rfl

/-- The first line is read as the status 200. -/
theorem statusOf_statusLine {a : Answer} (h : a.WellFormed) : statusOf a.statusLine = 200 := by
  have hline : a.statusLine = a.version ++ ' ' :: ("200".toList ++ ' ' :: (a.reason ++ ['\r', '\n'])) := by
    rw [Answer.statusLine, crlf]
    simp only [List.append_assoc, List.cons_append]
  have hversion : a.version ≠ [] := h.version.1
  have hsecond : (splitWhitespace a.statusLine)[1]? = some "200".toList := by
    rw [splitWhitespace, hline, List.splitOnP_append_cons_of_forall_mem h.version.2 ' ' (by decide),
      List.splitOnP_append_cons_of_forall_mem (not_space_of_all (by decide)) ' ' (by decide),
      List.filter_cons_of_pos (by simp [hversion]), List.filter_cons_of_pos (by decide)]
    rfl
  rw [statusOf, hsecond]
  decide

theorem readLine_statusLine {a : Answer} (h : a.WellFormed) (hs : a.SentAs s) :
    s.readLine = .ok (a.statusLine,
      { s with content := encode (a.headers.flatMap Answer.headerLine) ++ encode (crlf []) ++ a.sent }) := by
  refine @readLine_of_line s (a.version ++ ' ' :: "200".toList ++ ' ' :: a.reason) _ ?_ ?_
  · intro hmem
    rcases List.mem_append.mp hmem with hmem | hmem
    · rcases List.mem_append.mp hmem with hmem | hmem
      · exact absurd (h.version.2 _ hmem) (by decide)
      · exact absurd hmem (by decide)
    · exact h.reason ((List.mem_cons.mp hmem).resolve_left (by decide))
  · rw [hs.content, Answer.bytes, List.append_assoc (encode a.statusLine),
      List.append_assoc (encode a.statusLine)]
    rfl

section Headers
variable {headers : List (Text × Text)}

theorem foldlM_putHeader (hnames : ∀ h ∈ headers, ∀ c ∈ h.1, isSpace c = false ∧ c ≠ ':')
    (found : List (Text × Text)) :
    headers.foldlM (fun a h => putHeader a h.1 (crlf h.2)) found =
      .ok ((headers.reverse.map fun h : Text × Text => (toAsciiLowercase h.1, trim h.2)) ++ found) := by
  induction headers generalizing found with
  | nil => rfl
  | cons h headers ih =>
    have hput : putHeader found h.1 (crlf h.2) = .ok ((toAsciiLowercase h.1, trim h.2) :: found) := by
      rw [putHeader, trim_crlf, trim_of_not_space fun c hc => (hnames h List.mem_cons_self c hc).1]
    rw [List.foldlM_cons, hput]
    refine (ih (fun h' hh => hnames h' (List.mem_cons_of_mem _ hh)) _).trans ?_
    rw [List.reverse_cons, List.map_append, List.append_assoc]
    rfl

theorem lookup_none (hnone : ∀ h ∈ headers, ¬ Named "content-length" h) :
    ((headers.reverse.map fun h : Text × Text => (toAsciiLowercase h.1, trim h.2)) ++ []).lookup
      "content-length".toList = none := by
  rw [List.append_nil, List.lookup_eq_none_iff]
  intro p hp
  obtain ⟨h, hh, rfl⟩ := List.mem_map.mp hp
  simpa using fun he => hnone h (List.mem_reverse.mp hh) (Eq.symm he)

theorem lookup_length {n bound : ℕ} (hn : n < bound) (hsome : ∃ h ∈ headers, Named "content-length" h)
    (hcounts : ∀ h ∈ headers, Named "content-length" h → Counts n h.2) :
    (((headers.reverse.map fun h : Text × Text => (toAsciiLowercase h.1, trim h.2)) ++ []).lookup
      "content-length".toList).bind (parseUnsigned bound) = some n := by
  rw [List.append_nil]
  cases hfound : (headers.reverse.map fun h : Text × Text => (toAsciiLowercase h.1, trim h.2)).lookup
      "content-length".toList with
  | none =>
    obtain ⟨h, hh, hname⟩ := hsome
    have hmem : (toAsciiLowercase h.1, trim h.2) ∈
        headers.reverse.map fun h : Text × Text => (toAsciiLowercase h.1, trim h.2) :=
      List.mem_map.mpr ⟨h, List.mem_reverse.mpr hh, rfl⟩
    have hother := List.lookup_eq_none_iff.mp hfound _ hmem
    exact absurd hname.symm (by simpa using hother)
  | some v =>
    obtain ⟨l, l', hsplit, -⟩ := List.lookup_eq_some_iff.mp hfound
    have hmem : ("content-length".toList, v) ∈
        headers.reverse.map fun h : Text × Text => (toAsciiLowercase h.1, trim h.2) := by
      rw [hsplit]
      exact List.mem_append_right l List.mem_cons_self
    obtain ⟨h, hh, heq⟩ := List.mem_map.mp hmem
    obtain ⟨hname, rfl⟩ := Prod.mk.inj heq
    exact parseUnsigned_of_counts (hcounts h (List.mem_reverse.mp hh) hname) hn

theorem contentLength_crlf {h : Text × Text} (hname : ∀ c ∈ h.1, isSpace c = false ∧ c ≠ ':')
    (hplain : ¬ (Named "transfer-encoding" h ∧ isChunked h.2)) (clen : Option ℕ) :
    contentLength clen h.1 (crlf h.2) =
      .ok (if toAsciiLowercase h.1 = "content-length".toList then parseUnsigned (U64_MAX + 1) (trim h.2)
        else clen) := by
  have htrim : trim h.1 = h.1 := trim_of_not_space fun c hc => (hname c hc).1
  rw [contentLength, trim_crlf, htrim]
  exact if_neg fun hc => hplain ⟨hc.1, (isChunked_crlf h.2).mp hc.2⟩

variable (hnames : ∀ h ∈ headers, ∀ c ∈ h.1, isSpace c = false ∧ c ≠ ':')
  (hplain : ∀ h ∈ headers, ¬ (Named "transfer-encoding" h ∧ isChunked h.2))
include hnames hplain

theorem foldlM_contentLength_none (hnone : ∀ h ∈ headers, ¬ Named "content-length" h)
    (clen : Option ℕ) :
    headers.foldlM (fun a h => contentLength a h.1 (crlf h.2)) clen = .ok clen := by
  induction headers generalizing clen with
  | nil => rfl
  | cons h headers ih =>
    have hhere : ¬ toAsciiLowercase h.1 = "content-length".toList := hnone h List.mem_cons_self
    rw [List.foldlM_cons, contentLength_crlf (hnames h List.mem_cons_self) (hplain h List.mem_cons_self),
      if_neg hhere]
    exact ih (fun h' hh => hnames h' (List.mem_cons_of_mem _ hh))
      (fun h' hh => hplain h' (List.mem_cons_of_mem _ hh))
      (fun h' hh => hnone h' (List.mem_cons_of_mem _ hh)) clen

theorem foldlM_contentLength_some {n : ℕ} (hn : n < U64_MAX + 1)
    (hcounts : ∀ h ∈ headers, Named "content-length" h → Counts n h.2) {clen : Option ℕ}
    (hsome : clen = some n ∨ ∃ h ∈ headers, Named "content-length" h) :
    headers.foldlM (fun a h => contentLength a h.1 (crlf h.2)) clen = .ok (some n) := by
  induction headers generalizing clen with
  | nil =>
    rcases hsome with rfl | ⟨h, hh, -⟩
    · rfl
    · cases hh
  | cons h headers ih =>
    rw [List.foldlM_cons, contentLength_crlf (hnames h List.mem_cons_self) (hplain h List.mem_cons_self)]
    refine ih (fun h' hh => hnames h' (List.mem_cons_of_mem _ hh))
      (fun h' hh => hplain h' (List.mem_cons_of_mem _ hh))
      (fun h' hh => hcounts h' (List.mem_cons_of_mem _ hh)) ?_
    by_cases hname : toAsciiLowercase h.1 = "content-length".toList
    · rw [if_pos hname]
      exact Or.inl (parseUnsigned_of_counts (hcounts h List.mem_cons_self hname) hn)
    · rw [if_neg hname]
      refine hsome.imp_right fun ⟨h', hh, hname'⟩ => ⟨h', ?_, hname'⟩
      refine (List.mem_cons.mp hh).resolve_left ?_
      rintro rfl
      exact hname hname'

end Headers

theorem Stream.read_some {want : ℕ} (hcontent : s.content ≠ []) (hwant : 0 < want) :
    ∃ n cuts, 0 < n ∧ n ≤ want ∧ n ≤ s.content.length ∧
      s.read want = .ok (s.content.take n, { s with content := s.content.drop n, cuts := cuts }) := by
  have hpos := List.length_pos_iff.mpr hcontent
  have hcapped : ∀ m, s.content.take (min m s.content.length) = s.content.take m ∧
      s.content.drop (min m s.content.length) = s.content.drop m := by
    intro m
    rcases Nat.le_total m s.content.length with hle | hle
    · rw [Nat.min_eq_left hle]
      exact ⟨rfl, rfl⟩
    · rw [Nat.min_eq_right hle, List.take_length, List.drop_length, List.take_of_length_le hle,
        List.drop_of_length_le hle]
      exact ⟨rfl, rfl⟩
  rw [read, if_neg hcontent]
  cases hcuts : s.cuts with
  | nil =>
    refine ⟨min want s.content.length, [], by omega, by omega, by omega, ?_⟩
    rw [(hcapped want).1, (hcapped want).2]
    rfl
  | cons c cuts =>
    refine ⟨min (min want (c + 1)) s.content.length, cuts, by omega, by omega, by omega, ?_⟩
    rw [(hcapped _).1, (hcapped _).2]
    rfl

/-- What of the content the loop is to take. -/
def Progress.due (p : Progress) (content : Bytes) : Bytes :=
  if p.remaining = U64_MAX then content else content.take p.remaining

/-- The connection has what the loop waits for, and the file has room for it. -/
structure Ample (s : Stream) (p : Progress) : Prop where
  small : p.remaining ≤ U64_MAX
  ends : p.remaining = U64_MAX → s.failing = false
  enough : p.remaining ≠ U64_MAX → p.remaining ≤ s.content.length
  fits : p.file.length + (p.due s.content).length ≤ ISIZE_MAX

theorem Progress.due_take {n : ℕ} (hsmall : p.remaining ≤ U64_MAX)
    (hn : p.remaining = U64_MAX ∨ n ≤ p.remaining) {content : Bytes} (hlength : n ≤ content.length) :
    p.due content = content.take n ++ (p.add (content.take n)).due (content.drop n) := by
  have htake : (content.take n).length = n := List.length_take_of_le hlength
  by_cases hmax : p.remaining = U64_MAX
  · have hmax' : (p.add (content.take n)).remaining = U64_MAX := by
      rw [Progress.add, if_neg (not_not.mpr hmax), hmax]
    rw [due, due, if_pos hmax, if_pos hmax', List.take_append_drop]
  · have hrest : (p.add (content.take n)).remaining = p.remaining - n := by
      rw [Progress.add, if_pos hmax, htake]
    have hle := hn.resolve_left hmax
    have hmax' : (p.add (content.take n)).remaining ≠ U64_MAX := by omega
    rw [due, due, if_neg hmax, if_neg hmax', hrest, ← List.take_add, Nat.add_sub_cancel' hle]

/-- A read gets nothing just at the end, and otherwise no more than is due. -/
theorem Ample.read (h : Ample s p) (hzero : p.remaining ≠ 0) :
    (p.due s.content = [] ∧ s.read p.want = .ok ([], s)) ∨
      ∃ n cuts, 0 < n ∧ n ≤ s.content.length ∧ (p.remaining = U64_MAX ∨ n ≤ p.remaining) ∧
        s.read p.want = .ok (s.content.take n, { s with content := s.content.drop n, cuts := cuts }) := by
  by_cases hcontent : s.content = []
  · have hmax : p.remaining = U64_MAX := by
      by_contra hmax
      have henough := h.enough hmax
      rw [hcontent, List.length_nil] at henough
      omega
    refine Or.inl ⟨?_, ?_⟩
    · rw [Progress.due, if_pos hmax, hcontent]
    · rw [Stream.read, if_pos hcontent, if_neg (by simp [h.ends hmax])]
  · have hwant : 0 < p.want := by
      unfold Progress.want
      have hbuf : 0 < BUF_LEN := by decide
      split_ifs <;> omega
    obtain ⟨n, cuts, hn, hle, hlength, hread⟩ := Stream.read_some hcontent hwant
    refine Or.inr ⟨n, cuts, hn, hlength, ?_, hread⟩
    unfold Progress.want at hle
    split_ifs at hle with hmax
    · exact Or.inl hmax
    · exact Or.inr (by omega)

theorem Ample.add (h : Ample s p) {n : ℕ} {cuts : List ℕ} (hlength : n ≤ s.content.length)
    (hn : p.remaining = U64_MAX ∨ n ≤ p.remaining) :
    Ample { s with content := s.content.drop n, cuts := cuts } (p.add (s.content.take n)) := by
  have htake : (s.content.take n).length = n := List.length_take_of_le hlength
  have hfile : (p.add (s.content.take n)).file.length = p.file.length + n := by
    simp only [Progress.add, List.length_append, htake]
  have hfits := h.fits
  rw [Progress.due_take h.small hn hlength, List.length_append, htake, ← Nat.add_assoc, ← hfile] at hfits
  by_cases hmax : p.remaining = U64_MAX
  · have hrest : (p.add (s.content.take n)).remaining = U64_MAX := by
      rw [Progress.add, if_neg (not_not.mpr hmax), hmax]
    exact ⟨hrest.le, fun _ => h.ends hmax, fun hne => absurd hrest hne, hfits⟩
  · have hrest : (p.add (s.content.take n)).remaining = p.remaining - n := by
      rw [Progress.add, if_pos hmax, htake]
    have hle := hn.resolve_left hmax
    have hsmall := h.small
    have henough := h.enough hmax
    refine ⟨by omega, fun heq => absurd heq (by omega), fun _ => ?_, hfits⟩
    rw [hrest, List.length_drop]
    omega

/-- With enough to read, the loop takes just what is due. -/
theorem copyBody_due (h : Ample s p) :
    (copyBody s p).1 = none ∧ (copyBody s p).2.file = p.file ++ p.due s.content := by
  fun_induction copyBody s p with
  | case1 s p hzero =>
    have hdue : p.due s.content = [] := by
      rw [Progress.due, hzero, if_neg (by decide), List.take_zero]
    exact ⟨rfl, by rw [hdue, List.append_nil]⟩
  | case2 s p hzero e hread =>
    rcases h.read hzero with ⟨-, hread'⟩ | ⟨n, cuts, -, -, -, hread'⟩
    · cases hread.symm.trans hread'
    · cases hread.symm.trans hread'
  | case3 s p hzero s' hread =>
    rcases h.read hzero with ⟨hdue, -⟩ | ⟨n, cuts, hpos, hlength, -, hread'⟩
    · exact ⟨rfl, by rw [hdue, List.append_nil]⟩
    · have hnil := congrArg List.length (Prod.mk.inj (Except.ok.inj (hread.symm.trans hread'))).1
      rw [List.length_take_of_le hlength, List.length_nil] at hnil
      omega
  | case4 s p hzero piece s' hread hpiece hlong =>
    rcases h.read hzero with ⟨-, hread'⟩ | ⟨n, cuts, hpos, hlength, hn, hread'⟩
    · cases hread.symm.trans hread'
      exact absurd rfl hpiece
    · cases hread.symm.trans hread'
      have hfits := h.fits
      rw [Progress.due_take h.small hn hlength, List.length_append] at hfits
      omega
  | case5 s p hzero piece s' hread hpiece hlong ih =>
    rcases h.read hzero with ⟨-, hread'⟩ | ⟨n, cuts, hpos, hlength, hn, hread'⟩
    · cases hread.symm.trans hread'
      exact absurd rfl hpiece
    · cases hread.symm.trans hread'
      obtain ⟨hdone, hfile⟩ := ih (h.add hlength hn)
      refine ⟨hdone, ?_⟩
      rw [hfile, Progress.due_take h.small hn hlength, Progress.add, List.append_assoc]

section Sent
variable {a : Answer}

theorem Answer.WellFormed.plain (h : a.WellFormed) (hframing : ∀ pieces, a.framing ≠ .chunked pieces) :
    ∀ x ∈ a.headers, ¬ (Named "transfer-encoding" x ∧ isChunked x.2) := by
  intro x hx hchunked
  obtain ⟨pieces, hpieces⟩ := h.chunked.mp ⟨x, hx, hchunked⟩
  exact hframing pieces hpieces

/-- The length the response tells: that of the body, or none where the connection ends behind it. -/
def Answer.told (a : Answer) : Option ℕ :=
  match a.framing with
  | .length _ => some a.body.length
  | _ => none

theorem readHttpResponse_ok (h : a.WellFormed) (hframing : ∀ pieces, a.framing ≠ .chunked pieces)
    (hlength : a.body.length ≤ ISIZE_MAX) (hs : a.SentAs s) :
    readHttpResponse s = .ok (200, a.body) := by
  have hmax : a.body.length < U64_MAX + 1 := Nat.lt_of_le_of_lt hlength (by decide)
  have hheaders := eachHeader_headers putHeader h.names h.values [] (s :=
    { s with content := encode (a.headers.flatMap Answer.headerLine) ++ encode (crlf []) ++ a.sent }) rfl
  rw [foldlM_putHeader h.names] at hheaders
  have hannounced := h.announced
  rw [readHttpResponse, readLine_statusLine h hs]
  simp only [bind, Except.bind]
  rw [hheaders]
  simp only [Except.map, statusOf_statusLine h]
  cases hf : a.framing with
  | length later =>
    rw [hf] at hannounced
    have hsent : a.sent = a.body ++ later := by rw [Answer.sent, hf]
    rw [lookup_length hmax hannounced.1 hannounced.2]
    dsimp only
    rw [if_neg (Nat.not_lt.mpr hlength), Stream.readExact, hsent, if_neg (by simp), List.take_left']
    · rfl
    · rfl
  | close =>
    rw [hf] at hannounced
    have hsent : a.sent = a.body := by rw [Answer.sent, hf]
    rw [lookup_none hannounced, Option.bind_none, hsent]
    rfl
  | chunked pieces => exact absurd hf (hframing pieces)

theorem responseHead_ok (h : a.WellFormed) (hframing : ∀ pieces, a.framing ≠ .chunked pieces)
    (hlength : a.body.length ≤ ISIZE_MAX) (hs : a.SentAs s) :
    responseHead s = .ok (a.told, { s with content := a.sent }) := by
  have hmax : a.body.length < U64_MAX + 1 := Nat.lt_of_le_of_lt hlength (by decide)
  have hplain := h.plain hframing
  have hheaders := eachHeader_headers contentLength h.names h.values none (s :=
    { s with content := encode (a.headers.flatMap Answer.headerLine) ++ encode (crlf []) ++ a.sent }) rfl
  have hfold : a.headers.foldlM (fun a h => contentLength a h.1 (crlf h.2)) none = .ok a.told := by
    have hannounced := h.announced
    cases hf : a.framing with
    | length later =>
      rw [hf] at hannounced
      rw [foldlM_contentLength_some h.names hplain hmax hannounced.2 (Or.inr hannounced.1), Answer.told, hf]
    | close =>
      rw [hf] at hannounced
      rw [foldlM_contentLength_none h.names hplain hannounced, Answer.told, hf]
    | chunked pieces => exact absurd hf (hframing pieces)
  rw [hfold] at hheaders
  rw [responseHead, readLine_statusLine h hs]
  simp only [bind, Except.bind]
  rw [if_neg (not_not.mpr (statusOf_statusLine h))]
  exact hheaders

/-- What the copying loop starts with, and what is due of the content: the body. -/
theorem ample_sent (hframing : ∀ pieces, a.framing ≠ .chunked pieces)
    (hlength : a.body.length ≤ ISIZE_MAX) (hs : a.SentAs s) :
    Ample { s with content := a.sent } { remaining := a.told.getD U64_MAX } ∧
      Progress.due { remaining := a.told.getD U64_MAX } a.sent = a.body := by
  have hsmall : a.body.length < U64_MAX := Nat.lt_of_le_of_lt hlength (by decide)
  cases hf : a.framing with
  | length later =>
    have htold : a.told = some a.body.length := by rw [Answer.told, hf]
    have hsent : a.sent = a.body ++ later := by rw [Answer.sent, hf]
    have hdue : Progress.due { remaining := a.body.length } (a.body ++ later) = a.body := by
      rw [Progress.due, if_neg (Nat.ne_of_lt hsmall)]
      exact List.take_left
    rw [htold, hsent, Option.getD_some]
    refine ⟨⟨hsmall.le, fun heq => absurd heq (Nat.ne_of_lt hsmall), fun _ => by simp, ?_⟩, hdue⟩
    rw [hdue]
    exact (Nat.zero_add _).le.trans hlength
  | close =>
    have htold : a.told = none := by rw [Answer.told, hf]
    have hsent : a.sent = a.body := by rw [Answer.sent, hf]
    have hdue : Progress.due { remaining := U64_MAX } a.body = a.body := by
      rw [Progress.due, if_pos rfl]
    rw [htold, hsent, Option.getD_none]
    refine ⟨⟨le_rfl, fun _ => ?_, fun hne => absurd rfl hne, ?_⟩, hdue⟩
    · by_contra hfailing
      obtain ⟨later, hlater⟩ := hs.ends (Bool.not_eq_false _ |>.mp hfailing)
      cases hf.symm.trans hlater
    · rw [hdue]
      exact (Nat.zero_add _).le.trans hlength
  | chunked pieces => exact absurd hf (hframing pieces)

end Sent

/-- Both readers give only bytes with the digest asked for, other bytes leave no file, and of a
response that is not in pieces both get the body. -/
theorem downloads_verified (sha : Bytes → Text) (sha256Hex : Text) (s : Stream) (dest : Option Bytes) :
    (∀ body, getBlobBytesVerified sha sha256Hex s = .ok body → sha body = sha256Hex) ∧
    (∀ n dest', downloadBlobToFileVerified sha sha256Hex s dest = (.ok n, dest') →
      ∃ body, dest' = some body ∧ n = body.length ∧ sha body = sha256Hex) ∧
    (∀ got dest', downloadBlobToFileVerified sha sha256Hex s dest = (.error (.mismatch got), dest') →
      dest' = none) ∧
    ∀ a : Answer, a.WellFormed → (∀ pieces, a.framing ≠ .chunked pieces) → a.body.length ≤ ISIZE_MAX →
      a.SentAs s → sha a.body = sha256Hex →
        getBlobBytesVerified sha sha256Hex s = .ok a.body ∧
          downloadBlobToFileVerified sha sha256Hex s dest = (.ok a.body.length, some a.body) := by
  refine ⟨fun body => getBlobBytesVerified_ok, fun n dest' => downloadBlobToFileVerified_ok,
    fun got dest' => downloadBlobToFileVerified_mismatch, fun a h hframing hlength hs hsha => ⟨?_, ?_⟩⟩
  · rw [getBlobBytesVerified, readHttpResponse_ok h hframing hlength hs]
    simp [bind, Except.bind, hsha, pure, Except.pure]
  · obtain ⟨hample, hdue⟩ := ample_sent hframing hlength hs
    obtain ⟨hdone, hfile⟩ := copyBody_due hample
    have hagrees : (copyBody { s with content := a.sent } { remaining := a.told.getD U64_MAX }).2.Agrees :=
      copyBody_agrees ⟨rfl, rfl, Nat.zero_le _⟩ hdone
    have hbody : (copyBody { s with content := a.sent } { remaining := a.told.getD U64_MAX }).2.file =
        a.body := by
      rw [hfile]
      exact (List.nil_append _).trans hdue
    rw [downloadBlobToFileVerified, responseHead_ok h hframing hlength hs]
    cases hcopy : copyBody { s with content := a.sent } { remaining := a.told.getD U64_MAX } with
    | mk failure p =>
      rw [hcopy] at hdone hagrees hbody
      obtain rfl : failure = none := hdone
      have hbody' : p.file = a.body := hbody
      have hhashed : p.hashed = a.body := hagrees.hashed.trans hbody'
      have htotal : p.total = a.body.length := hbody' ▸ hagrees.total
      simp [hcopy, hbody', hhashed, htotal, hsha]

def answer : Answer where
  version := "HTTP/1.1".toList
  reason := "OK".toList
  headers := [("Server".toList, " x".toList), ("content-length".toList, " 2\t".toList)]
  framing := .length [9]
  body := [1, 2]

theorem proper_of_all {headers : List (Text × Text)}
    (h : headers.all fun h => h.1.all fun c => !isSpace c && c != ':') :
    ∀ h ∈ headers, ∀ c ∈ h.1, isSpace c = false ∧ c ≠ ':' := by
  intro x hx c hc
  have hall := List.all_eq_true.mp (List.all_eq_true.mp h x hx) c hc
  simpa using hall

theorem answer_wellFormed : answer.WellFormed where
  version := ⟨by decide, not_space_of_all (by decide +kernel)⟩
  reason := by decide +kernel
  names := proper_of_all (by decide +kernel)
  values := by decide +kernel
  announced := by
    refine ⟨⟨("content-length".toList, " 2\t".toList), by decide, by unfold Named; decide⟩, ?_⟩
    intro h hh hname
    have hlast : h = ("content-length".toList, " 2\t".toList) := by
      rcases List.mem_cons.mp hh with rfl | hh
      · exact absurd hname (by unfold Named; decide)
      · exact List.mem_singleton.mp hh
    rw [hlast]
    exact ⟨by decide +kernel, by decide +kernel, by decide +kernel⟩
  chunked := by
    constructor
    · rintro ⟨h, hh, hname, -⟩
      have hnone : ∀ h ∈ answer.headers, toAsciiLowercase h.1 ≠ "transfer-encoding".toList := by
        decide +kernel
      exact absurd hname (hnone h hh)
    · rintro ⟨pieces, hpieces⟩
      cases hpieces

theorem downloads_verified_answer :
    getBlobBytesVerified (fun b => b.map fun x => Char.ofNat x.toNat) (['\x01', '\x02'] : Text)
        ⟨answer.bytes, true, [0]⟩ = .ok [1, 2] ∧
      downloadBlobToFileVerified (fun b => b.map fun x => Char.ofNat x.toNat) (['\x01', '\x02'] : Text)
        ⟨answer.bytes, true, [0]⟩ none = (.ok 2, some [1, 2]) :=
  (downloads_verified (fun b => b.map fun x => Char.ofNat x.toNat) ['\x01', '\x02']
    ⟨answer.bytes, true, [0]⟩ none).2.2.2 answer answer_wellFormed
    (fun _ hpieces => Framing.noConfusion hpieces) (by decide) ⟨rfl, fun _ => ⟨[9], rfl⟩⟩ rfl

/-- The empty body in pieces. -/
def answerInPieces : Answer where
  version := "HTTP/1.1".toList
  reason := "OK".toList
  headers := [("Transfer-Encoding".toList, " chunked".toList)]
  framing := .chunked []
  body := []

theorem answerInPieces_wellFormed : answerInPieces.WellFormed where
  version := ⟨by decide, not_space_of_all (by decide +kernel)⟩
  reason := by decide +kernel
  names := proper_of_all (by decide +kernel)
  values := by decide +kernel
  announced := by
    refine ⟨?_, rfl, List.not_mem_nil⟩
    unfold Named
    decide +kernel
  chunked := ⟨fun _ => ⟨[], rfl⟩, fun _ => ⟨_, List.mem_cons_self, by unfold Named; decide +kernel⟩⟩

theorem not_downloads_verified :
    ¬ ∀ (sha : Bytes → Text) (s : Stream) (dest : Option Bytes) (a : Answer), a.WellFormed →
      a.body.length ≤ ISIZE_MAX → a.SentAs s →
        downloadBlobToFileVerified sha (sha a.body) s dest = (.ok a.body.length, some a.body) := by
  intro h
  have hdone := h (fun _ => []) ⟨answerInPieces.bytes, false, []⟩ none answerInPieces
    answerInPieces_wellFormed (by decide) ⟨rfl, Bool.noConfusion⟩
  exact absurd hdone (by decide +kernel)

end Redo.Remote.Downloads
