import Mathlib.Tactic.IntervalCases
import Redo.Browse.Subgraph
import Redo.Cache.Metadata
import Redo.Library.JsonText
import Redo.Library.LossyText
import Redo.Library.PercentCode
import Redo.Remote.Downloads

/-! # What the viewer is answered

`redo-browse` serves a page and the data for it. A name comes in a URL, and the graph goes back as
JSON.
-/
namespace Redo.Browse
open Library Remote

def fromHex (b : UInt8) : Option UInt8 :=
  if 48 ≤ b ∧ b ≤ 57 then some (b - 48)
  else if 97 ≤ b ∧ b ≤ 102 then some (b - 97 + 10)
  else if 65 ≤ b ∧ b ≤ 70 then some (b - 65 + 10)
  else none

/-- The byte that two digits stand for. -/
def hexPair : List UInt8 → Option UInt8
  | x :: y :: _ => (fromHex x).bind fun a => (fromHex y).map fun c => a <<< 4 ||| c
  | _ => none

/-- Some bytes have been read with the one before. -/
def urlDecodeFrom : ℕ → List UInt8 → List UInt8
  | _, [] => []
  | skip + 1, _ :: rest => urlDecodeFrom skip rest
  | 0, b :: rest =>
    if b = 43 then 32 :: urlDecodeFrom 0 rest
    else if b = 37 then
      match hexPair rest with
      | some x => x :: urlDecodeFrom 2 rest
      | none => b :: urlDecodeFrom 0 rest
    else b :: urlDecodeFrom 0 rest

def urlDecode (s : Text) : Text := lossy (urlDecodeFrom 0 (encode s))

def insertPart (out : List (Text × Text)) (part : Text) : List (Text × Text) :=
  if part = [] then out
  else
    let kv := (Downloads.splitOnce '=' part).getD (part, [])
    (urlDecode kv.1, urlDecode kv.2) :: out

/-- The pairs of the query, the last one first. -/
def parseQuery (qs : Text) : List (Text × Text) := (qs.splitOn '&').foldl insertPart []

def splitPathQuery (uri : Text) : Text × List (Text × Text) :=
  let parts := (Downloads.splitOnce '?' uri).getD (uri, [])
  (parts.1, parseQuery parts.2)

def Dir.parse (s : Text) : Option Dir :=
  if s = "forward".toList ∨ s = "fwd".toList then some .forward
  else if s = "reverse".toList ∨ s = "rev".toList then some .reverse
  else if s = "both".toList then some .both
  else none

def jsonEscapeChar (c : Char) : Text :=
  if c = '"' then "\\\"".toList
  else if c = '\\' then "\\\\".toList
  else if c = '\n' then "\\n".toList
  else if c = '\r' then "\\r".toList
  else if c = '\t' then "\\t".toList
  else if c.toNat < 32 then
    let digits := Nat.toDigits 16 c.toNat
    "\\u".toList ++ List.replicate (4 - digits.length) '0' ++ digits
  else [c]

def jsonEscape (s : Text) : Text := s.flatMap jsonEscapeChar

def printBool (b : Bool) : Text := if b then "true".toList else "false".toList

/-- A node, as all answers print it. -/
def nodeText (name : Text) (generated : Bool) : Text :=
  "\x7b\"name\":\"".toList ++ jsonEscape name ++ "\",\"generated\":".toList ++ printBool generated ++ ['\x7d']

def linkText (l : LinkView) : Text :=
  "\x7b\"source\":\"".toList ++ jsonEscape l.source ++ "\",\"target\":\"".toList ++ jsonEscape l.target ++
    "\",\"mode\":\"".toList ++ [l.mode] ++ "\"\x7d".toList

def Subgraph.toJson (g : Subgraph) : Text :=
  "\x7b\"root\":\"".toList ++ jsonEscape g.root ++ "\",\"depth\":".toList ++ Nat.toDigits 10 g.depth ++
    ",\"dir\":\"".toList ++ jsonEscape g.dir ++ "\",\"nodes\":[".toList ++
    [','].intercalate (g.nodes.map fun n => nodeText n.name n.generated) ++ "],\"links\":[".toList ++
    [','].intercalate (g.links.map linkText) ++ "]\x7d".toList

/-- Names with the text in them, without regard to the case of ASCII letters. -/
def Graph.search (g : Graph) (q : Text) (limit : ℕ) : List Node :=
  let q := trim q
  if q = [] then []
  else
    (sortBy Node.name ((g.nodesById.map Prod.snd).filter fun n =>
      decide (Downloads.toAsciiLowercase q <:+: Downloads.toAsciiLowercase n.name))).take limit

def insertNew (ids : List ℤ) (id : ℤ) : List ℤ := if id ∈ ids then ids else ids ++ [id]

/-- Well-known targets first, then those on which most depends. -/
def Graph.suggest (g : Graph) (limit : ℕ) : List Node :=
  let known := (["all".toList, "cmake".toList, "install".toList, "clean".toList].filterMap
    fun name => g.idByName.lookup name).foldl insertNew []
  let byDegree := g.nodesById.filterMap fun p =>
    let degree := (edgesOf g.reverse p.1).length
    if p.2.isGenerated ∧ degree ≠ 0 then some (degree, p.1) else none
  let sorted := byDegree.insertionSort fun a b => b.1 < a.1 ∨ a.1 = b.1 ∧ a.2 ≤ b.2
  let ids := sorted.foldl (fun ids p => if limit ≤ ids.length then ids else insertNew ids p.2) known
  ids.filterMap fun id => g.nodesById.lookup id

structure Response where
  status : Text
  contentType : Text
  body : Text
deriving DecidableEq

def JSON : Text := "application/json; charset=utf-8".toList

def nodesBody (key : Text) (nodes : List Node) : Text :=
  "\x7b\"".toList ++ key ++ "\":[".toList ++
    [','].intercalate (nodes.map fun n => nodeText n.name n.isGenerated) ++ "]\x7d".toList

def errorBody (message : Text) : Text :=
  "\x7b\"error\":\"".toList ++ jsonEscape message ++ "\"\x7d".toList

/-- A parameter that is a `usize`. -/
def numberOr (query : List (Text × Text)) (key : Text) (default : ℕ) : ℕ :=
  ((query.lookup key).bind (parseUnsigned 18446744073709551616)).getD default

/-- `handle_client`, with the page and with what Rust prints of a text for debugging. -/
def handleClient (indexHtml : Text) (debug : Text → Text) (g : Graph) (method uri : Text) : Response :=
  if method ≠ "GET".toList then ⟨"405 Method Not Allowed".toList, "text/plain; charset=utf-8".toList, []⟩
  else
    let (path, query) := splitPathQuery uri
    if path = ['/'] then ⟨"200 OK".toList, "text/html; charset=utf-8".toList, indexHtml⟩
    else if path = "/api/search".toList then
      ⟨"200 OK".toList, JSON, nodesBody "matches".toList
        (g.search ((query.lookup "q".toList).getD []) (numberOr query "limit".toList 50))⟩
    else if path = "/api/suggest".toList then
      ⟨"200 OK".toList, JSON, nodesBody "suggestions".toList (g.suggest (numberOr query "limit".toList 30))⟩
    else if path = "/api/subgraph".toList then
      let name := (query.lookup "name".toList).getD []
      if name = [] then
        ⟨"400 Bad Request".toList, JSON, "\x7b\"error\":\"missing name\"\x7d".toList⟩
      else
        let dir := ((query.lookup "dir".toList).bind Dir.parse).getD .both
        match g.subgraph name (numberOr query "depth".toList 2) dir with
        | some sg => ⟨"200 OK".toList, JSON, sg.toJson⟩
        | none => ⟨"404 Not Found".toList, JSON, errorBody ("unknown node ".toList ++ debug name)⟩
    else if path = "/api/stats".toList then
      ⟨"200 OK".toList, JSON, "\x7b\"nodes\":".toList ++ Nat.toDigits 10 g.nodesById.length ++
        ",\"deps\":".toList ++ Nat.toDigits 10 ((g.forward.map fun p => p.2.length).sum) ++ ['\x7d']⟩
    else ⟨"404 Not Found".toList, "text/plain; charset=utf-8".toList, []⟩

/-- What comes of a client: some bytes, or none for two seconds. At the end it has hung up. -/
inductive Received
  | chunk (bytes : List UInt8)
  | timeout

/-- The end of the head of a request. -/
def HEAD_END : List UInt8 := [13, 10, 13, 10]

def receive : List Received → List UInt8 → Option (List UInt8)
  | [], _ => none
  | .timeout :: _, data => some data
  -- the client has closed the connection
  | .chunk [] :: _, _ => none
  | .chunk (byte :: more) :: rest, data =>
    let bytes := byte :: more
    if HEAD_END <:+: data ++ bytes then some (data ++ bytes)
    else if 65536 < (data ++ bytes).length then some (data ++ bytes)
    else receive rest (data ++ bytes)

/-- The method and the URI of `read_request`. -/
def readRequest (received : List Received) : Option (Text × Text) :=
  (receive received []).bind fun data => (Cache.lines (lossy data)).head?.map fun line =>
    let parts := Downloads.splitWhitespace line
    (parts[0]?.getD [], parts[1]?.getD ['/'])

def serve (indexHtml : Text) (debug : Text → Text) (g : Graph) (received : List Received) : Option Response :=
  (readRequest received).map fun r => handleClient indexHtml debug g r.1 r.2

variable {name s : Text} {v v' : Json} {c : Char}

theorem spells_jsonEscapeChar (c : Char) : Json.Spells c (jsonEscapeChar c) := by
  unfold jsonEscapeChar
  split_ifs with hquote hback hnl hcr htab hcontrol
  · subst hquote; intro rest; rfl
  · subst hback; intro rest; rfl
  · subst hnl; intro rest; rfl
  · subst hcr; intro rest; rfl
  · subst htab; intro rest; rfl
  · have hall : ∀ n < 32, ∀ rest, Json.readChar (("\\u".toList ++
        List.replicate (4 - (Nat.toDigits 16 n).length) '0' ++ Nat.toDigits 16 n) ++ rest) =
        some (some (Char.ofNat n), rest) := by
      intro n hn rest
      interval_cases n <;> rfl
    have hread := hall c.toNat hcontrol
    rwa [Char.ofNat_toNat] at hread
  · exact Json.spells_self hquote hback (not_lt.mp hcontrol)

/-- Nothing to escape. -/
def Plain (c : Char) : Prop := c ≠ '"' ∧ c ≠ '\\' ∧ 32 ≤ c.toNat

instance (c : Char) : Decidable (Plain c) := inferInstanceAs (Decidable (_ ∧ _))

theorem reads_text (s : Text) : Json.Reads (.str s) ('"' :: (jsonEscape s ++ ['"'])) :=
  Json.reads_str fun c _ => spells_jsonEscapeChar c

/-- A member of an object: its key needs no escapes. -/
structure Member where
  key : Text
  value : Json
  text : Text
  plain : key.all fun c => decide (Plain c)
  reads : Json.Reads value text

def Member.str (key s : Text) (plain : key.all fun c => decide (Plain c)) : Member :=
  ⟨key, .str s, '"' :: (jsonEscape s ++ ['"']), plain, reads_text s⟩

theorem reads_members (l : List Member) : Json.Reads (.obj (l.map fun m => (m.key, m.value)))
    ('\x7b' :: ([','].intercalate (l.map fun m => '"' :: (m.key ++ '"' :: ':' :: m.text)) ++ ['\x7d'])) := by
  have hkeys : ∀ p ∈ l.map fun m => (m.key, m.value, m.text), ∀ c ∈ p.1, Json.Spells c [c] := by
    intro p hp c hc
    obtain ⟨m, -, rfl⟩ := List.mem_map.mp hp
    obtain ⟨hquote, hback, hcontrol⟩ := forall_of_all m.plain c hc
    exact Json.spells_self hquote hback hcontrol
  have hvalues : ∀ p ∈ l.map fun m => (m.key, m.value, m.text), Json.Reads p.2.1 p.2.2 := by
    intro p hp
    obtain ⟨m, -, rfl⟩ := List.mem_map.mp hp
    exact m.reads
  have hread := Json.reads_obj hkeys hvalues
  simpa only [List.flatMap_singleton', List.map_map, Function.comp_def] using hread

def nodeJson (name : Text) (generated : Bool) : Json :=
  .obj [("name".toList, .str name), ("generated".toList, .bool generated)]

def linkJson (l : LinkView) : Json :=
  .obj [("source".toList, .str l.source), ("target".toList, .str l.target), ("mode".toList, .str [l.mode])]

/-- What the viewer makes of the answer. -/
def Subgraph.json (g : Subgraph) : Json :=
  .obj [("root".toList, .str g.root), ("depth".toList, .nat g.depth), ("dir".toList, .str g.dir),
    ("nodes".toList, .arr (g.nodes.map fun n => nodeJson n.name n.generated)),
    ("links".toList, .arr (g.links.map linkJson))]

theorem reads_nodeText (name : Text) (generated : Bool) :
    Json.Reads (nodeJson name generated) (nodeText name generated) := by
  have hread := reads_members [.str "name".toList name (by decide),
    ⟨"generated".toList, .bool generated, printBool generated, by decide, Json.reads_bool generated⟩]
  unfold nodeText
  simpa [nodeJson, Member.str] using hread

theorem reads_linkText {l : LinkView} (hmode : Plain l.mode) : Json.Reads (linkJson l) (linkText l) := by
  have hstr : Json.Reads (.str [l.mode]) ('"' :: (([l.mode].flatMap fun c => [c]) ++ ['"'])) :=
    Json.reads_str fun c hc => by
      rw [List.mem_singleton.mp hc]
      exact Json.spells_self hmode.1 hmode.2.1 hmode.2.2
  have hread := reads_members [.str "source".toList l.source (by decide),
    .str "target".toList l.target (by decide), ⟨"mode".toList, _, _, by decide, hstr⟩]
  unfold linkText
  simpa [linkJson, Member.str] using hread

theorem reads_list {α : Type} {json : α → Json} {text : α → Text} {l : List α}
    (h : ∀ a ∈ l, Json.Reads (json a) (text a)) :
    Json.Reads (.arr (l.map json)) ('[' :: ([','].intercalate (l.map text) ++ [']'])) := by
  have hread := @Json.reads_arr (l.map fun a => (json a, text a)) fun p hp => by
    obtain ⟨a, ha, rfl⟩ := List.mem_map.mp hp
    exact h a ha
  simpa [List.map_map, Function.comp_def] using hread

theorem reads_toJson {g : Subgraph} (hmodes : ∀ l ∈ g.links, Plain l.mode) : Json.Reads g.json g.toJson := by
  have hnodes := reads_list fun n (_ : n ∈ g.nodes) => reads_nodeText n.name n.generated
  have hlinks := reads_list fun l hl => reads_linkText (hmodes l hl)
  have hread := reads_members [.str "root".toList g.root (by decide),
    ⟨"depth".toList, _, _, by decide, Json.reads_nat g.depth⟩, .str "dir".toList g.dir (by decide),
    ⟨"nodes".toList, _, _, by decide, hnodes⟩, ⟨"links".toList, _, _, by decide, hlinks⟩]
  unfold Subgraph.toJson
  simpa [Subgraph.json, Member.str] using hread

theorem fromHex_hexByte : ∀ n < 16, fromHex (hexByte n) = some (UInt8.ofNat n) := by decide

theorem hexPair_hexByte (b : UInt8) (rest : List UInt8) :
    hexPair (hexByte (b.toNat / 16) :: hexByte (b.toNat % 16) :: rest) = some b := by
  have hjoin : ∀ n < 256, UInt8.ofNat (n / 16) <<< 4 ||| UInt8.ofNat (n % 16) = UInt8.ofNat n := by
    decide +kernel
  have hlt : b.toNat < 256 := b.toNat_lt
  have hbyte := hjoin b.toNat hlt
  rw [UInt8.ofNat_toNat] at hbyte
  rw [hexPair, fromHex_hexByte _ (by omega), fromHex_hexByte _ (by omega)]
  exact congrArg some hbyte

theorem urlDecodeFrom_percentBytes {keep : UInt8 → Bool} (hkeep : ∀ b, keep b = true → Unreserved b)
    (bytes : List UInt8) : urlDecodeFrom 0 (percentBytes keep bytes) = bytes := by
  induction bytes with
  | nil => rfl
  | cons b bytes ih =>
    rw [percentBytes, List.flatMap_cons]
    split
    · rename_i hb
      have hplus : b ≠ 43 := by rintro rfl; exact absurd (hkeep 43 hb) (by decide)
      have hpercent : b ≠ 37 := by rintro rfl; exact absurd (hkeep 37 hb) (by decide)
      rw [List.singleton_append, urlDecodeFrom, if_neg hplus, if_neg hpercent]
      exact congrArg (b :: ·) ih
    · simp only [List.cons_append, List.nil_append, urlDecodeFrom, hexPair_hexByte]
      exact congrArg (b :: ·) ih

theorem urlDecodeFrom_plain {bytes : List UInt8} (hplus : 43 ∉ bytes) (hpercent : 37 ∉ bytes) :
    urlDecodeFrom 0 bytes = bytes := by
  induction bytes with
  | nil => rfl
  | cons b bytes ih =>
    rw [List.mem_cons, not_or] at hplus hpercent
    rw [urlDecodeFrom, if_neg (Ne.symm hplus.1), if_neg (Ne.symm hpercent.1), ih hplus.2 hpercent.2]

theorem urlDecode_percentEncode {keep : UInt8 → Bool} (hkeep : ∀ b, keep b = true → Unreserved b) (s : Text) :
    urlDecode (percentEncode keep (encode s)) = s := by
  rw [urlDecode, encode_percentEncode hkeep, urlDecodeFrom_percentBytes hkeep]
  simp

theorem urlDecode_plain (hplus : '+' ∉ s) (hpercent : '%' ∉ s) : urlDecode s = s := by
  have hbyte : ∀ a : Char, a.toNat < 128 → a ∉ s → UInt8.ofNat a.toNat ∉ encode s := by
    intro a ha hmem h
    obtain ⟨c, hc, hb⟩ := List.mem_flatMap.mp h
    exact hmem (eq_of_mem_encodeChar ha hb ▸ hc)
  rw [urlDecode, urlDecodeFrom_plain (hbyte '+' (by decide) hplus) (hbyte '%' (by decide) hpercent)]
  simp

/-- A parameter of a query. -/
def parameter (key value : Text) : Text := key ++ '=' :: value

/-- What the page asks for. -/
def subgraphUri (keep : UInt8 → Bool) (name : Text) (depth : ℕ) (dir : Dir) : Text :=
  "/api/subgraph".toList ++ '?' :: (parameter "name".toList (percentEncode keep (encode name)) ++
    '&' :: (parameter "depth".toList (Nat.toDigits 10 depth) ++ '&' :: parameter "dir".toList dir.asStr))

/-- Nothing that ends a parameter, the query or the URI. -/
def Word (t : Text) : Prop := ∀ c ∈ t, c ∉ ['&', '=', '?'] ∧ isSpace c = false

instance (t : Text) : Decidable (Word t) := List.decidableBAll _ t

theorem word_percentEncode {keep : UInt8 → Bool} (hkeep : ∀ b, keep b = true → Unreserved b)
    (bytes : List UInt8) : Word (percentEncode keep bytes) := by
  have hascii : ∀ n < 128, n = 37 ∨ Unreserved (UInt8.ofNat n) →
      Char.ofNat n ∉ ['&', '=', '?'] ∧ isSpace (Char.ofNat n) = false := by
    decide +kernel
  intro c hc
  obtain ⟨b, hb, rfl⟩ := List.mem_map.mp hc
  rcases mem_percentBytes hkeep hb with rfl | hun
  · exact hascii 37 (by decide) (.inl rfl)
  · exact hascii b.toNat hun.lt (.inr (by rwa [UInt8.ofNat_toNat]))

theorem word_toDigits (n : ℕ) : Word (Nat.toDigits 10 n) := by
  intro c hc
  have hdigit := isDigit_toDigits hc
  refine ⟨?_, isDigit_not_space hdigit⟩
  intro hmem
  simp only [List.mem_cons, List.not_mem_nil, or_false] at hmem
  rcases hmem with rfl | rfl | rfl <;> exact absurd hdigit (by decide)

theorem word_asStr (dir : Dir) : Word dir.asStr := by
  cases dir <;> decide

theorem Word.parameter {key value : Text} (hkey : '&' ∉ key) (hvalue : Word value) :
    '&' ∉ Browse.parameter key value := by
  intro h
  rcases List.mem_append.mp h with h | h
  · exact hkey h
  · rcases List.mem_cons.mp h with h | h
    · exact absurd h (by decide)
    · exact (hvalue _ h).1 (by decide)

theorem not_space_subgraphUri {keep : UInt8 → Bool} (hkeep : ∀ b, keep b = true → Unreserved b) (name : Text)
    (depth : ℕ) (dir : Dir) : ∀ c ∈ subgraphUri keep name depth dir, isSpace c = false := by
  have hword : ∀ {key value : Text}, (key.all fun c => !isSpace c) → Word value →
      ∀ c ∈ parameter key value, isSpace c = false := by
    intro key value hkey hvalue c hc
    rcases List.mem_append.mp hc with hc | hc
    · exact not_space_of_all hkey c hc
    · rcases List.mem_cons.mp hc with rfl | hc
      · decide
      · exact (hvalue c hc).2
  intro c hc
  unfold subgraphUri at hc
  rcases List.mem_append.mp hc with hc | hc
  · exact not_space_of_all (by decide) c hc
  · simp only [List.mem_cons, List.mem_append] at hc
    rcases hc with rfl | hc | rfl | hc | rfl | hc
    · decide
    · exact hword (by decide) (word_percentEncode hkeep _) c hc
    · decide
    · exact hword (by decide) (word_toDigits depth) c hc
    · decide
    · exact hword (by decide) (word_asStr dir) c hc

theorem insertPart_parameter {key value value' : Text} (hkey : '=' ∉ key) (hplus : '+' ∉ key)
    (hpercent : '%' ∉ key) (hvalue : urlDecode value = value') (out : List (Text × Text)) :
    insertPart out (parameter key value) = (key, value') :: out := by
  have hne : parameter key value ≠ [] := List.append_ne_nil_of_right_ne_nil key (List.cons_ne_nil '=' value)
  have hsplit : Downloads.splitOnce '=' (parameter key value) = some (key, value) :=
    Downloads.splitOnce_append hkey value
  rw [insertPart, if_neg hne, hsplit]
  exact congrArg (· :: out) (Prod.ext (urlDecode_plain hplus hpercent) hvalue)

theorem splitPathQuery_subgraphUri {keep : UInt8 → Bool} (hkeep : ∀ b, keep b = true → Unreserved b) (name : Text)
    (depth : ℕ) (dir : Dir) :
    splitPathQuery (subgraphUri keep name depth dir) = ("/api/subgraph".toList,
      [("dir".toList, dir.asStr), ("depth".toList, Nat.toDigits 10 depth), ("name".toList, name)]) := by
  have hname := word_percentEncode hkeep (encode name)
  have hparts : (parameter "name".toList (percentEncode keep (encode name)) ++
      '&' :: (parameter "depth".toList (Nat.toDigits 10 depth) ++ '&' :: parameter "dir".toList dir.asStr)).splitOn
      '&' = [parameter "name".toList (percentEncode keep (encode name)),
        parameter "depth".toList (Nat.toDigits 10 depth), parameter "dir".toList dir.asStr] := by
    rw [List.splitOn_append_cons_self_of_not_mem (hname.parameter (by decide)),
      List.splitOn_append_cons_self_of_not_mem ((word_toDigits depth).parameter (by decide)),
      List.splitOn_eq_singleton ((word_asStr dir).parameter (by decide))]
  have hdepth : urlDecode (Nat.toDigits 10 depth) = Nat.toDigits 10 depth := by
    apply urlDecode_plain
    · exact fun h => absurd (isDigit_toDigits h) (by decide)
    · exact fun h => absurd (isDigit_toDigits h) (by decide)
  have hdir : urlDecode dir.asStr = dir.asStr := by
    apply urlDecode_plain
    · cases dir <;> decide
    · cases dir <;> decide
  unfold subgraphUri
  rw [splitPathQuery, Downloads.splitOnce_append (by decide)]
  dsimp only [Option.getD_some]
  rw [parseQuery, hparts]
  simp only [List.foldl_cons, List.foldl_nil]
  rw [insertPart_parameter (by decide) (by decide) (by decide) (urlDecode_percentEncode hkeep name),
    insertPart_parameter (by decide) (by decide) (by decide) hdepth,
    insertPart_parameter (by decide) (by decide) (by decide) hdir]

/-- The client has sent a whole head: it is read up to some point behind its end or far enough. -/
theorem receive_chunks {chunks : List (List UInt8)} {data : List UInt8} (hpieces : [] ∉ chunks)
    (hnone : ¬HEAD_END <:+: data) (hend : HEAD_END <:+: data ++ chunks.flatten) :
    ∃ got, receive (chunks.map .chunk) data = some got ∧ got <+: data ++ chunks.flatten ∧
      (HEAD_END <:+: got ∨ 65536 < got.length) := by
  induction chunks generalizing data with
  | nil =>
    rw [List.flatten_nil, List.append_nil] at hend
    exact absurd hend hnone
  | cons bytes chunks ih =>
    rw [List.flatten_cons, ← List.append_assoc] at hend ⊢
    obtain ⟨hne, hrest⟩ : [] ≠ bytes ∧ [] ∉ chunks := by simpa only [List.mem_cons, not_or] using hpieces
    obtain ⟨byte, more, rfl⟩ := List.exists_cons_of_ne_nil hne.symm
    simp only [List.map_cons, receive]
    split_ifs with hfound hlong
    · exact ⟨_, rfl, List.prefix_append _ _, .inl hfound⟩
    · exact ⟨_, rfl, List.prefix_append _ _, .inr hlong⟩
    · exact ih hrest hfound hend

/-- The head does not end within its first line. -/
theorem line_of_received {line rest got : List UInt8} (hline : 13 ∉ line) (hgot : got <+: line ++ 13 :: 10 :: rest)
    (hlength : line.length + 2 ≤ 65536) (hend : HEAD_END <:+: got ∨ 65536 < got.length) :
    ∃ more, got = line ++ 13 :: 10 :: more := by
  have hlong : line.length + 2 ≤ got.length := by
    rcases hend with hend | hend
    · by_contra hshort
      have hstart : got <+: line ++ [13] := by
        have hcut : line ++ [13] <+: line ++ 13 :: 10 :: rest := ⟨10 :: rest, by simp⟩
        apply List.prefix_of_prefix_length_le hgot hcut
        simp only [List.length_append, List.length_singleton]
        omega
      have hcount := (hend.sublist.trans hstart.sublist).count_le 13
      rw [List.count_append, List.count_eq_zero_of_not_mem hline] at hcount
      exact absurd hcount (by decide)
    · omega
  have hfull : line ++ [13, 10] <+: got := by
    have hcut : line ++ [13, 10] <+: line ++ 13 :: 10 :: rest := ⟨rest, by simp⟩
    exact List.prefix_of_prefix_length_le hcut hgot (by simpa using hlong)
  obtain ⟨more, rfl⟩ := hfull
  exact ⟨more, by simp⟩

theorem head_lines {line : Text} (h : '\n' ∉ line) (rest : Text) :
    (Cache.lines (line ++ '\r' :: '\n' :: rest)).head? = some line := by
  have hmem : '\n' ∉ line ++ ['\r'] := by simpa using h
  have hsplit : (line ++ '\r' :: '\n' :: rest).splitOn '\n' = (line ++ ['\r']) :: rest.splitOn '\n' := by
    rw [← List.splitOn_append_cons_self_of_not_mem hmem, List.append_assoc, List.singleton_append]
  obtain ⟨part, parts, hparts⟩ := List.exists_cons_of_ne_nil (List.splitOn_ne_nil '\n' rest)
  rw [Cache.lines, hsplit, hparts, List.dropLast_cons_cons, List.map_cons, List.cons_append, List.head?_cons,
    Cache.stripCr, if_pos List.getLast?_concat, List.dropLast_concat]

/-- A request on one line, whatever headers follow and in whatever pieces it comes. -/
theorem readRequest_chunks {method uri version : Text} {chunks : List (List UInt8)}
    (hmethod : method ≠ [] ∧ ∀ c ∈ method, isSpace c = false) (huri : uri ≠ [] ∧ ∀ c ∈ uri, isSpace c = false)
    (hversion : ∀ c ∈ version, isSpace c = false)
    (hline : encode (method ++ ' ' :: (uri ++ ' ' :: version) ++ ['\r', '\n']) <+: chunks.flatten)
    (hlength : (encode (method ++ ' ' :: (uri ++ ' ' :: version))).length + 2 ≤ 65536)
    (hpieces : [] ∉ chunks) (hend : HEAD_END <:+: chunks.flatten) : readRequest (chunks.map .chunk) = some (method, uri) := by
  have hmem : ∀ c, isSpace c = true → c ≠ ' ' → c ∉ method ++ ' ' :: (uri ++ ' ' :: version) := by
    intro c hspace hc h
    simp only [List.mem_append, List.mem_cons, hc, false_or] at h
    rcases h with h | h | h
    · exact absurd (hmethod.2 c h) (by simp [hspace])
    · exact absurd (huri.2 c h) (by simp [hspace])
    · exact absurd (hversion c h) (by simp [hspace])
  have hreturn : 13 ∉ encode (method ++ ' ' :: (uri ++ ' ' :: version)) := by
    intro h
    obtain ⟨c, hc, hb⟩ := List.mem_flatMap.mp h
    exact hmem '\r' (by decide) (by decide) (@eq_of_mem_encodeChar '\r' c (by decide) hb ▸ hc)
  obtain ⟨rest, hrest⟩ := hline
  have hbytes : chunks.flatten = encode (method ++ ' ' :: (uri ++ ' ' :: version)) ++ 13 :: 10 :: rest := by
    rw [← hrest, encode_append, List.append_assoc]
    rfl
  have hnone : ¬HEAD_END <:+: [] := by decide
  obtain ⟨got, hgot, hpart, hfar⟩ := @receive_chunks chunks [] hpieces hnone (by simpa using hend)
  rw [List.nil_append, hbytes] at hpart
  obtain ⟨more, rfl⟩ := line_of_received hreturn hpart hlength hfar
  have htext : lossy (encode (method ++ ' ' :: (uri ++ ' ' :: version)) ++ 13 :: 10 :: more) =
      method ++ ' ' :: (uri ++ ' ' :: version) ++ '\r' :: '\n' :: lossy more := by
    have hbreak : (13 :: 10 :: more : List UInt8) = encode ['\r', '\n'] ++ more := rfl
    rw [lossy_encode_append, hbreak, lossy_encode_append]
    rfl
  have hwords : Downloads.splitWhitespace (method ++ ' ' :: (uri ++ ' ' :: version)) =
      method :: uri :: (version.splitOnP isSpace).filter (· ≠ []) := by
    rw [Downloads.splitWhitespace, List.splitOnP_append_cons_of_forall_mem hmethod.2 ' ' (by decide),
      List.splitOnP_append_cons_of_forall_mem huri.2 ' ' (by decide),
      List.filter_cons_of_pos (by simp [hmethod.1]), List.filter_cons_of_pos (by simp [huri.1])]
  rw [readRequest, hgot, Option.bind_some, htext, head_lines (hmem '\n' (by decide) (by decide)), Option.map_some,
    hwords]
  rfl

/-- What the search of a name gives, as for the viewer. -/
structure Answers (t : Tables) (r : FileRow) (depth : ℕ) (dir : Dir) (g : Subgraph) : Prop where
  root_eq : g.root = r.name
  depth_eq : g.depth = depth
  dir_eq : g.dir = dir.asStr
  exact : Exact t r.id depth dir g

theorem subgraph_of_mem {t : Tables} {r : FileRow} (h : r ∈ t.files) (depth : ℕ) (dir : Dir) :
    ∃ g, (load t).subgraph r.name depth dir = some g ∧ Answers t r depth dir g := by
  obtain ⟨found, hfound, hspec⟩ := search_found t r.id depth dir
  refine ⟨_, ?_, rfl, rfl, rfl, hspec.exact r.name dir.asStr⟩
  rw [Graph.subgraph, idByName_of_mem h, Option.bind_some]
  obtain ⟨first, hfirst, hsecond⟩ := Option.bind_eq_some_iff.mp hfound
  rw [hfirst, Option.bind_some, hsecond]
  rfl

theorem mem_of_lookup {t : Tables} {id : ℤ} (h : (load t).idByName.lookup name = some id) :
    ∃ r ∈ t.files, r.name = name := by
  have hkeys : ((load t).idByName.map Prod.fst).Nodup := by
    rw [load, List.map_map]
    exact t.names
  rw [lookup_iff_mem hkeys] at h
  obtain ⟨r, hr, hpair⟩ := List.mem_map.mp h
  exact ⟨r, hr, congrArg Prod.fst hpair⟩

theorem row_of_subgraph {t : Tables} {depth : ℕ} {dir : Dir} {g : Subgraph}
    (h : (load t).subgraph name depth dir = some g) : ∃ r ∈ t.files, Answers t r depth dir g := by
  obtain ⟨id, hid, -⟩ := Option.bind_eq_some_iff.mp h
  obtain ⟨r, hr, rfl⟩ := mem_of_lookup hid
  obtain ⟨g', hg', hspec⟩ := subgraph_of_mem hr depth dir
  rw [h, Option.some_inj] at hg'
  exact ⟨r, hr, hg' ▸ hspec⟩

/-- The program writes no other modes than `c` and `m`. -/
def Tables.PlainModes (t : Tables) : Prop := ∀ r ∈ t.deps, Plain r.modeChar

instance (t : Tables) : Decidable t.PlainModes := List.decidableBAll _ t.deps

theorem Answers.read {t : Tables} (hmodes : t.PlainModes) {r : FileRow} {depth : ℕ} {dir : Dir} {g : Subgraph}
    (h : Answers t r depth dir g) : Json.Reads g.json g.toJson := by
  apply reads_toJson
  intro l hl
  obtain ⟨_, _, _, _, dep, hdep, rfl, _⟩ := (h.exact.links l).mp hl
  exact hmodes dep (List.mem_of_find?_eq_some hdep)

theorem reads_nodesBody {key : Text} (hkey : key.all fun c => decide (Plain c)) (nodes : List Node) :
    Json.Reads (.obj [(key, .arr (nodes.map fun n => nodeJson n.name n.isGenerated))]) (nodesBody key nodes) := by
  have hnodes := reads_list fun n (_ : n ∈ nodes) => reads_nodeText n.name n.isGenerated
  have hread := reads_members [⟨key, _, _, hkey, hnodes⟩]
  unfold nodesBody
  simpa using hread

theorem reads_errorBody (message : Text) :
    Json.Reads (.obj [("error".toList, .str message)]) (errorBody message) := by
  have hread := reads_members [.str "error".toList message (by decide)]
  unfold errorBody
  simpa [Member.str] using hread

theorem reads_stats (nodes deps : ℕ) :
    Json.Reads (.obj [("nodes".toList, .nat nodes), ("deps".toList, .nat deps)]) ("\x7b\"nodes\":".toList ++
      Nat.toDigits 10 nodes ++ ",\"deps\":".toList ++ Nat.toDigits 10 deps ++ ['\x7d']) := by
  have hread := reads_members [⟨"nodes".toList, _, _, by decide, Json.reads_nat nodes⟩,
    ⟨"deps".toList, _, _, by decide, Json.reads_nat deps⟩]
  simpa using hread

/-- An answer that is called JSON is JSON. -/
def Response.Readable (r : Response) : Prop := r.contentType = JSON → ∃ v, Json.read r.body = some v

theorem readable_of_reads {status contentType body : Text} (h : Json.Reads v body) :
    Response.Readable ⟨status, contentType, body⟩ :=
  fun _ => ⟨v, h.read⟩

theorem readable_of_ne {status contentType body : Text} (h : contentType ≠ JSON) :
    Response.Readable ⟨status, contentType, body⟩ :=
  fun heq => absurd heq h

/-- Whatever is asked for, by whatever names and limits. -/
theorem handleClient_readable {t : Tables} (hmodes : t.PlainModes) (indexHtml : Text) (debug : Text → Text)
    (method uri : Text) : (handleClient indexHtml debug (load t) method uri).Readable := by
  have hplain : "text/plain; charset=utf-8".toList ≠ JSON := by decide
  unfold handleClient
  split_ifs with hmethod
  · exact readable_of_ne hplain
  · obtain ⟨path, query⟩ := splitPathQuery uri
    dsimp only
    split_ifs with hroot hsearch hsuggest hsubgraph hname hstats
    · exact readable_of_ne (by decide)
    · exact readable_of_reads (reads_nodesBody (by decide) _)
    · exact readable_of_reads (reads_nodesBody (by decide) _)
    · exact readable_of_reads (reads_members [.str "error".toList "missing name".toList (by decide)])
    · split
      · rename_i sg hsg
        obtain ⟨r, -, hspec⟩ := row_of_subgraph hsg
        exact readable_of_reads (hspec.read hmodes)
      · exact readable_of_reads (reads_errorBody _)
    · exact readable_of_reads (reads_stats _ _)
    · exact readable_of_ne hplain

theorem handleClient_readable_loop :
    (handleClient [] id (load loop) "GET".toList "/api/subgraph?name=a&depth=2&dir=both".toList).Readable :=
  @handleClient_readable loop (by decide) [] id "GET".toList "/api/subgraph?name=a&depth=2&dir=both".toList

theorem handleClient_subgraph {t : Tables} {r : FileRow} (h : r ∈ t.files) (hne : r.name ≠ []) {depth : ℕ}
    (hdepth : depth < 18446744073709551616) (dir : Dir) {keep : UInt8 → Bool}
    (hkeep : ∀ b, keep b = true → Unreserved b) (indexHtml : Text) (debug : Text → Text) :
    ∃ g, handleClient indexHtml debug (load t) "GET".toList (subgraphUri keep r.name depth dir) =
      ⟨"200 OK".toList, JSON, g.toJson⟩ ∧ Answers t r depth dir g := by
  obtain ⟨g, hg, hspec⟩ := subgraph_of_mem h depth dir
  refine ⟨g, ?_, hspec⟩
  have hname : List.lookup "name".toList [("dir".toList, dir.asStr), ("depth".toList, Nat.toDigits 10 depth),
      ("name".toList, r.name)] = some r.name := rfl
  have hdigits : List.lookup "depth".toList [("dir".toList, dir.asStr), ("depth".toList, Nat.toDigits 10 depth),
      ("name".toList, r.name)] = some (Nat.toDigits 10 depth) := rfl
  have hdir : List.lookup "dir".toList [("dir".toList, dir.asStr), ("depth".toList, Nat.toDigits 10 depth),
      ("name".toList, r.name)] = some dir.asStr := rfl
  have hparse : Dir.parse dir.asStr = some dir := by
    cases dir <;> decide
  unfold handleClient
  rw [splitPathQuery_subgraphUri hkeep, if_neg (by decide)]
  dsimp only
  rw [if_neg (by decide), if_neg (by decide), if_neg (by decide), if_pos rfl, numberOr, hname, hdigits, hdir,
    Option.bind_some, parseUnsigned_toDigits hdepth, Option.bind_some, hparse]
  simp only [Option.getD_some, if_neg hne, hg]

/-- The first line of what the page sends. -/
def subgraphRequest (keep : UInt8 → Bool) (name : Text) (depth : ℕ) (dir : Dir) : Text :=
  "GET".toList ++ ' ' :: (subgraphUri keep name depth dir ++ ' ' :: "HTTP/1.1".toList)

/-- The page asks for what is around a name, whatever bytes the name has, whatever headers follow and in
whatever pieces the request comes: what it reads in the answer is exact. -/
theorem served_exact {t : Tables} (hmodes : t.PlainModes) {r : FileRow} (h : r ∈ t.files) (hne : r.name ≠ [])
    {depth : ℕ} (hdepth : depth < 18446744073709551616) (dir : Dir) {keep : UInt8 → Bool}
    (hkeep : ∀ b, keep b = true → Unreserved b) {chunks : List (List UInt8)}
    (hline : encode (subgraphRequest keep r.name depth dir ++ ['\r', '\n']) <+: chunks.flatten)
    (hlength : (encode (subgraphRequest keep r.name depth dir)).length + 2 ≤ 65536)
    (hpieces : [] ∉ chunks) (hend : HEAD_END <:+: chunks.flatten) (indexHtml : Text) (debug : Text → Text) :
    ∃ g, serve indexHtml debug (load t) (chunks.map .chunk) = some ⟨"200 OK".toList, JSON, g.toJson⟩ ∧
      Json.read g.toJson = some g.json ∧ Answers t r depth dir g := by
  have huri : subgraphUri keep r.name depth dir ≠ [] := by
    unfold subgraphUri
    exact List.append_ne_nil_of_left_ne_nil (by decide) _
  have hread : readRequest (chunks.map .chunk) = some ("GET".toList, subgraphUri keep r.name depth dir) :=
    readRequest_chunks ⟨by decide, not_space_of_all (by decide)⟩
      ⟨huri, not_space_subgraphUri hkeep r.name depth dir⟩ (not_space_of_all (by decide)) hline hlength
      hpieces hend
  obtain ⟨g, hg, hspec⟩ := handleClient_subgraph h hne hdepth dir hkeep indexHtml debug
  refine ⟨g, ?_, (hspec.read hmodes).read, hspec⟩
  rw [serve, hread, Option.map_some, hg]

/-- A name with a quote, a blank and a letter that is not ASCII. -/
def quoted : Tables where
  files := [⟨1, "\"a b\u00e9".toList, some 1⟩, ⟨2, "b".toList, none⟩]
  deps := [⟨1, 2, "m".toList, some 0⟩]
  ids := by decide
  names := by decide

def keepUnreserved (b : UInt8) : Bool := decide (Unreserved b)

theorem served_exact_quoted :
    ∃ g, serve [] id (load quoted) [.chunk (encode "GET /api/subgraph?name=%22a%20b%C3".toList),
        .chunk (encode "%A9&depth=1&dir=both HTTP/1.1\r\n\r\n".toList)] =
          some ⟨"200 OK".toList, JSON, g.toJson⟩ ∧
      Json.read g.toJson = some g.json ∧ Answers quoted ⟨1, "\"a b\u00e9".toList, some 1⟩ 1 .both g :=
  @served_exact quoted (by decide) ⟨1, "\"a b\u00e9".toList, some 1⟩ (by decide) (by decide) 1 (by decide) .both
    keepUnreserved (fun _ h => of_decide_eq_true h)
    [encode "GET /api/subgraph?name=%22a%20b%C3".toList,
      encode "%A9&depth=1&dir=both HTTP/1.1\r\n\r\n".toList]
    (by decide +kernel) (by decide +kernel) (by decide +kernel) (by decide +kernel) [] id

end Redo.Browse
