import Mathlib.Data.List.DropRight
import Redo.Paths.Keys

/-! # The lines of a log

A line of a target's log is output of its script or a meta-line. Some meta-lines mention another
target, whose log is read at that place.
-/
namespace Redo.Logs
open Library Remote Cache Paths

/-- The text before the separator's first place, and the text behind it. -/
def splitOnce (sep : Text) : Text → Option (Text × Text)
  | [] => if sep = [] then some ([], []) else none
  | c :: t =>
    if sep.isPrefixOf (c :: t) then some ([], (c :: t).drop sep.length)
    else (splitOnce sep t).map fun p => (c :: p.1, p.2)

/-- `i32::from_str`. -/
def parseI32 (t : Text) : Option ℤ :=
  if t.head? = some '-' then
    if t.tail.head? = some '+' then none else (parseUnsigned 2147483649 t.tail).map fun n => -(n : ℤ)
  else (parseUnsigned 2147483648 t).map fun n => (n : ℤ)

def printInt (n : ℤ) : Text :=
  (if n < 0 then ['-'] else []) ++ Nat.toDigits 10 n.natAbs

structure MetaLine where
  kind : Text
  pid : ℕ
  msg : Text
deriving DecidableEq, Repr

/-- `@@REDO:kind:pid:ts@@ msg` -/
def parseRedoMetaLine (line : Text) : Option MetaLine :=
  if "@@REDO:".toList.isPrefixOf line then
    (splitOnce "@@ ".toList (line.drop "@@REDO:".toList.length)).map fun p =>
      let parts := p.1.splitOn ':'
      ⟨parts.headD [], (parts[1]?.bind (parseUnsigned 4294967296)).getD 0, p.2⟩
  else none

structure Ansi where
  green : Text
  red : Text
  yellow : Text
  bold : Text
  plain : Text
deriving DecidableEq, Repr

def ansiFor (wantColor : Bool) : Ansi :=
  if wantColor then
    ⟨"\x1b[32m".toList, "\x1b[31m".toList, "\x1b[33m".toList, "\x1b[1m".toList, "\x1b[m".toList⟩
  else ⟨[], [], [], [], []⟩

/-- The options of `redo-log` that change what it prints, and `REDO_DEBUG`. -/
structure Options where
  recursive : Bool
  unchanged : Bool
  pretty : Bool
  details : Bool
  debugPids : Bool
  debugLocks : Bool
  ansi : Ansi
  debug : ℕ
deriving DecidableEq, Repr

/-- What `redo-log` starts with before it looks at its arguments. -/
def noOptions (wantColor : Bool) (debug : ℕ) : Options where
  recursive := false
  unchanged := false
  pretty := true
  details := true
  debugPids := false
  debugLocks := false
  ansi := ansiFor wantColor
  debug := debug

namespace Options

def writePrettyLine (o : Options) (pid : ℕ) (color text : Text) : Text :=
  if o.debugPids then
    let digits := Nat.toDigits 10 pid
    color ++ digits ++ List.replicate (6 - digits.length) ' ' ++ " redo  ".toList ++ o.ansi.bold ++
      text ++ o.ansi.plain
  else color ++ "redo  ".toList ++ o.ansi.bold ++ text ++ o.ansi.plain

def cacheColor (o : Options) (kind : Text) : Text :=
  if kind ∈ ["cache_hit".toList, "cache_store".toList] then o.ansi.green
  else if kind ∈ ["cache_miss".toList, "cache_skip".toList] then o.ansi.yellow
  else []

end Options

/-! ## Names of targets -/

def normalizeComponent (n : List Text × Bool) : Component → List Text × Bool
  | .curDir => n
  | .parentDir =>
    if n.1 ≠ [] ∧ n.1.getLast? ≠ some ['.', '.'] then (n.1.dropLast, n.2)
    else if n.2 then n else (n.1 ++ [['.', '.']], n.2)
  | .rootDir => ([], true)
  | .normal s => (n.1 ++ [s], n.2)

/-- The lexical normal form of a name, under which `redo-log` notes it when its log is read. -/
def normalize (path : Text) : Text :=
  let n := (components path).foldl normalizeComponent ([], false)
  if n.2 then '/' :: ['/'].intercalate n.1 else ['/'].intercalate n.1

/-- What `std::path` passes over between the names of a path. -/
def idle (part : Text) : Bool := part = [] ∨ part = ['.']

/-- `Path::parent` with `unwrap_or("")`. The text stays as it is but for its end. -/
def directory (path : Text) : Text :=
  let parts := path.splitOn '/'
  let lead := if isAbsolute path ∨ parts.head? = some ['.'] then parts.take 1 else []
  let body := (parts.drop lead.length).rdropWhile idle
  if body = [] then []
  else
    let above := body.dropLast.rdropWhile idle
    if lead = [[]] ∧ above = [] then ['/'] else ['/'].intercalate (lead ++ above)

/-! ## What a line shows and mentions -/

def DO : Text := "do".toList

def UNCHANGED : Text := "unchanged".toList

def MENTIONS : List Text := [DO, "locked".toList, "waiting".toList, "unlocked".toList]

def CACHE_EVENTS : List Text :=
  ["cache_hit".toList, "cache_miss".toList, "cache_store".toList, "cache_skip".toList,
    "cache_stats".toList]

/-- The lines whose target's log is read in their place. -/
def MetaLine.mentions (m : MetaLine) (o : Options) : Bool :=
  m.kind ∈ MENTIONS ∨ m.kind = UNCHANGED ∧ o.unchanged

/-- `topdir` is the current directory. -/
def relname (p : Process) (path : Text) : Text := p.relpath (push p.cwd.path path) p.cwd.path

/-- What is printed for a meta-line in the log of a target in `mydir`. -/
def MetaLine.shown (m : MetaLine) (o : Options) (p : Process) (already : List Text)
    (mydir line : Text) : List Text :=
  let styled (color text : Text) : List Text :=
    if o.pretty then [o.writePrettyLine m.pid color text] else [line]
  if m.kind = "plan".toList then if o.pretty then [] else [line]
  else if m.kind ∈ CACHE_EVENTS then
    if o.pretty ∧ o.debug = 0 then []
    else styled (o.cacheColor m.kind) (m.kind ++ ' ' :: m.msg)
  else if m.kind = "done".toList then
    match splitOnce [' '] m.msg with
    | some (rv, name) =>
      let rv := (parseI32 rv).getD 0
      let relname := p.relpath (push (push p.cwd.path mydir) name) p.cwd.path
      if rv ≠ 0 then styled o.ansi.red (relname ++ " (exit ".toList ++ printInt rv ++ [')'])
      else styled o.ansi.green (relname ++ " (done)".toList)
    | none => styled o.ansi.green m.msg
  else if m.mentions o then
    let child := push mydir m.msg
    if o.pretty then
      if o.debugLocks ∧ m.kind ≠ DO then styled [] (m.kind ++ ' ' :: relname p child)
      else if normalize child ∉ already then styled o.ansi.green (relname p child)
      else []
    else [line]
  else if m.kind = UNCHANGED then []
  else if m.kind = "error".toList then styled o.ansi.red ("redo: ".toList ++ m.msg)
  else if m.kind = "warning".toList then styled o.ansi.yellow ("redo: ".toList ++ m.msg)
  else styled [] m.msg

def shown (o : Options) (p : Process) (already : List Text) (mydir line : Text) : List Text :=
  match parseRedoMetaLine line with
  | some m => m.shown o p already mydir line
  | none => if o.details then [line] else []

/-- The target that a line mentions, named as the log's own target is. -/
def child (o : Options) (mydir line : Text) : Option Text :=
  (parseRedoMetaLine line).bind fun m => if m.mentions o then some (push mydir m.msg) else none

end Redo.Logs
