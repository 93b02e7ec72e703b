import Mathlib.Logic.Function.Basic
import Mathlib.Logic.Relation
import Redo.Library.Utf8
import Redo.Logs.Lines

/-! # Following a log

`redo-log -f` reads a log while it is written. At the end of the file it looks whether the target's
lock is held: if so it waits and reads on, if not it returns. Between the two looks the build goes on.
-/
namespace Redo.Logs
open Library Remote Cache Paths Relation

/-- The lock of the target: before its build, in it, and behind it. -/
inductive Lock where
  | ahead
  | held
  | released
deriving DecidableEq, Repr

/-- What the build and a follower share. `log` is the file that the log's name leads to, `stderr`
the one that the build writes to. -/
structure Target where
  disk : ℕ → List UInt8
  used : ℕ
  log : Option ℕ
  stderr : Option ℕ
  lock : Lock

namespace Target

def content (t : Target) : List UInt8 := (t.log.map t.disk).getD []

def acquire (t : Target) : Option Target :=
  if t.lock = .ahead then some { t with lock := .held } else none

/-- An empty file is renamed to the log's name and becomes the `stderr` of the script. -/
def rename (t : Target) : Option Target :=
  if t.lock = .held ∧ t.stderr = none then
    some { t with
      disk := Function.update t.disk t.used []
      used := t.used + 1
      log := some t.used
      stderr := some t.used }
  else none

def write (t : Target) (chunk : List UInt8) : Option Target :=
  t.stderr.bind fun i =>
    if t.lock = .held then some { t with disk := Function.update t.disk i (t.disk i ++ chunk) }
    else none

def release (t : Target) : Option Target :=
  if t.lock = .held then some { t with lock := .released } else none

end Target

/-- Where `catlog` stands: before `File::open`, before `is_locked` after a failed one, in `read_line`,
before `is_locked` at the end of the file, in the log of another target, or behind its end. -/
inductive Phase where
  | opening
  | unopened
  | reading
  | ended
  | recursing
  | returned
  | failed
deriving DecidableEq, Repr

/-- `pos` and `buffer` belong to the reader, `buf` to the call of `read_line`. -/
structure Follower where
  phase : Phase := .opening
  sawLocked : Bool := false
  file : ℕ := 0
  pos : ℕ := 0
  buffer : List UInt8 := []
  buf : List UInt8 := []
  lineHead : Text := []
  lines : List Text := []
deriving DecidableEq, Repr

/-- The call of `catlog`: the options, the target's directory, and whether `top_arg` is `-`. -/
structure Call where
  options : Options
  mydir : Text
  stdinMode : Bool
deriving DecidableEq, Repr

def READER_SIZE : ℕ := 8192

namespace Follower

def openLog (f : Follower) (t : Target) : Option Follower :=
  if f.phase = .opening then
    match t.log with
    | some i => some { f with phase := .reading, file := i }
    | none => some { f with phase := .unopened }
  else none

/-- `is_locked`. `graceOver` says whether three seconds have passed. -/
def probe (f : Follower) (c : Call) (t : Target) (graceOver : Bool) : Option Follower :=
  let again : Option Phase := match f.phase with
    | .unopened => some .opening
    | .ended => some .reading
    | _ => none
  again.map fun phase =>
    if t.lock = .held then { f with phase := phase, sawLocked := true }
    else if !c.stdinMode && !f.sawLocked && !graceOver then { f with phase := phase }
    else { f with phase := .returned }

/-- `read_line` has come to the end of the file. -/
def endOfFile (f : Follower) : Follower :=
  if f.buf = [] then { f with phase := .ended }
  else
    match decode f.buf with
    | none => { f with phase := .failed }
    | some text => { f with lineHead := f.lineHead ++ text, buf := [] }

/-- `read(2)` for an empty buffer. It may give less than there is. -/
def fill (f : Follower) (t : Target) (n : ℕ) : Option Follower :=
  if f.phase = .reading ∧ f.buffer = [] ∧ n < READER_SIZE then
    let rest := (t.disk f.file).drop f.pos
    if rest = [] then some f.endOfFile
    else some { f with
      buffer := rest.take (n + 1)
      pos := f.pos + (rest.take (n + 1)).length }
  else none

/-- `read_line` has come to a newline. -/
def wholeLine (f : Follower) (c : Call) : Follower :=
  match decode f.buf with
  | none => { f with phase := .failed }
  | some text =>
    let line := (f.lineHead ++ text).rdropWhile (· = '\n')
    { f with
      phase := if c.options.recursive ∧ (child c.options c.mydir line).isSome then .recursing else .reading
      buf := []
      lineHead := []
      lines := f.lines ++ [line] }

/-- `read_line` takes from the buffer what it has of the line. -/
def scan (f : Follower) (c : Call) : Option Follower :=
  if f.phase = .reading ∧ f.buffer ≠ [] then
    let cut := cutLine f.buffer
    let f' := { f with buf := f.buf ++ cut.1, buffer := cut.2 }
    some (if NEWLINE ∈ f.buffer then f'.wholeLine c else f')
  else none

/-- The recursive call is over. An error goes on to the caller, an exit ends the process. -/
def resume (f : Follower) (ok : Bool) : Option Follower :=
  if f.phase = .recursing then some { f with phase := if ok then .reading else .failed } else none

end Follower

inductive Event where
  | acquire
  | rename
  | write (chunk : List UInt8)
  | release
  | openLog
  | probe (graceOver : Bool)
  | fill (n : ℕ)
  | scan
  | resume (ok : Bool)
deriving DecidableEq, Repr

structure Situation where
  target : Target
  follower : Follower := {}

def Situation.step (c : Call) (s : Situation) : Event → Option Situation
  | .acquire => s.target.acquire.map fun t => { s with target := t }
  | .rename => s.target.rename.map fun t => { s with target := t }
  | .write chunk => (s.target.write chunk).map fun t => { s with target := t }
  | .release => s.target.release.map fun t => { s with target := t }
  | .openLog => (s.follower.openLog s.target).map fun f => { s with follower := f }
  | .probe graceOver => (s.follower.probe c s.target graceOver).map fun f => { s with follower := f }
  | .fill n => (s.follower.fill s.target n).map fun f => { s with follower := f }
  | .scan => (s.follower.scan c).map fun f => { s with follower := f }
  | .resume ok => (s.follower.resume ok).map fun f => { s with follower := f }

/-- A step that has `P` before it. -/
def Situation.Moved (c : Call) (P : Situation → Event → Prop) (s s' : Situation) : Prop :=
  ∃ e, P s e ∧ s.step c e = some s'

namespace Phase

/-- The log is open. -/
def isActive : Phase → Bool
  | .reading | .ended | .recursing => true
  | _ => false

def isOver : Phase → Bool
  | .returned | .failed => true
  | _ => false

end Phase

variable {c : Call} {s s' : Situation} {t : Target} {f f' : Follower} {e : Event}

/-! ## The follower's end -/

/-- A bound on the steps that are left once the lock is free. -/
def Follower.work (f : Follower) (t : Target) : ℕ :=
  let bytes (unread : ℕ) := 4 * unread + 3 * f.buffer.length + f.buf.length
  let rest := (t.disk f.file).length - f.pos
  match f.phase with
  | .opening => bytes t.content.length + 4
  | .recursing => bytes rest + 3
  | .reading => bytes rest + 2
  | .ended | .unopened => 1
  | .returned | .failed => 0

def Event.byFollower : Event → Bool
  | .openLog | .probe _ | .fill _ | .scan | .resume _ => true
  | _ => false

theorem Follower.openLog_work (h : f.openLog t = some f') : f'.work t < f.work t := by
  unfold Follower.openLog at h
  split_ifs at h with hphase
  split at h
  · next i hlog =>
    cases h
    simp only [Follower.work, hphase, Target.content, hlog, Option.map_some, Option.getD_some]
    omega
  · cases h
    simp only [Follower.work, hphase]
    omega

theorem Follower.probe_work {graceOver : Bool} (hlock : t.lock ≠ .held)
    (htold : f.sawLocked = true ∨ c.stdinMode = true) (h : f.probe c t graceOver = some f') :
    f'.work t < f.work t := by
  unfold Follower.probe at h
  obtain ⟨phase, hphase, h⟩ := Option.map_eq_some_iff.mp h
  rw [if_neg hlock] at h
  have hgrace : ¬(!c.stdinMode && !f.sawLocked && !graceOver) = true := by
    rcases htold with hsaw | hstdin
    · simp [hsaw]
    · simp [hstdin]
  rw [if_neg hgrace] at h
  cases h
  split at hphase
  · next hbefore => simp [Follower.work, hbefore]
  · next hbefore => simp [Follower.work, hbefore]
  · cases hphase

theorem Follower.fill_work {n : ℕ} (h : f.fill t n = some f') : f'.work t < f.work t := by
  unfold Follower.fill at h
  split_ifs at h with hready
  obtain ⟨hphase, hbuffer, _⟩ := hready
  dsimp only at h
  split_ifs at h with hrest
  · cases h
    unfold Follower.endOfFile
    split_ifs with hbuf
    · simp only [Follower.work, hphase]
      omega
    · have hpos := List.length_pos_iff.mpr hbuf
      split
      · simp only [Follower.work, hphase]
        omega
      · simp only [Follower.work, hphase, List.length_nil]
        omega
  · cases h
    have hsome := List.length_pos_iff.mpr hrest
    rw [List.length_drop] at hsome
    simp only [Follower.work, hphase, hbuffer, List.length_take, List.length_drop, List.length_nil]
    omega

theorem Follower.wholeLine_work (f : Follower) (t : Target) (c : Call) :
    (f.wholeLine c).work t ≤ 4 * ((t.disk f.file).length - f.pos) + 3 * f.buffer.length + 3 := by
  unfold Follower.wholeLine
  split
  · exact Nat.zero_le _
  · next text _ =>
    by_cases hrec : c.options.recursive = true ∧ (child c.options c.mydir
        ((f.lineHead ++ text).rdropWhile (· = '\n'))).isSome = true
    · simp only [Follower.work, if_pos hrec, List.length_nil]
      omega
    · simp only [Follower.work, if_neg hrec, List.length_nil]
      omega

theorem Follower.scan_work (h : f.scan c = some f') : f'.work t < f.work t := by
  unfold Follower.scan at h
  split_ifs at h with hready hnewline
  · cases h
    obtain ⟨line, rest, _, hbuffer, hcut⟩ := cutLine_of_mem hnewline
    have hwhole := Follower.wholeLine_work
      { f with buf := f.buf ++ (line ++ [NEWLINE]), buffer := rest } t c
    rw [hcut]
    refine hwhole.trans_lt ?_
    simp only [Follower.work, hready.1, hbuffer, List.length_append, List.length_cons]
    omega
  · cases h
    have hpos := List.length_pos_iff.mpr hready.2
    simp only [Follower.work, hready.1, cutLine_whole hnewline, List.length_append, List.length_nil]
    omega

theorem Follower.resume_work {ok : Bool} (h : f.resume ok = some f') : f'.work t < f.work t := by
  unfold Follower.resume at h
  split_ifs at h with hphase hok
  · cases h
    simp only [Follower.work, hphase]
    omega
  · cases h
    simp only [Follower.work, hphase]
    omega

/-- While the lock is free every step of a follower that was told to wait for it brings it nearer to
its end. -/
theorem Situation.step_work (hlock : s.target.lock ≠ .held)
    (htold : s.follower.sawLocked = true ∨ c.stdinMode = true) (he : e.byFollower = true)
    (hstep : s.step c e = some s') :
    s'.target = s.target ∧ s'.follower.work s.target < s.follower.work s.target := by
  cases e with
  | openLog =>
    obtain ⟨f, hf, rfl⟩ := Option.map_eq_some_iff.mp hstep
    exact ⟨rfl, Follower.openLog_work hf⟩
  | probe graceOver =>
    obtain ⟨f, hf, rfl⟩ := Option.map_eq_some_iff.mp hstep
    exact ⟨rfl, Follower.probe_work hlock htold hf⟩
  | fill n =>
    obtain ⟨f, hf, rfl⟩ := Option.map_eq_some_iff.mp hstep
    exact ⟨rfl, Follower.fill_work hf⟩
  | scan =>
    obtain ⟨f, hf, rfl⟩ := Option.map_eq_some_iff.mp hstep
    exact ⟨rfl, Follower.scan_work hf⟩
  | resume ok =>
    obtain ⟨f, hf, rfl⟩ := Option.map_eq_some_iff.mp hstep
    exact ⟨rfl, Follower.resume_work hf⟩
  | acquire => cases he
  | rename => cases he
  | write chunk => cases he
  | release => cases he

theorem Follower.fill_saw {n : ℕ} (h : f.fill t n = some f') : f'.sawLocked = f.sawLocked := by
  unfold Follower.fill at h
  split_ifs at h with hready
  dsimp only at h
  split_ifs at h with hrest
  · cases h
    unfold Follower.endOfFile
    split_ifs
    · rfl
    · split <;> rfl
  · cases h
    rfl

theorem Follower.scan_saw (h : f.scan c = some f') : f'.sawLocked = f.sawLocked := by
  unfold Follower.scan at h
  split_ifs at h
  · cases h
    unfold Follower.wholeLine
    split <;> rfl
  · cases h
    rfl

/-- A follower that is not at its end can go on. -/
theorem Situation.exists_step (hover : s.follower.phase.isOver = false) (hlock : s.target.lock ≠ .held) :
    ∃ e s', e.byFollower = true ∧ s.step c e = some s' ∧
      s'.follower.sawLocked = s.follower.sawLocked := by
  have hprobe (h : s.follower.phase = .unopened ∨ s.follower.phase = .ended) :
      s.follower.probe c s.target true = some { s.follower with phase := .returned } := by
    rcases h with hphase | hphase
    all_goals simp [Follower.probe, hphase, hlock]
  cases hphase : s.follower.phase with
  | opening =>
    cases hlog : s.target.log with
    | none =>
      have hopen : s.follower.openLog s.target = some { s.follower with phase := .unopened } := by
        rw [Follower.openLog, if_pos hphase, hlog]
      exact ⟨.openLog, _, rfl, Option.map_eq_some_iff.mpr ⟨_, hopen, rfl⟩, rfl⟩
    | some i =>
      have hopen : s.follower.openLog s.target =
          some { s.follower with phase := .reading, file := i } := by
        rw [Follower.openLog, if_pos hphase, hlog]
      exact ⟨.openLog, _, rfl, Option.map_eq_some_iff.mpr ⟨_, hopen, rfl⟩, rfl⟩
  | unopened =>
    exact ⟨.probe true, _, rfl, Option.map_eq_some_iff.mpr ⟨_, hprobe (.inl hphase), rfl⟩, rfl⟩
  | ended =>
    exact ⟨.probe true, _, rfl, Option.map_eq_some_iff.mpr ⟨_, hprobe (.inr hphase), rfl⟩, rfl⟩
  | reading =>
    by_cases hbuffer : s.follower.buffer = []
    · have hfill : ∃ f, s.follower.fill s.target 0 = some f := by
        rw [Follower.fill, if_pos ⟨hphase, hbuffer, by decide⟩]
        dsimp only
        split_ifs
        · exact ⟨_, rfl⟩
        · exact ⟨_, rfl⟩
      obtain ⟨f, hf⟩ := hfill
      exact ⟨.fill 0, _, rfl, Option.map_eq_some_iff.mpr ⟨f, hf, rfl⟩, Follower.fill_saw hf⟩
    · have hscan : s.follower.scan c = some _ := if_pos ⟨hphase, hbuffer⟩
      exact ⟨.scan, _, rfl, Option.map_eq_some_iff.mpr ⟨_, hscan, rfl⟩, Follower.scan_saw hscan⟩
  | recursing =>
    have hresume : s.follower.resume true = some { s.follower with phase := .reading } := by
      rw [Follower.resume, if_pos hphase, if_pos rfl]
    exact ⟨.resume true, _, rfl, Option.map_eq_some_iff.mpr ⟨_, hresume, rfl⟩, rfl⟩
  | returned =>
    rw [hphase] at hover
    cases hover
  | failed =>
    rw [hphase] at hover
    cases hover

/-- Once the lock is free a follower that was told to wait for it comes to its end by itself. -/
theorem follower_ends (hlock : s.target.lock ≠ .held)
    (htold : s.follower.sawLocked = true ∨ c.stdinMode = true) :
    ∃ s', ReflTransGen (Situation.Moved c fun _ e => e.byFollower = true) s s' ∧
      s'.follower.phase.isOver = true ∧ s'.target = s.target := by
  induction hwork : s.follower.work s.target using Nat.strong_induction_on generalizing s with
  | _ n ih =>
    by_cases hover : s.follower.phase.isOver = true
    · exact ⟨s, .refl, hover, rfl⟩
    · rw [Bool.not_eq_true] at hover
      obtain ⟨e, s₁, he, hstep, hsaw⟩ := Situation.exists_step (c := c) hover hlock
      obtain ⟨htarget, hless⟩ := Situation.step_work hlock htold he hstep
      obtain ⟨s', hrun, hend, hsame⟩ := ih _ (hwork ▸ hless) (by rwa [htarget]) (by rwa [hsaw]) (by rw [htarget])
      exact ⟨s', hrun.head ⟨e, he, hstep⟩, hend, hsame.trans htarget⟩

end Redo.Logs
