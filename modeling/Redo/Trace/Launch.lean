import Redo.Trace.Complete

/-! # The tracer from its start on

The child asks to be traced and stops itself before its program is executed, while the tracer still
waits in `Command::spawn` for that very program: it reads from the pipe that the `execve` closes. Only
the tracer could let the child go on, so that the loop is never entered with a child that lives.
-/
namespace Redo.Trace
open Remote Cache Relation

/-- The child of `Command::spawn`, up to its program. -/
inductive Child where
  | forked
  /-- `PTRACE_TRACEME` is done. -/
  | traced
  /-- It has sent itself `SIGSTOP`, and stays where it is until the tracer lets it go on. -/
  | stopped
  | resumed
  /-- The program has taken over, and the pipe is closed. -/
  | executed
  /-- It has told an error through the pipe. -/
  | failed
  /-- The pipe is closed, too. -/
  | dead
deriving DecidableEq, Repr

/-- Where the tracer stands. -/
inductive Parent where
  | spawning
  /-- In `spawn`, at the pipe. -/
  | reading
  /-- At the first `waitpid`. -/
  | spawned
  | tracing
  /-- Before `run_env_scrubbed`. -/
  | erred
  | written (trace : List Text)
deriving DecidableEq, Repr

structure Session where
  parent : Parent
  child : Option Child
  world : World

namespace Session

/-- The tracer with a first marker. -/
def marked (w : World) (m : String) : World := { w with tracer := w.tracer.mark m }

inductive Step (pid : Pid) (cwd : Text) : Session → Session → Prop
  | fork {s : Session} (at_ : s.parent = .spawning) :
      Step pid cwd s { s with parent := .reading, child := some .forked }
  | forkFailed {s : Session} (at_ : s.parent = .spawning) : Step pid cwd s { s with parent := .erred }
  | traceme {s : Session} (at_ : s.child = some .forked) : Step pid cwd s { s with child := some .traced }
  | tracemeFailed {s : Session} (at_ : s.child = some .forked) :
      Step pid cwd s { s with child := some .failed }
  | sigstop {s : Session} (at_ : s.child = some .traced) : Step pid cwd s { s with child := some .stopped }
  | execve {s : Session} (at_ : s.child = some .resumed) : Step pid cwd s { s with child := some .executed }
  /-- From outside; neither the stop nor anything else keeps the child from it. -/
  | killed {s : Session} {c : Child} (at_ : s.child = some c) (untold : c ≠ .failed) :
      Step pid cwd s { s with child := some .dead }
  | spawnFailed {s : Session} (at_ : s.parent = .reading) (told : s.child = some .failed) :
      Step pid cwd s { s with parent := .erred }
  | spawned {s : Session} (at_ : s.parent = .reading)
      (closed : s.child = some .executed ∨ s.child = some .dead) :
      Step pid cwd s { s with parent := .spawned }
  | waitpidFailed {s : Session} (at_ : s.parent = .spawned) :
      Step pid cwd s { s with parent := .written ["TRACE_UNAVAILABLE:linux_waitpid:".toList] }
  /-- The first stop is seen, and the child goes on. -/
  | resume {s : Session} (at_ : s.parent = .spawned) (stops : s.child = some .stopped ∨ s.child = some .executed) :
      Step pid cwd s ⟨.tracing, some .resumed, .begin pid cwd⟩
  | resumeUntraced {s : Session} (at_ : s.parent = .spawned)
      (stops : s.child = some .stopped ∨ s.child = some .executed) :
      Step pid cwd s ⟨.tracing, some .resumed, marked (.begin pid cwd) "TRACE_UNAVAILABLE:linux_setoptions:"⟩
  /-- The first `waitpid` has yielded the death of the child, and `PTRACE_SETOPTIONS` finds nobody. -/
  | reaped {s : Session} (at_ : s.parent = .spawned) (gone : s.child = some .dead) :
      Step pid cwd s
        ⟨.tracing, some .dead, marked (.begin pid cwd) "TRACE_UNAVAILABLE:linux_setoptions:"⟩
  | follow {s : Session} {w : World} (at_ : s.parent = .tracing) (lives : s.child ≠ some .dead)
      (step : s.world.Step w) : Step pid cwd s { s with world := w }
  | noChild {s : Session} (at_ : s.parent = .tracing) :
      Step pid cwd s
        { s with parent := .written (marked s.world "TRACE_ERROR:waitpid:").tracer.trace }
  | finish {s : Session} (at_ : s.parent = .tracing) (none_ : ∀ p, s.world.tracer.procs p = none) :
      Step pid cwd s { s with parent := .written s.world.tracer.trace }
  /-- After an error the command is run without being traced, and may use anything. -/
  | runEnvScrubbed {s : Session} (used : List Text) (at_ : s.parent = .erred) :
      Step pid cwd s ⟨.written ["TRACE_UNAVAILABLE:linux_error:".toList], s.child, { s.world with used := used }⟩

def start (pid : Pid) (cwd : Text) : Session := ⟨.spawning, none, .begin pid cwd⟩

/-- A child that has not been let go, and a trace that says so. -/
structure Held (s : Session) : Prop where
  child : s.child ≠ some .resumed ∧ s.child ≠ some .executed
  before : s.parent = .spawning → s.child = none
  after : s.parent = .spawned ∨ s.parent = .tracing → s.child = some .dead
  broken : s.parent = .tracing → s.world.tracer.Broken
  written : ∀ out, s.parent = .written out → ∃ m ∈ out, (marker m).isSome

variable {pid : Pid} {cwd : Text} {s s' : Session}

theorem start_held : (start pid cwd).Held where
  child := ⟨nofun, nofun⟩
  before _ := rfl
  after h := by rcases h with h | h <;> cases h
  broken h := by cases h
  written _ h := by cases h

/-- What the child does before it is let go, and what is done to it. -/
theorem Held.goes (h : s.Held) {c c' : Child} (hc : s.child = some c) (hdead : c = .dead → c' = .dead)
    (hgone : c' ≠ .resumed ∧ c' ≠ .executed) : { s with child := some c' }.Held where
  child := by simpa using hgone
  before hp := by
    rw [h.before hp] at hc
    cases hc
  after hp := by
    rw [h.after hp] at hc
    rw [hdead (Option.some.inj hc).symm]
  broken := h.broken
  written := h.written

theorem Held.write (h : s.Held) {out : List Text} (hout : ∃ m ∈ out, (marker m).isSome) (w : World) :
    (⟨.written out, s.child, w⟩ : Session).Held where
  child := h.child
  before hp := by cases hp
  after hp := by rcases hp with hp | hp <;> cases hp
  broken hp := by cases hp
  written out' hp := by
    cases hp
    exact hout

theorem Step.held (hstep : Step pid cwd s s') (h : s.Held) : s'.Held := by
  have hnobody : s.parent = .spawned → ¬(s.child = some .stopped ∨ s.child = some .executed) := by
    intro hp hc
    rw [h.after (.inl hp)] at hc
    rcases hc with hc | hc <;> cases hc
  cases hstep with
  | fork at_ =>
    exact ⟨⟨nofun, nofun⟩, nofun, (by rintro (hp | hp) <;> cases hp), nofun, nofun⟩
  | forkFailed | spawnFailed =>
    exact ⟨h.child, nofun, (by rintro (hp | hp) <;> cases hp), nofun, nofun⟩
  | traceme at_ | tracemeFailed at_ | sigstop at_ => exact h.goes at_ nofun ⟨nofun, nofun⟩
  | execve at_ => exact absurd at_ h.child.1
  | killed at_ => exact h.goes at_ (fun _ => rfl) ⟨nofun, nofun⟩
  | spawned at_ closed =>
    have hdead : s.child = some .dead := closed.resolve_left h.child.2
    exact ⟨h.child, nofun, fun _ => hdead, nofun, nofun⟩
  | waitpidFailed at_ => exact h.write ⟨_, List.mem_singleton.mpr rfl, by decide⟩ _
  | resume at_ stops | resumeUntraced at_ stops => exact absurd stops (hnobody at_)
  | reaped at_ gone =>
    exact ⟨⟨nofun, nofun⟩, nofun, fun _ => rfl, fun _ => Tracer.mark_broken _ (by decide), nofun⟩
  | follow at_ lives step => exact absurd (h.after (.inr at_)) lives
  | noChild at_ => exact h.write (Tracer.Broken.trace (Tracer.mark_broken _ (by decide))) _
  | finish at_ => exact h.write ((h.broken at_).trace) _
  | runEnvScrubbed used at_ => exact h.write ⟨_, List.mem_singleton.mpr rfl, by decide⟩ _

theorem run_held (h : ReflTransGen (Step pid cwd) (start pid cwd) s) : s.Held := by
  induction h with
  | refl => exact start_held
  | tail _ hstep ih => exact hstep.held ih

/-- Nothing is executed under the tracer: who reads the pipe waits for a child that does not go on. -/
theorem never_resumed (h : ReflTransGen (Step pid cwd) (start pid cwd) s) :
    s.child ≠ some .resumed ∧ s.child ≠ some .executed := (run_held h).child

/-- The child is killed at its stop, and `spawn` returns. -/
def killedAtStop (pid : Pid) (cwd : Text) : Session :=
  ⟨.written (marked (marked (.begin pid cwd) "TRACE_UNAVAILABLE:linux_setoptions:")
    "TRACE_ERROR:waitpid:").tracer.trace, some .dead,
      marked (.begin pid cwd) "TRACE_UNAVAILABLE:linux_setoptions:"⟩

end Session
end Redo.Trace
