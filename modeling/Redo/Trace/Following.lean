import Redo.Trace.Tracer

/-! # What the tracer knows

The tracer knows where a process is as long as directories are changed to by their names and
one process at a time, and it sees the first program that a process executes; behind that
program it takes the ends of calls for their beginnings.
-/
namespace Redo.Trace
open Remote Cache

/-- Where the call matters, the tracer has read the name that the kernel reads. -/
def Call.Named (peek : Peeked) : Call → Prop
  | .chdir name => peek = some name
  | .execve name => peek = some name
  | .openFile false name => peek = some name
  | .openat _ false name => peek = some name
  | _ => True

namespace World

/-- What a call may do, so that the tracer keeps up. -/
def EffectFits (w : World) (pid : Pid) (p : Proc) : Call → Outcome → Prop
  | .chdir name, outcome =>
    let dir := match outcome with
      | .done dir => dir
      | _ => w.cwd p.dir
    dir = resolvePath (w.cwd p.dir) name ∧
      (dir = w.cwd p.dir ∨ ∀ other q, other ≠ pid → w.procs other = some q → q.dir ≠ p.dir)
  | .fchdir, .done dir => dir = w.cwd p.dir
  | .execve _, .done _ => p.execed = false
  | .execveat _, .done _ => False
  | .openat2 false _, .done _ => False
  | _, _ => True

/-- The tracer has been told of the process before its first call, and reads the right names
when it looks at them. -/
def Fits (w : World) : Event → Prop
  | .enter pid call regs => ∀ p, w.procs pid = some p → p.announced = true ∧
      (p.execed = false → ∀ peek, regs = some peek → call.Named peek)
  | .effect pid outcome => ∀ p call, w.procs pid = some p → p.phase = .entered call →
      w.EffectFits pid p call outcome
  | .leave pid regs => ∀ p call opened, w.procs pid = some p → p.phase = .finished call opened →
      p.execed = true → ∀ peek, regs = some peek → call.Named peek
  | _ => True

def StepFits (w w' : World) : Prop := ∃ e, w.next e = some w' ∧ w.Fits e

end World

/-- The directory that a call leads to, by names. -/
def Call.leads (cwd : Text) : Call → Text
  | .chdir name => resolvePath cwd name
  | _ => cwd

/-- The path that a call takes and the tracer takes down. -/
def Call.path (cwd : Text) : Call → Option Text
  | .execve name => some (resolvePath cwd name)
  | .openFile false name => some (resolvePath cwd name)
  | .openat _ false name => some (resolvePath cwd name)
  | _ => none

def Call.Plain : Call → Prop
  | .openat dirfd false _ => dirfd = atFdcwd
  | _ => True

/-- The trace says itself that it is not complete. -/
def Tracer.Broken (t : Tracer) : Prop := ∃ m ∈ t.traceMarkers, (marker m).isSome

/-- What the tracer knows of a process. -/
def Tracked (t : Tracer) (cwd : Text) (p : Proc) (ps : ProcState) : Prop :=
  match p.phase with
  | .user => ps.cwd = cwd ∧ ps.inSyscall = p.execed
  | .entered call => ps.inSyscall = !p.execed ∧
      if p.execed then ps.cwd = cwd
      else ps.cwd = call.leads cwd ∧ call.Plain ∧ ∀ path, call.path cwd = some path → path ∈ t.observed
  | .replaced path => ps.cwd = cwd ∧ p.execed = false ∧ path ∈ t.observed
  | .fresh => ps.cwd = cwd ∧ ps.inSyscall = false ∧ p.execed = true
  | .cloned _ _ => ps.cwd = cwd ∧ ps.inSyscall = !p.execed
  | .finished call opened => ps.inSyscall = !p.execed ∧
      if p.execed then cwd = call.leads ps.cwd ∧ ∀ path, opened = some path →
        call.Plain → call.path ps.cwd = some path
      else ps.cwd = cwd ∧ ∀ path, opened = some path → path ∈ t.observed

/-- What a call may do that fits. -/
inductive Effected (w : World) (pid : Pid) (p : Proc) : Call → World → Prop
  | finished {call : Call} {opened : Option Text} {dir : Text}
      (leads : dir = call.leads (w.cwd p.dir))
      (alone : dir = w.cwd p.dir ∨
        ∀ other q, other ≠ pid → w.procs other = some q → q.dir ≠ p.dir)
      (path : ∀ path, opened = some path → call.Plain → call.path (w.cwd p.dir) = some path) :
      Effected w pid p call { w.setPhase pid p (.finished call opened) with
        cwd := Function.update w.cwd p.dir dir }
  | replaced {name : Text} (first : p.execed = false) :
      Effected w pid p (.execve name) (w.setPhase pid p (.replaced (resolvePath (w.cwd p.dir) name)))
  | born {sharesDir : Bool} {child : Pid} {dir : ℕ} (new : w.procs child = none)
      (unannounced : w.pending child = false)
      (place : dir = if sharesDir then p.dir else w.nextDir) :
      Effected w pid p (.clone sharesDir) (w.bear pid p sharesDir child dir)

namespace Tracer

/-- What is taken down stays. -/
structure Grows (t t' : Tracer) : Prop where
  observed : ∀ path ∈ t.observed, path ∈ t'.observed
  traceMarkers : ∀ m ∈ t.traceMarkers, m ∈ t'.traceMarkers

theorem Grows.broken {t t' : Tracer} (h : t.Grows t') (ht : t.Broken) : t'.Broken := by
  obtain ⟨m, hm, hmarker⟩ := ht
  exact ⟨m, h.traceMarkers m hm, hmarker⟩

theorem Grows.trans {t t' t'' : Tracer} (h : t.Grows t') (h' : t'.Grows t'') : t.Grows t'' where
  observed path hp := h'.observed path (h.observed path hp)
  traceMarkers m hm := h'.traceMarkers m (h.traceMarkers m hm)

variable (t : Tracer) (pid : Pid)

theorem observe_grows (cwd : Text) (peek : Peeked) : t.Grows (t.observe cwd peek) := by
  cases peek with
  | none => exact ⟨fun _ h => h, fun _ h => h⟩
  | some s => exact ⟨fun _ h => List.mem_insert_of_mem h, fun _ h => h⟩

theorem mark_grows (m : String) : t.Grows (t.mark m) :=
  ⟨fun _ h => h, fun _ h => List.mem_insert_of_mem h⟩

theorem observeAt_grows (cwd : Text) (dirfd : UInt64) (m : String) (peek : Peeked) :
    t.Grows (t.observeAt cwd dirfd m peek) := by
  rw [observeAt]
  split
  · exact t.mark_grows m
  · exact t.observe_grows cwd peek

theorem entering_grows (call : Call) (peek : Peeked) : t.Grows (t.entering pid call peek) := by
  have hrefl : t.Grows t := ⟨fun _ h => h, fun _ h => h⟩
  cases call with
  | chdir name =>
    simp only [entering]
    split
    · exact ⟨fun _ h => h, fun _ h => h⟩
    · exact hrefl
  | execve => exact t.observe_grows _ _
  | openFile writeOnly =>
    cases writeOnly
    · exact t.observe_grows _ _
    · exact hrefl
  | openat dirfd writeOnly =>
    cases writeOnly
    · exact t.observeAt_grows _ _ _ _
    · exact hrefl
  | stat => exact t.observe_grows _ _
  | access => exact t.observe_grows _ _
  | newfstatat => exact t.observeAt_grows _ _ _ _
  | faccessat => exact t.observeAt_grows _ _ _ _
  | statx => exact t.observeAt_grows _ _ _ _
  | _ => exact hrefl

theorem syscallStop_grows (call : Call) (regs : Option Peeked) :
    t.Grows (t.syscallStop pid call regs) := by
  have hset : ∀ b, t.Grows (t.setInSyscall pid b) := fun b => ⟨fun _ h => h, fun _ h => h⟩
  simp only [syscallStop]
  split
  · cases regs with
    | none => exact (hset _).trans (mark_grows _ _)
    | some peek => exact (hset _).trans (entering_grows _ _ _ _)
  · exact hset _

theorem mark_broken {m : String} (h : (marker m.toList).isSome) : (t.mark m).Broken :=
  ⟨m.toList, List.mem_insert_self, h⟩

theorem observe_procs (cwd : Text) (peek : Peeked) : (t.observe cwd peek).procs = t.procs := by
  cases peek <;> rfl

theorem observeAt_procs (cwd : Text) (dirfd : UInt64) (m : String) (peek : Peeked) :
    (t.observeAt cwd dirfd m peek).procs = t.procs := by
  rw [observeAt]
  split
  · rfl
  · exact t.observe_procs cwd peek

theorem entering_others (call : Call) (peek : Peeked) {other : Pid} (h : other ≠ pid) :
    (t.entering pid call peek).procs other = t.procs other := by
  cases call with
  | chdir name =>
    simp only [entering]
    split
    · exact Function.update_of_ne h _ _
    · rfl
  | openFile writeOnly => cases writeOnly <;> simp [entering, observe_procs]
  | openat dirfd writeOnly => cases writeOnly <;> simp [entering, observeAt_procs]
  | _ => simp [entering, observe_procs, observeAt_procs]

theorem syscallStop_others (call : Call) (regs : Option Peeked) {other : Pid} (h : other ≠ pid) :
    (t.syscallStop pid call regs).procs other = t.procs other := by
  have hset : ∀ b, (t.setInSyscall pid b).procs other = t.procs other := fun b =>
    Function.update_of_ne h _ _
  simp only [syscallStop]
  split
  · cases regs with
    | none => exact hset _
    | some peek => rw [entering_others _ _ _ _ h, hset]
  · exact hset _

variable {t pid}

/-- A stop that is taken for the end of a call. -/
theorem syscallStop_end {ps : ProcState} (h : t.procs pid = some ps) (hin : ps.inSyscall = true)
    (call : Call) (regs : Option Peeked) :
    t.syscallStop pid call regs = t.setInSyscall pid false := by
  simp [syscallStop, h, hin]

/-- What is known behind a stop that is taken for the beginning of a call. -/
structure Begun (t : Tracer) (pid : Pid) (call : Call) (cwd : Text) : Prop where
  state : ∃ ps, t.procs pid = some ps ∧ ps.inSyscall = true ∧ ps.cwd = call.leads cwd
  plain : call.Plain
  path : ∀ path, call.path cwd = some path → path ∈ t.observed

theorem entering_begun {ps : ProcState} (h : t.procs pid = some ps) (hin : ps.inSyscall = true)
    {call : Call} {peek : Peeked} (hnamed : call.Named peek) :
    (t.entering pid call peek).Broken ∨ (t.entering pid call peek).Begun pid call ps.cwd := by
  have hsame : ∀ {t' : Tracer}, t'.procs = t.procs → call.leads ps.cwd = ps.cwd →
      ∃ ps', t'.procs pid = some ps' ∧ ps'.inSyscall = true ∧ ps'.cwd = call.leads ps.cwd := by
    intro t' ht' hleads
    rw [ht', hleads]
    exact ⟨ps, h, hin, rfl⟩
  cases call with
  | chdir name =>
    cases hnamed
    refine .inr ⟨⟨{ ps with cwd := resolvePath ps.cwd name }, ?_, hin, rfl⟩, trivial, ?_⟩
    · simp [entering, h]
    · intro path hpath
      cases hpath
  | execve name =>
    cases hnamed
    refine .inr ⟨hsame rfl rfl, trivial, ?_⟩
    intro path hpath
    cases hpath
    simp [entering, h, observe]
  | openFile writeOnly name =>
    cases writeOnly with
    | false =>
      cases hnamed
      refine .inr ⟨hsame rfl rfl, trivial, ?_⟩
      intro path hpath
      cases hpath
      simp [entering, h, observe]
    | true => exact .inr ⟨hsame rfl rfl, trivial, fun path hpath => by cases hpath⟩
  | openat dirfd writeOnly name =>
    cases writeOnly with
    | false =>
      cases hnamed
      by_cases hdirfd : dirfd = atFdcwd
      · refine .inr ⟨hsame (by simp [entering, observeAt_procs]) rfl, hdirfd, ?_⟩
        intro path hpath
        cases hpath
        simp [entering, h, observeAt, observe, hdirfd]
      · left
        simp only [entering, observeAt, if_pos hdirfd]
        exact t.mark_broken (by decide)
    | true => exact .inr ⟨hsame rfl rfl, trivial, fun path hpath => by cases hpath⟩
  | _ =>
    refine .inr ⟨hsame (by simp [entering, observe_procs, observeAt_procs]) rfl, trivial, ?_⟩
    intro path hpath
    cases hpath

theorem syscallStop_begun {ps : ProcState} (h : t.procs pid = some ps) (hin : ps.inSyscall = false)
    {call : Call} {regs : Option Peeked} (hnamed : ∀ peek, regs = some peek → call.Named peek) :
    (t.syscallStop pid call regs).Broken ∨ (t.syscallStop pid call regs).Begun pid call ps.cwd := by
  simp only [syscallStop, h, hin, Option.map_some, Bool.not_false, Option.getD_some, if_true]
  cases regs with
  | none => exact .inl (mark_broken _ (by decide))
  | some peek =>
    have hset : (t.setInSyscall pid true).procs pid = some { ps with inSyscall := true } := by
      simp [setInSyscall, h]
    exact entering_begun hset rfl (hnamed peek rfl)

/-- The last stop of an `execve`: the registers are empty. -/
theorem syscallStop_fresh {ps : ProcState} (h : t.procs pid = some ps) (hin : ps.inSyscall = false)
    (regs : Option Peeked) :
    (t.syscallStop pid (.execve []) (regs.map fun _ => none)).Broken ∨
      t.syscallStop pid (.execve []) (regs.map fun _ => none) = t.setInSyscall pid true := by
  simp only [syscallStop, h, hin, Option.map_some, Bool.not_false, Option.getD_some, if_true]
  cases regs with
  | none => exact .inl (mark_broken _ (by decide))
  | some peek => exact .inr rfl

end Tracer

theorem Tracked.mono {t t' : Tracer} (hgrows : ∀ path ∈ t.observed, path ∈ t'.observed) {cwd : Text}
    {p : Proc} {ps : ProcState} (h : Tracked t cwd p ps) : Tracked t' cwd p ps := by
  cases hphase : p.phase with
  | user => simpa only [Tracked, hphase] using h
  | entered call =>
    simp only [Tracked, hphase] at h ⊢
    refine ⟨h.1, ?_⟩
    cases hexeced : p.execed with
    | true => simpa [hexeced] using h.2
    | false =>
      obtain ⟨hcwd, hplain, hpath⟩ : ps.cwd = call.leads cwd ∧ call.Plain ∧
        ∀ path, call.path cwd = some path → path ∈ t.observed := by simpa [hexeced] using h.2
      exact ⟨hcwd, hplain, fun path hp => hgrows path (hpath path hp)⟩
  | replaced path =>
    simp only [Tracked, hphase] at h ⊢
    exact ⟨h.1, h.2.1, hgrows path h.2.2⟩
  | fresh => simpa only [Tracked, hphase] using h
  | cloned => simpa only [Tracked, hphase] using h
  | finished call opened =>
    simp only [Tracked, hphase] at h ⊢
    refine ⟨h.1, ?_⟩
    cases hexeced : p.execed with
    | true => simpa [hexeced] using h.2
    | false =>
      obtain ⟨hcwd, hpath⟩ : ps.cwd = cwd ∧ ∀ path, opened = some path → path ∈ t.observed := by
        simpa [hexeced] using h.2
      exact ⟨hcwd, fun path hp => hgrows path (hpath path hp)⟩

variable {w w' : World} {pid : Pid} {p : Proc}

/-- A call that leaves the directory and opens what its path says, if anything. -/
theorem Effected.stays {call : Call} {opened : Option Text} (hleads : call.leads (w.cwd p.dir) = w.cwd p.dir)
    (hpath : ∀ path, opened = some path → call.Plain → call.path (w.cwd p.dir) = some path) :
    Effected w pid p call (w.setPhase pid p (.finished call opened)) := by
  have h : Effected w pid p call { w.setPhase pid p (.finished call opened) with
      cwd := Function.update w.cwd p.dir (w.cwd p.dir) } :=
    .finished hleads.symm (.inl rfl) hpath
  rwa [Function.update_eq_self] at h

theorem failed_effected {call : Call} (h : w.effect pid p call .failed = some w')
    (hfits : w.EffectFits pid p call .failed) : Effected w pid p call w' := by
  have hleads : call.leads (w.cwd p.dir) = w.cwd p.dir := by
    cases call with
    | chdir name => exact hfits.1.symm
    | _ => rfl
  have hw : w' = w.setPhase pid p (.finished call none) := by
    cases call <;> exact (Option.some.inj h).symm
  rw [hw]
  exact .stays hleads fun path hopened => by cases hopened

theorem born_effected {call : Call} {child : Pid} (h : w.effect pid p call (.born child) = some w') :
    Effected w pid p call w' := by
  cases call with
  | clone sharesDir =>
    simp only [World.effect] at h
    split at h
    · rename_i hnew
      simp only [Bool.and_eq_true, Option.isNone_iff_eq_none, Bool.not_eq_true'] at hnew
      cases h
      exact .born hnew.1 hnew.2 rfl
    · cases h
  | _ => cases h

theorem done_effected {call : Call} {dir : Text} (h : w.effect pid p call (.done dir) = some w')
    (hfits : w.EffectFits pid p call (.done dir)) : Effected w pid p call w' := by
  cases call with
  | chdir name =>
    cases h
    exact .finished hfits.1 hfits.2 fun path hopened => by cases hopened
  | fchdir =>
    cases h
    exact .finished hfits (.inl hfits) fun path hopened => by cases hopened
  | execve name =>
    cases h
    exact .replaced hfits
  | execveat name => exact hfits.elim
  | openFile writeOnly name =>
    cases h
    refine .stays rfl fun path hopened hplain => ?_
    cases writeOnly with
    | false => exact hopened
    | true => cases hopened
  | openat dirfd writeOnly name =>
    cases h
    refine .stays rfl fun path hopened hplain => ?_
    cases writeOnly with
    | false =>
      cases hplain
      exact hopened
    | true => cases hopened
  | openat2 writeOnly name =>
    cases h
    refine .stays rfl fun path hopened hplain => ?_
    cases writeOnly with
    | false => exact hfits.elim
    | true => cases hopened
  | clone sharesDir => cases h
  | _ =>
    cases h
    exact .stays rfl fun path hopened => by cases hopened

theorem effect_effected {call : Call} {outcome : Outcome} (h : w.effect pid p call outcome = some w')
    (hfits : w.EffectFits pid p call outcome) : Effected w pid p call w' := by
  cases outcome with
  | failed => exact failed_effected h hfits
  | done dir => exact done_effected h hfits
  | born child => exact born_effected h

theorem Effected.tracer {call : Call} (h : Effected w pid p call w') : w'.tracer = w.tracer := by
  cases h <;> rfl

end Redo.Trace
