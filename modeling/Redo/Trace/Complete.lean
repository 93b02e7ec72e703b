import Redo.Library.Relations
import Redo.Trace.Following

/-! # When the loop of the tracer misses nothing

Each event that fits keeps the tracer in step with all processes, so that in a run of such
events all that has been used has been taken down.
-/
namespace Redo.Trace
open Remote Cache Relation

/-- The invariant as long as the trace has no marker. -/
structure Sim (w : World) : Prop where
  tracked : ∀ pid p, w.procs pid = some p → p.announced = true →
    ∃ ps, w.tracer.procs pid = some ps ∧ Tracked w.tracer (w.cwd p.dir) p ps
  waiting : ∀ pid p, w.procs pid = some p → p.announced = false → p.phase = .user ∧ p.execed = false
  births : ∀ pid p sharesDir child, w.procs pid = some p → p.phase = .cloned sharesDir child →
    w.pending child = true ∧
      ∀ q, w.procs child = some q → q.announced = false ∧ w.cwd q.dir = w.cwd p.dir
  parents : ∀ pid pid' p p' sharesDir sharesDir' child, w.procs pid = some p →
    w.procs pid' = some p' → p.phase = .cloned sharesDir child →
    p'.phase = .cloned sharesDir' child → pid = pid'
  dirs : ∀ pid p, w.procs pid = some p → p.dir < w.nextDir
  used : ∀ path ∈ w.used, path ∈ w.tracer.observed

/-- One process moves on, and nothing changes for the others. -/
structure Moves (w w' : World) (pid : Pid) (p p' : Proc) : Prop where
  procs : w'.procs = Function.update w.procs pid (some p')
  dir : p'.dir = p.dir
  announced : p'.announced = p.announced
  cwd : ∀ other q, other ≠ pid → w.procs other = some q → w'.cwd q.dir = w.cwd q.dir
  nextDir : w'.nextDir = w.nextDir
  pending : w'.pending = w.pending
  others : ∀ other, other ≠ pid → w'.tracer.procs other = w.tracer.procs other
  observed : ∀ path ∈ w.tracer.observed, path ∈ w'.tracer.observed

variable {w w' : World} {pid : Pid} {p p' : Proc}

/-- A process that is in a call has been announced. -/
theorem Sim.announced (hs : Sim w) (hp : w.procs pid = some p) (h : p.phase ≠ .user) :
    p.announced = true := by
  by_contra hnot
  exact h (hs.waiting pid p hp (by simpa using hnot)).1

theorem Sim.moves (hs : Sim w) (hp : w.procs pid = some p) (hannounced : p.announced = true)
    (hmoves : Moves w w' pid p p') (hcloned : ∀ sharesDir child, p'.phase ≠ .cloned sharesDir child)
    (hused : ∀ path ∈ w'.used, path ∈ w'.tracer.observed)
    (htracked : ∃ ps, w'.tracer.procs pid = some ps ∧ Tracked w'.tracer (w'.cwd p.dir) p' ps) :
    Sim w' := by
  have hself : w'.procs pid = some p' := by rw [hmoves.procs, Function.update_self]
  have hother : ∀ {other}, other ≠ pid → w'.procs other = w.procs other := by
    intro other hne
    rw [hmoves.procs, Function.update_of_ne hne]
  refine ⟨?_, ?_, ?_, ?_, ?_, hused⟩
  · intro other q hq hann
    by_cases hne : other = pid
    · subst hne
      rw [hself] at hq
      cases hq
      rw [hmoves.dir]
      exact htracked
    · rw [hother hne] at hq
      obtain ⟨ps, hps, htr⟩ := hs.tracked other q hq hann
      refine ⟨ps, by rw [hmoves.others other hne, hps], ?_⟩
      rw [hmoves.cwd other q hne hq]
      exact htr.mono hmoves.observed
  · intro other q hq hann
    by_cases hne : other = pid
    · subst hne
      rw [hself] at hq
      cases hq
      rw [hmoves.announced, hannounced] at hann
      cases hann
    · rw [hother hne] at hq
      exact hs.waiting other q hq hann
  · intro other q sharesDir child hq hphase
    have hne : other ≠ pid := by
      rintro rfl
      rw [hself] at hq
      cases hq
      exact hcloned _ _ hphase
    rw [hother hne] at hq
    obtain ⟨hpending, hchild⟩ := hs.births other q sharesDir child hq hphase
    refine ⟨by rw [hmoves.pending, hpending], ?_⟩
    intro r hr
    have hchildne : child ≠ pid := by
      rintro rfl
      rw [(hchild p hp).1] at hannounced
      cases hannounced
    rw [hother hchildne] at hr
    rw [hmoves.cwd other q hne hq, hmoves.cwd child r hchildne hr]
    exact hchild r hr
  · intro a b q r sharesDir sharesDir' child hq hr hqphase hrphase
    have hne : ∀ {other q sharesDir}, w'.procs other = some q → q.phase = .cloned sharesDir child →
        other ≠ pid := by
      rintro other q sharesDir hq hphase rfl
      rw [hself] at hq
      cases hq
      exact hcloned _ _ hphase
    rw [hother (hne hq hqphase)] at hq
    rw [hother (hne hr hrphase)] at hr
    exact hs.parents a b q r sharesDir sharesDir' child hq hr hqphase hrphase
  · intro other q hq
    rw [hmoves.nextDir]
    by_cases hne : other = pid
    · subst hne
      rw [hself] at hq
      cases hq
      rw [hmoves.dir]
      exact hs.dirs other p hp
    · rw [hother hne] at hq
      exact hs.dirs other q hq

theorem setPhase_moves (phase : Phase) : Moves w (w.setPhase pid p phase) pid p { p with phase := phase } where
  procs := rfl
  dir := rfl
  announced := rfl
  cwd _ _ _ _ := rfl
  nextDir := rfl
  pending := rfl
  others _ _ := rfl
  observed _ h := h

variable (w pid p) in
/-- A stop at a system call of a process. -/
theorem stop_moves (phase : Phase) (call : Call) (regs : Option Peeked) (used : List Text) :
    Moves w { w.setPhase pid p phase with
      tracer := w.tracer.syscallStop pid call regs
      used := used } pid p { p with phase := phase } :=
  { setPhase_moves phase with
    others := fun _ hne => Tracer.syscallStop_others _ _ _ _ hne
    observed := (Tracer.syscallStop_grows _ _ _ _).observed }

theorem Sim.enter (hs : Sim w) (hp : w.procs pid = some p) (hphase : p.phase = .user) {call : Call}
    {regs : Option Peeked} (hannounced : p.announced = true)
    (hnamed : p.execed = false → ∀ peek, regs = some peek → call.Named peek) :
    (w.tracer.syscallStop pid call regs).Broken ∨
      Sim { w.setPhase pid p (.entered call) with tracer := w.tracer.syscallStop pid call regs } := by
  obtain ⟨ps, hps, htr⟩ := hs.tracked pid p hp hannounced
  obtain ⟨hcwd, hin⟩ : ps.cwd = w.cwd p.dir ∧ ps.inSyscall = p.execed := by
    simpa only [Tracked, hphase] using htr
  have hmoves := stop_moves w pid p (.entered call) call regs w.used
  have hused : ∀ path ∈ w.used, path ∈ (w.tracer.syscallStop pid call regs).observed :=
    fun path hpath => hmoves.observed path (hs.used path hpath)
  cases hexeced : p.execed with
  | true =>
    right
    refine hs.moves hp hannounced hmoves (fun _ _ h => by cases h) hused ?_
    rw [hexeced] at hin
    refine ⟨{ ps with inSyscall := false }, ?_, ?_⟩
    · simp [Tracer.syscallStop_end hps hin, Tracer.setInSyscall, hps]
    · simp [Tracked, hexeced, hcwd, World.setPhase]
  | false =>
    rw [hexeced] at hin
    rcases Tracer.syscallStop_begun hps hin (hnamed hexeced) with hbroken | hbegun
    · exact .inl hbroken
    · right
      refine hs.moves hp hannounced hmoves (fun _ _ h => by cases h) hused ?_
      obtain ⟨ps', hps', hin', hcwd'⟩ := hbegun.state
      have hpath := hbegun.path
      rw [hcwd] at hcwd' hpath
      refine ⟨ps', hps', ?_⟩
      simp only [Tracked, hexeced, hin', Bool.not_false, true_and, Bool.false_eq_true, if_false]
      exact ⟨hcwd', hbegun.plain, hpath⟩

theorem Sim.finished (hs : Sim w) (hp : w.procs pid = some p) {call : Call}
    (hphase : p.phase = .entered call) {opened : Option Text} {dir : Text}
    (hleads : dir = call.leads (w.cwd p.dir))
    (halone : dir = w.cwd p.dir ∨ ∀ other q, other ≠ pid → w.procs other = some q → q.dir ≠ p.dir)
    (hpath : ∀ path, opened = some path → call.Plain → call.path (w.cwd p.dir) = some path) :
    Sim { w.setPhase pid p (.finished call opened) with
      cwd := Function.update w.cwd p.dir dir } := by
  have hannounced : p.announced = true := hs.announced hp (by simp [hphase])
  obtain ⟨ps, hps, htr⟩ := hs.tracked pid p hp hannounced
  simp only [Tracked, hphase] at htr
  obtain ⟨hin, hcwd⟩ := htr
  have hmoves : Moves w { w.setPhase pid p (.finished call opened) with
      cwd := Function.update w.cwd p.dir dir } pid p { p with phase := .finished call opened } := by
    refine { setPhase_moves _ with cwd := fun other q hne hq => ?_ }
    rcases halone with hsame | halone
    · rw [hsame, Function.update_eq_self]
    · exact Function.update_of_ne (halone other q hne hq) _ _
  refine hs.moves hp hannounced hmoves (fun _ _ h => by cases h) hs.used ⟨ps, hps, ?_⟩
  simp only [Tracked, Function.update_self]
  refine ⟨hin, ?_⟩
  cases hexeced : p.execed with
  | true =>
    simp only [hexeced, if_true] at hcwd ⊢
    rw [hcwd]
    exact ⟨hleads, hpath⟩
  | false =>
    simp only [hexeced, Bool.false_eq_true, if_false] at hcwd ⊢
    obtain ⟨hps, hplain, hobserved⟩ := hcwd
    exact ⟨hps.trans hleads.symm, fun path hopened => hobserved path (hpath path hopened hplain)⟩

theorem Sim.replaced (hs : Sim w) (hp : w.procs pid = some p) {name : Text}
    (hphase : p.phase = .entered (.execve name)) (hfirst : p.execed = false) :
    Sim (w.setPhase pid p (.replaced (resolvePath (w.cwd p.dir) name))) := by
  have hannounced : p.announced = true := hs.announced hp (by simp [hphase])
  obtain ⟨ps, hps, htr⟩ := hs.tracked pid p hp hannounced
  simp only [Tracked, hphase, hfirst, Bool.false_eq_true, if_false] at htr
  obtain ⟨-, hcwd, -, hobserved⟩ := htr
  refine hs.moves hp hannounced (setPhase_moves _) (fun _ _ h => by cases h) hs.used ⟨ps, hps, ?_⟩
  exact ⟨hcwd, hfirst, hobserved _ rfl⟩

theorem Sim.execStop (hs : Sim w) (hp : w.procs pid = some p) {path : Text}
    (hphase : p.phase = .replaced path) :
    Sim { w.setPhase pid { p with execed := true } .fresh with
      tracer := w.tracer.execEvent pid
      used := path :: w.used } := by
  have hannounced : p.announced = true := hs.announced hp (by simp [hphase])
  obtain ⟨ps, hps, htr⟩ := hs.tracked pid p hp hannounced
  simp only [Tracked, hphase] at htr
  obtain ⟨hcwd, -, hobserved⟩ := htr
  have hmoves : Moves w { w.setPhase pid { p with execed := true } .fresh with
      tracer := w.tracer.execEvent pid
      used := path :: w.used } pid p { p with phase := .fresh, execed := true } :=
    ⟨rfl, rfl, rfl, fun _ _ _ _ => rfl, rfl, rfl, fun _ hne => Function.update_of_ne hne _ _,
      fun _ h => h⟩
  refine hs.moves hp hannounced hmoves (fun _ _ h => by cases h) ?_
    ⟨{ ps with inSyscall := false }, ?_, hcwd, rfl, rfl⟩
  · intro used hused
    rcases List.mem_cons.mp hused with rfl | hused
    · exact hobserved
    · exact hs.used used hused
  · simp [Tracer.execEvent, Tracer.setInSyscall, hps]

theorem Sim.fresh (hs : Sim w) (hp : w.procs pid = some p) (hphase : p.phase = .fresh)
    (regs : Option Peeked) :
    (w.tracer.syscallStop pid (.execve []) (regs.map fun _ => none)).Broken ∨
      Sim { w.setPhase pid p .user with
        tracer := w.tracer.syscallStop pid (.execve []) (regs.map fun _ => none) } := by
  have hannounced : p.announced = true := hs.announced hp (by simp [hphase])
  obtain ⟨ps, hps, htr⟩ := hs.tracked pid p hp hannounced
  simp only [Tracked, hphase] at htr
  obtain ⟨hcwd, hin, hexeced⟩ := htr
  rcases Tracer.syscallStop_fresh hps hin regs with hbroken | hstop
  · exact .inl hbroken
  · right
    have hmoves := stop_moves w pid p .user (.execve []) (regs.map fun _ => none) w.used
    refine hs.moves hp hannounced hmoves (fun _ _ h => by cases h) ?_ ?_
    · exact fun path hpath => hmoves.observed path (hs.used path hpath)
    · refine ⟨{ ps with inSyscall := true }, ?_, hcwd, hexeced.symm⟩
      simp [hstop, Tracer.setInSyscall, hps]

theorem Sim.leave (hs : Sim w) (hp : w.procs pid = some p) {call : Call} {opened : Option Text}
    (hphase : p.phase = .finished call opened) {regs : Option Peeked}
    (hnamed : p.execed = true → ∀ peek, regs = some peek → call.Named peek) :
    (w.tracer.syscallStop pid call regs).Broken ∨
      Sim { w.setPhase pid p .user with
        tracer := w.tracer.syscallStop pid call regs
        used := opened.toList ++ w.used } := by
  have hannounced : p.announced = true := hs.announced hp (by simp [hphase])
  obtain ⟨ps, hps, htr⟩ := hs.tracked pid p hp hannounced
  simp only [Tracked, hphase] at htr
  obtain ⟨hin, hcwd⟩ := htr
  have hmoves := stop_moves w pid p .user call regs (opened.toList ++ w.used)
  have hused : (∀ path, opened = some path → path ∈ (w.tracer.syscallStop pid call regs).observed) →
      ∀ path ∈ opened.toList ++ w.used, path ∈ (w.tracer.syscallStop pid call regs).observed := by
    intro hopened path hpath
    rcases List.mem_append.mp hpath with hpath | hpath
    · exact hopened path (Option.mem_toList.mp hpath)
    · exact hmoves.observed path (hs.used path hpath)
  cases hexeced : p.execed with
  | true =>
    simp only [hexeced, if_true, Bool.not_true] at hcwd hin
    obtain ⟨hcwd, hpath⟩ := hcwd
    rcases Tracer.syscallStop_begun hps hin (hnamed hexeced) with hbroken | hbegun
    · exact .inl hbroken
    · right
      refine hs.moves hp hannounced hmoves (fun _ _ h => by cases h) ?_ ?_
      · exact hused fun path hopened => hbegun.path path (hpath path hopened hbegun.plain)
      · obtain ⟨ps', hps', hin', hcwd'⟩ := hbegun.state
        exact ⟨ps', hps', hcwd'.trans hcwd.symm, hin'.trans hexeced.symm⟩
  | false =>
    simp only [hexeced, Bool.false_eq_true, if_false, Bool.not_false] at hcwd hin
    obtain ⟨hcwd, hobserved⟩ := hcwd
    right
    refine hs.moves hp hannounced hmoves (fun _ _ h => by cases h) ?_ ?_
    · exact hused fun path hopened => hmoves.observed path (hobserved path hopened)
    · refine ⟨{ ps with inSyscall := false }, ?_, hcwd, hexeced.symm⟩
      simp [Tracer.syscallStop_end hps hin, Tracer.setInSyscall, hps]

section Births
variable {sharesDir : Bool} {child : Pid} {dir : ℕ}

theorem bear_procs {other : Pid} {q : Proc}
    (hq : (w.bear pid p sharesDir child dir).procs other = some q) :
    other = child ∧ q = { dir := dir, phase := .user, execed := false, announced := false } ∨
      other = pid ∧ q = { p with phase := .cloned sharesDir child } ∨
      other ≠ child ∧ other ≠ pid ∧ w.procs other = some q := by
  simp only [World.bear] at hq
  by_cases hchild : other = child
  · subst hchild
    rw [Function.update_self] at hq
    exact .inl ⟨rfl, (Option.some.inj hq).symm⟩
  · rw [Function.update_of_ne hchild] at hq
    by_cases hpid : other = pid
    · subst hpid
      rw [Function.update_self] at hq
      exact .inr (.inl ⟨rfl, (Option.some.inj hq).symm⟩)
    · rw [Function.update_of_ne hpid] at hq
      exact .inr (.inr ⟨hchild, hpid, hq⟩)

/-- A new directory is nobody else's, and a shared one stays what it was. -/
theorem Sim.bear_cwd (hs : Sim w) (hdir : dir = if sharesDir then p.dir else w.nextDir) {other : Pid}
    {q : Proc} (hq : w.procs other = some q) :
    (w.bear pid p sharesDir child dir).cwd q.dir = w.cwd q.dir := by
  have hold := hs.dirs other q hq
  simp only [World.bear]
  cases sharesDir with
  | false =>
    simp only [Bool.false_eq_true, if_false] at hdir
    exact Function.update_of_ne (by omega) _ _
  | true =>
    simp only [if_true] at hdir
    rw [hdir, Function.update_eq_self]

/-- The children of others are not the new one. -/
theorem Sim.bear_births (hs : Sim w) (hp : w.procs pid = some p) (hannounced : p.announced = true)
    (hpending : w.pending child = false) {other c : Pid} {q : Proc} {b : Bool}
    (hq : w.procs other = some q) (hphase : q.phase = .cloned b c) : c ≠ child ∧ c ≠ pid := by
  obtain ⟨hc, hcproc⟩ := hs.births other q b c hq hphase
  constructor
  · rintro rfl
    rw [hc] at hpending
    cases hpending
  · rintro rfl
    rw [(hcproc p hp).1] at hannounced
    cases hannounced

theorem bear_cloned {other c : Pid} {q : Proc} {b : Bool}
    (hq : (w.bear pid p sharesDir child dir).procs other = some q) (hphase : q.phase = .cloned b c) :
    other = pid ∧ q = { p with phase := .cloned sharesDir child } ∧ c = child ∨
      other ≠ pid ∧ w.procs other = some q := by
  rcases bear_procs hq with ⟨rfl, rfl⟩ | ⟨rfl, rfl⟩ | ⟨-, hother, hq⟩
  · cases hphase
  · cases hphase
    exact .inl ⟨rfl, rfl, rfl⟩
  · exact .inr ⟨hother, hq⟩

theorem Sim.born (hs : Sim w) (hp : w.procs pid = some p)
    (hphase : p.phase = .entered (.clone sharesDir)) (hnew : w.procs child = none)
    (hpending : w.pending child = false) (hdir : dir = if sharesDir then p.dir else w.nextDir) :
    Sim (w.bear pid p sharesDir child dir) := by
  have hannounced : p.announced = true := hs.announced hp (by simp [hphase])
  have hne : child ≠ pid := by
    rintro rfl
    rw [hnew] at hp
    cases hp
  have hcwd : ∀ {other q}, w.procs other = some q →
      (w.bear pid p sharesDir child dir).cwd q.dir = w.cwd q.dir := hs.bear_cwd hdir
  refine ⟨?_, ?_, ?_, ?_, ?_, hs.used⟩
  · intro other q hq hann
    rcases bear_procs hq with ⟨rfl, rfl⟩ | ⟨rfl, rfl⟩ | ⟨-, -, hq⟩
    · cases hann
    · obtain ⟨ps, hps, htr⟩ := hs.tracked other p hp hannounced
      refine ⟨ps, hps, ?_⟩
      simp only [Tracked, hphase] at htr
      simp only [Tracked, hcwd hp]
      refine ⟨?_, htr.1⟩
      cases hexeced : p.execed with
      | true => simpa [hexeced] using htr.2
      | false =>
        simp only [hexeced, Bool.false_eq_true, if_false] at htr
        exact htr.2.1
    · obtain ⟨ps, hps, htr⟩ := hs.tracked other q hq hann
      refine ⟨ps, hps, ?_⟩
      rw [hcwd hq]
      exact htr
  · intro other q hq hann
    rcases bear_procs hq with ⟨rfl, rfl⟩ | ⟨rfl, rfl⟩ | ⟨-, -, hq⟩
    · exact ⟨rfl, rfl⟩
    · rw [show p.announced = false from hann] at hannounced
      cases hannounced
    · exact hs.waiting other q hq hann
  · intro other q b c hq hqphase
    rcases bear_cloned hq hqphase with ⟨rfl, rfl, rfl⟩ | ⟨hother, hq⟩
    · refine ⟨Function.update_self _ _ _, ?_⟩
      intro r hr
      rcases bear_procs hr with ⟨-, rfl⟩ | ⟨hr, -⟩ | ⟨hr, -⟩
      · rw [hcwd hp]
        exact ⟨rfl, Function.update_self _ _ _⟩
      · exact absurd hr hne
      · exact absurd rfl hr
    · obtain ⟨hc, hcproc⟩ := hs.births other q b c hq hqphase
      obtain ⟨hcchild, hcpid⟩ := hs.bear_births hp hannounced hpending hq hqphase
      refine ⟨(Function.update_of_ne hcchild _ _).trans hc, ?_⟩
      intro r hr
      rcases bear_procs hr with ⟨hr, -⟩ | ⟨hr, -⟩ | ⟨-, -, hr⟩
      · exact absurd hr hcchild
      · exact absurd hr hcpid
      · rw [hcwd hr, hcwd hq]
        exact hcproc r hr
  · intro a b q r sa sb c hq hr hqphase hrphase
    rcases bear_cloned hq hqphase with ⟨rfl, -, hc⟩ | ⟨ha, hq⟩
    · rcases bear_cloned hr hrphase with ⟨rfl, -⟩ | ⟨hb, hr⟩
      · rfl
      · exact absurd hc (hs.bear_births hp hannounced hpending hr hrphase).1
    · rcases bear_cloned hr hrphase with ⟨-, -, hc⟩ | ⟨-, hr⟩
      · exact absurd hc (hs.bear_births hp hannounced hpending hq hqphase).1
      · exact hs.parents a b q r sa sb c hq hr hqphase hrphase
  · intro other q hq
    rcases bear_procs hq with ⟨rfl, rfl⟩ | ⟨rfl, rfl⟩ | ⟨-, -, hq⟩
    · have hpdir := hs.dirs pid p hp
      simp only [World.bear, hdir]
      split <;> omega
    · exact (hs.dirs other p hp).trans (Nat.lt_succ_self _)
    · exact (hs.dirs other q hq).trans (Nat.lt_succ_self _)

end Births

/-- The tracer is told of a child, with the directory of its parent. -/
theorem Sim.announce (hs : Sim w) {child : Pid} {cwd : Text}
    (hchild : ∀ q, w.procs child = some q → q.announced = false ∧ w.cwd q.dir = cwd)
    (hparent : ∀ other r sharesDir, w.procs other = some r → r.phase ≠ .cloned sharesDir child) :
    Sim { w.announce child with
      tracer := { w.tracer with
        procs := Function.update w.tracer.procs child (some { cwd := cwd, inSyscall := false }) } } := by
  have hbefore : ∀ {other q}, (w.announce child).procs other = some q →
      (other = child ∧ ∃ q', w.procs child = some q' ∧ q = { q' with announced := true }) ∨
      other ≠ child ∧ w.procs other = some q := by
    intro other q hq
    simp only [World.announce] at hq
    by_cases hne : other = child
    · subst hne
      rw [Function.update_self] at hq
      obtain ⟨q', hq', hqq'⟩ := Option.map_eq_some_iff.mp hq
      exact .inl ⟨rfl, q', hq', hqq'.symm⟩
    · rw [Function.update_of_ne hne] at hq
      exact .inr ⟨hne, hq⟩
  have hcloned : ∀ {other q b c}, (w.announce child).procs other = some q → q.phase = .cloned b c →
      other ≠ child ∧ w.procs other = some q := by
    intro other q b c hq hphase
    rcases hbefore hq with ⟨rfl, q', hq', rfl⟩ | hother
    · have huser := (hs.waiting other q' hq' (hchild q' hq').1).1
      rw [show q'.phase = .cloned b c from hphase] at huser
      cases huser
    · exact hother
  refine ⟨?_, ?_, ?_, ?_, ?_, hs.used⟩
  · intro other q hq hann
    rcases hbefore hq with ⟨rfl, q', hq', rfl⟩ | ⟨hne, hq⟩
    · obtain ⟨hphase, hexeced⟩ := hs.waiting other q' hq' (hchild q' hq').1
      refine ⟨_, Function.update_self _ _ _, ?_⟩
      simp only [Tracked, hphase]
      exact ⟨(hchild q' hq').2.symm, hexeced.symm⟩
    · obtain ⟨ps, hps, htr⟩ := hs.tracked other q hq hann
      exact ⟨ps, (Function.update_of_ne hne _ _).trans hps, htr.mono fun _ h => h⟩
  · intro other q hq hann
    rcases hbefore hq with ⟨rfl, q', hq', rfl⟩ | ⟨-, hq⟩
    · cases hann
    · exact hs.waiting other q hq hann
  · intro other q b c hq hphase
    have hold := (hcloned hq hphase).2
    obtain ⟨hc, hcproc⟩ := hs.births other q b c hold hphase
    have hcne : c ≠ child := by
      rintro rfl
      exact hparent other q b hold hphase
    refine ⟨(Function.update_of_ne hcne _ _).trans hc, ?_⟩
    intro r hr
    rcases hbefore hr with ⟨hr, -⟩ | ⟨-, hr⟩
    · exact absurd hr hcne
    · exact hcproc r hr
  · intro a b q r sa sb c hq hr hqphase hrphase
    exact hs.parents a b q r sa sb c (hcloned hq hqphase).2 (hcloned hr hrphase).2 hqphase hrphase
  · intro other q hq
    rcases hbefore hq with ⟨rfl, q', hq', rfl⟩ | ⟨-, hq⟩
    · exact hs.dirs other q' hq'
    · exact hs.dirs other q hq

theorem Sim.forkStop (hs : Sim w) (hp : w.procs pid = some p) {sharesDir : Bool} {child : Pid}
    (hphase : p.phase = .cloned sharesDir child) :
    Sim { (w.setPhase pid p (.finished (.clone sharesDir) none)).announce child with
      tracer := w.tracer.forkEvent pid child } := by
  have hannounced : p.announced = true := hs.announced hp (by simp [hphase])
  obtain ⟨ps, hps, htr⟩ := hs.tracked pid p hp hannounced
  simp only [Tracked, hphase] at htr
  obtain ⟨hcwd, hin⟩ := htr
  have hbirth := (hs.births pid p sharesDir child hp hphase).2
  have hmoved : Sim (w.setPhase pid p (.finished (.clone sharesDir) none)) := by
    refine hs.moves hp hannounced (setPhase_moves _) (fun _ _ h => by cases h) hs.used ⟨ps, hps, ?_⟩
    simp only [Tracked, World.setPhase]
    refine ⟨hin, ?_⟩
    split
    · exact ⟨hcwd.symm, fun path h => by cases h⟩
    · exact ⟨hcwd, fun path h => by cases h⟩
  have hfork : w.tracer.forkEvent pid child = { w.tracer with
      procs := Function.update w.tracer.procs child (some { cwd := w.cwd p.dir, inSyscall := false }) } := by
    simp only [Tracer.forkEvent, hps, hcwd]
  rw [hfork]
  refine hmoved.announce ?_ ?_
  · intro q hq
    simp only [World.setPhase] at hq
    by_cases hne : child = pid
    · rw [← hne] at hp
      rw [(hbirth p hp).1] at hannounced
      cases hannounced
    · rw [Function.update_of_ne hne] at hq
      exact hbirth q hq
  · intro other r b hr hrphase
    simp only [World.setPhase] at hr
    by_cases hne : other = pid
    · rw [hne, Function.update_self] at hr
      cases hr
      cases hrphase
    · rw [Function.update_of_ne hne] at hr
      exact hne (hs.parents other pid r p b sharesDir child hr hp hrphase hphase)

theorem Sim.die (hs : Sim w) (hp : w.procs pid = some p) :
    Sim { w with
      procs := Function.update w.procs pid none
      pending := match p.phase with
        | .cloned _ child => Function.update w.pending child false
        | _ => w.pending
      tracer := w.tracer.exited pid } := by
  have hold : ∀ {other q}, Function.update w.procs pid none other = some q →
      other ≠ pid ∧ w.procs other = some q := by
    intro other q hq
    by_cases hne : other = pid
    · subst hne
      rw [Function.update_self] at hq
      cases hq
    · rw [Function.update_of_ne hne] at hq
      exact ⟨hne, hq⟩
  refine ⟨?_, ?_, ?_, ?_, ?_, hs.used⟩
  · intro other q hq hann
    obtain ⟨hne, hq⟩ := hold hq
    obtain ⟨ps, hps, htr⟩ := hs.tracked other q hq hann
    exact ⟨ps, (Function.update_of_ne hne _ _).trans hps, htr.mono fun _ h => h⟩
  · intro other q hq hann
    exact hs.waiting other q (hold hq).2 hann
  · intro other q b c hq hphase
    obtain ⟨hne, hq⟩ := hold hq
    obtain ⟨hc, hcproc⟩ := hs.births other q b c hq hphase
    refine ⟨?_, fun r hr => hcproc r (hold hr).2⟩
    cases hpphase : p.phase with
    | cloned sharesDir child =>
      have hcne : c ≠ child := by
        rintro rfl
        exact hne (hs.parents other pid q p b sharesDir c hq hp hphase hpphase)
      exact (Function.update_of_ne hcne _ _).trans hc
    | _ => exact hc
  · intro a b q r sa sb c hq hr hqphase hrphase
    exact hs.parents a b q r sa sb c (hold hq).2 (hold hr).2 hqphase hrphase
  · intro other q hq
    exact hs.dirs other q (hold hq).2

/-- A step that fits keeps the invariant, unless the trace has a marker. -/
theorem Sim.next (hs : Sim w) {e : Event} (h : w.next e = some w') (hfits : w.Fits e) :
    w'.tracer.Broken ∨ Sim w' := by
  cases e with
  | enter pid call regs =>
    simp only [World.next] at h
    split at h
    · rename_i p hp
      split at h
      · rename_i hphase
        cases h
        exact hs.enter hp hphase (hfits p hp).1 (hfits p hp).2
      · cases h
    · cases h
  | effect pid outcome =>
    simp only [World.next] at h
    split at h
    · rename_i p hp
      split at h
      · rename_i call hphase
        right
        cases effect_effected h (hfits p call hp hphase) with
        | finished hleads halone hpath => exact hs.finished hp hphase hleads halone hpath
        | replaced hfirst => exact hs.replaced hp hphase hfirst
        | born hnew hpending hdir => exact hs.born hp hphase hnew hpending hdir
      · cases h
    · cases h
  | execStop pid =>
    simp only [World.next] at h
    split at h
    · rename_i p hp
      split at h
      · rename_i path hphase
        cases h
        exact .inr (hs.execStop hp hphase)
      · cases h
    · cases h
  | forkStop pid =>
    simp only [World.next] at h
    split at h
    · rename_i p hp
      split at h
      · rename_i sharesDir child hphase
        cases h
        exact .inr (hs.forkStop hp hphase)
      · cases h
    · cases h
  | leave pid regs =>
    simp only [World.next] at h
    split at h
    · rename_i p hp
      split at h
      · rename_i call opened hphase
        cases h
        exact hs.leave hp hphase (hfits p call opened hp hphase)
      · rename_i hphase
        cases h
        exact hs.fresh hp hphase regs
      · cases h
    · cases h
  | die pid =>
    simp only [World.next] at h
    split at h
    · rename_i p hp
      cases h
      exact .inr (hs.die hp)
    · cases h
  | signalStop pid =>
    simp only [World.next] at h
    split at h
    · cases h
      exact .inr hs
    · cases h

theorem Sim.started (h : w.Started) : Sim w := by
  obtain ⟨root, hprocs, htracer⟩ := h.root
  have hold : ∀ {pid p}, w.procs pid = some p →
      pid = root ∧ p = { dir := 0, phase := .user, execed := false, announced := true } := by
    intro pid p hp
    rw [hprocs] at hp
    by_cases hne : pid = root
    · subst hne
      rw [Function.update_self] at hp
      exact ⟨rfl, (Option.some.inj hp).symm⟩
    · rw [Function.update_of_ne hne] at hp
      cases hp
  refine ⟨?_, ?_, ?_, ?_, ?_, ?_⟩
  · intro pid p hp _
    obtain ⟨rfl, rfl⟩ := hold hp
    exact ⟨_, by rw [htracer, Function.update_self], h.cwd.symm, rfl⟩
  · intro pid p hp hann
    obtain ⟨rfl, rfl⟩ := hold hp
    cases hann
  · intro pid p b child hp hphase
    obtain ⟨rfl, rfl⟩ := hold hp
    cases hphase
  · intro pid pid' p p' b b' child hp _ hphase _
    obtain ⟨rfl, rfl⟩ := hold hp
    cases hphase
  · intro pid p hp
    obtain ⟨rfl, rfl⟩ := hold hp
    rw [h.nextDir]
    exact Nat.one_pos
  · intro path hpath
    rw [h.used] at hpath
    cases hpath

theorem next_grows {e : Event} (h : w.next e = some w') (hfits : w.Fits e) :
    w.tracer.Grows w'.tracer := by
  have hrefl : w.tracer.Grows w.tracer := ⟨fun _ h => h, fun _ h => h⟩
  cases e with
  | enter pid call regs =>
    simp only [World.next] at h
    split at h
    · split at h
      · cases h
        exact Tracer.syscallStop_grows _ _ _ _
      · cases h
    · cases h
  | effect pid outcome =>
    simp only [World.next] at h
    split at h
    · rename_i p hp
      split at h
      · rename_i call hphase
        rw [(effect_effected h (hfits p call hp hphase)).tracer]
        exact hrefl
      · cases h
    · cases h
  | execStop pid =>
    simp only [World.next] at h
    split at h
    · split at h
      · cases h
        exact ⟨fun _ h => h, fun _ h => h⟩
      · cases h
    · cases h
  | forkStop pid =>
    simp only [World.next] at h
    split at h
    · split at h
      · cases h
        simp only [Tracer.forkEvent]
        split
        · exact hrefl
        · exact ⟨fun _ h => h, fun _ h => h⟩
      · cases h
    · cases h
  | leave pid regs =>
    simp only [World.next] at h
    split at h
    · split at h
      · cases h
        exact Tracer.syscallStop_grows _ _ _ _
      · cases h
        exact Tracer.syscallStop_grows _ _ _ _
      · cases h
    · cases h
  | die pid =>
    simp only [World.next] at h
    split at h
    · cases h
      exact ⟨fun _ h => h, fun _ h => h⟩
    · cases h
  | signalStop pid =>
    simp only [World.next] at h
    split at h
    · cases h
      exact hrefl
    · cases h

theorem run_sim {w₀ : World} (hstart : w₀.Started) (hrun : ReflTransGen World.StepFits w₀ w) :
    w.tracer.Broken ∨ Sim w := by
  induction hrun with
  | refl => exact .inr (.started hstart)
  | tail _ hstep ih =>
    obtain ⟨e, hnext, hfits⟩ := hstep
    rcases ih with hbroken | hs
    · exact .inl ((next_grows hnext hfits).broken hbroken)
    · exact hs.next hnext hfits

theorem marker_not_traceOk {out : List Text} (h : ∃ m ∈ out, (marker m).isSome) (base : Text)
    (declared : List Text) : (evaluateStrictReadtrace base declared out).traceOk = false := by
  obtain ⟨m, hm, hmarker⟩ := h
  simp only [evaluateStrictReadtrace, List.all_eq_false]
  exact ⟨m, hm, Bool.not_eq_true _ ▸ Option.isNone_eq_false_iff.mpr hmarker⟩

/-- A trace that does not hide that it is not complete. -/
theorem Tracer.Broken.trace {t : Tracer} (h : t.Broken) : ∃ m ∈ t.trace, (marker m).isSome := by
  obtain ⟨m, hm, hmarker⟩ := h
  refine ⟨m, ?_, hmarker⟩
  rw [Tracer.trace, List.mem_insertionSort]
  exact List.mem_append_left _ hm

/-- In a run of events that fit, from the first stop of the root process on, the trace says that it is
not complete, or what has been executed or opened for reading by a path is in it. -/
theorem trace_complete (base : Text) (declared : List Text) {w₀ : World} (hstart : w₀.Started)
    (hrun : ReflTransGen World.StepFits w₀ w) :
    (evaluateStrictReadtrace base declared w.tracer.trace).traceOk = false ∨
      ∀ path ∈ w.used, path ∈ w.tracer.trace := by
  rcases run_sim hstart hrun with hbroken | hs
  · exact .inl (marker_not_traceOk hbroken.trace base declared)
  · right
    intro path hpath
    rw [Tracer.trace, List.mem_insertionSort]
    exact List.mem_append_right _ (hs.used path hpath)

namespace World

def begin (pid : Pid) (cwd : Text) : World where
  procs := Function.update (fun _ => none) pid
    (some { dir := 0, phase := .user, execed := false, announced := true })
  cwd := fun _ => cwd
  nextDir := 1
  pending := fun _ => false
  tracer := {
    cwd0 := cwd
    procs := Function.update (fun _ => none) pid (some { cwd := cwd, inSyscall := false })
    observed := []
    traceMarkers := [] }
  used := []

theorem begin_started (pid : Pid) (cwd : Text) : (begin pid cwd).Started :=
  ⟨⟨pid, rfl, rfl⟩, rfl, rfl, fun _ => rfl, rfl, rfl, rfl⟩

/-- Events one by one, those that cannot occur being passed over. -/
def after (w : World) (events : List Event) : World :=
  events.foldl (fun w e => (w.next e).getD w) w

def AllFit (w : World) : List Event → Prop
  | [] => True
  | e :: events => (w.next e).isSome ∧ w.Fits e ∧ (w.after [e]).AllFit events

theorem run_fits {w : World} {events : List Event} (h : w.AllFit events) :
    ReflTransGen StepFits w (w.after events) := by
  induction events generalizing w with
  | nil => exact .refl
  | cons e events ih =>
    obtain ⟨w', hw'⟩ := Option.isSome_iff_exists.mp h.1
    refine .head ⟨e, ?_, h.2.1⟩ (ih h.2.2)
    simp [hw']

/-- One program is executed, and it opens a file. -/
def readOnce : List Event := [
  .enter 7 (.execve "/bin/cat".toList) (some (some "/bin/cat".toList)),
  .effect 7 (.done []), .execStop 7, .leave 7 (some none),
  .enter 7 (.openFile false "input".toList) (some (some "input".toList)),
  .effect 7 (.done []), .leave 7 (some (some "input".toList))]

end World

theorem trace_complete_readOnce :
    let w := (World.begin 7 "/base".toList).after World.readOnce
    w.used = ["/base/input".toList, "/bin/cat".toList] ∧
      ((evaluateStrictReadtrace [] [] w.tracer.trace).traceOk = false ∨
        ∀ path ∈ w.used, path ∈ w.tracer.trace) := by
  have hfits : (World.begin 7 "/base".toList).AllFit World.readOnce := by
    refine ⟨by decide +kernel, ?_, by decide +kernel, ?_, by decide +kernel, trivial,
      by decide +kernel, ?_, by decide +kernel, ?_, by decide +kernel, ?_, by decide +kernel, ?_,
      trivial⟩
    · intro p hp
      cases hp
      refine ⟨rfl, fun _ peek hpeek => ?_⟩
      cases hpeek
      rfl
    · intro p call hp hphase
      cases hp
      cases hphase
      rfl
    · intro p call opened hp hphase
      cases hp
      cases hphase
    · intro p hp
      cases hp
      exact ⟨rfl, fun hexeced => by cases hexeced⟩
    · intro p call hp hphase
      cases hp
      cases hphase
      trivial
    · intro p call opened hp hphase _ peek hpeek
      cases hp
      cases hphase
      cases hpeek
      rfl
  exact ⟨by decide +kernel, trace_complete [] [] (World.begin_started 7 "/base".toList)
    (World.run_fits hfits)⟩

end Redo.Trace
