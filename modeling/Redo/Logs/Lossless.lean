import Redo.Logs.Follow

/-! # Nothing is lost

The follower has all bytes up to its place in the log, in its lines, in the line that is not ended
and in its buffers. So it has all lines when it stops, if it stops at the end: nothing may come
between its last look at the file and its look at the lock.
-/
namespace Redo.Logs
open Library Remote Cache Paths Relation

/-- Whether nothing comes between the follower's two looks, and what it reads is text. -/
def Situation.Undisturbed (s : Situation) : Event → Prop
  | .rename => s.follower.phase.isActive = false
  | .release =>
    (s.follower.phase = .ended → s.follower.pos = (s.target.disk s.follower.file).length) ∧
      (s.follower.phase = .unopened → s.target.log = none)
  | .fill _ =>
    (s.target.disk s.follower.file).drop s.follower.pos = [] → (decode s.follower.buf).isSome = true
  | .scan =>
    NEWLINE ∈ s.follower.buffer →
      (decode (s.follower.buf ++ (cutLine s.follower.buffer).1)).isSome = true
  | .resume ok => ok = true
  | _ => True

structure Target.Sound (t : Target) : Prop where
  log : ∀ i, t.log = some i → i < t.used
  stderr : ∀ i, t.stderr = some i → t.log = some i
  ahead : t.lock = .ahead → t.stderr = none

/-- The follower starts before the build, in it, or behind it. -/
structure Situation.Starts (s : Situation) : Prop where
  target : s.target.Sound
  follower : s.follower = {}

/-! ## What has been read -/

namespace Follower

/-- The bytes that have come into the reader, as they lie there. -/
def taken (f : Follower) : List UInt8 :=
  (f.lines.map encode).flatMap (· ++ [NEWLINE]) ++ encode f.lineHead ++ f.buf ++ f.buffer

/-- The follower has all bytes up to `pos`, and no newline is left in a line. -/
structure Reads (f : Follower) (content : List UInt8) : Prop where
  pos : f.pos ≤ content.length
  taken : f.taken = content.take f.pos
  buf : NEWLINE ∉ f.buf
  lineHead : '\n' ∉ f.lineHead
  lines : ∀ line ∈ f.lines, '\n' ∉ line

structure Blank (f : Follower) : Prop where
  pos : f.pos = 0
  buffer : f.buffer = []
  buf : f.buf = []
  lineHead : f.lineHead = []
  lines : f.lines = []

variable {f f' : Follower} {content : List UInt8} {n : ℕ} {c : Call}

theorem Blank.reads (h : f.Blank) (content : List UInt8) : f.Reads content := by
  obtain ⟨hpos, hbuffer, hbuf, hhead, hlines⟩ := h
  constructor
  · omega
  · simp [Follower.taken, hpos, hbuffer, hbuf, hhead, hlines, encode]
  · simp [hbuf]
  · simp [hhead]
  · simp [hlines]

theorem Reads.append (h : f.Reads content) (chunk : List UInt8) : f.Reads (content ++ chunk) := by
  refine ⟨?_, ?_, h.buf, h.lineHead, h.lines⟩
  · rw [List.length_append]
    exact Nat.le_add_right_of_le h.pos
  · rw [h.taken, List.take_append_of_le_length h.pos]

/-- At the end of the content all whole lines are gone through, and the rest is kept. -/
theorem Reads.wholeLines (h : f.Reads content) (hend : f.pos = content.length) (hbuf : f.buf = [])
    (hbuffer : f.buffer = []) : f.lines.map encode = Library.wholeLines content := by
  have htaken := h.taken
  rw [hend, List.take_length, Follower.taken, hbuf, hbuffer, List.append_nil, List.append_nil] at htaken
  rw [← htaken, wholeLines_append]
  · intro bytes hbytes hnewline
    obtain ⟨line, hline, rfl⟩ := List.mem_map.mp hbytes
    exact h.lines line hline (newline_mem_encode hnewline)
  · exact fun hnewline => h.lineHead (newline_mem_encode hnewline)

/-- What a step of the follower in an open log leaves. -/
structure Advances (content : List UInt8) (f f' : Follower) : Prop where
  reads : f'.Reads content
  file : f'.file = f.file
  sawLocked : f'.sawLocked = f.sawLocked
  phase : f'.phase = .reading ∨ f'.phase = .recursing ∨
    f'.phase = .ended ∧ f'.buf = [] ∧ f'.buffer = [] ∧ f'.pos = content.length

theorem Reads.endOfFile (h : f.Reads content) (hphase : f.phase = .reading) (hbuffer : f.buffer = [])
    (hend : f.pos = content.length) (htext : (decode f.buf).isSome = true) :
    Advances content f f.endOfFile := by
  unfold Follower.endOfFile
  split_ifs with hbuf
  · exact ⟨⟨h.pos, h.taken, h.buf, h.lineHead, h.lines⟩, rfl, rfl, .inr (.inr ⟨rfl, hbuf, hbuffer, hend⟩)⟩
  · obtain ⟨text, hdecode⟩ := Option.isSome_iff_exists.mp htext
    have hencode := encode_of_decode hdecode
    rw [hdecode]
    refine ⟨⟨h.pos, ?_, List.not_mem_nil, ?_, h.lines⟩, rfl, rfl, .inl hphase⟩
    · have htaken := h.taken
      rw [Follower.taken, ← hencode] at htaken
      rw [Follower.taken, encode_append, List.append_nil, ← htaken]
      simp only [List.append_assoc]
    · intro hnewline
      rcases List.mem_append.mp hnewline with hnewline | hnewline
      · exact h.lineHead hnewline
      · rw [← newline_mem_encode_iff, hencode] at hnewline
        exact h.buf hnewline

theorem fill_phase {t : Target} (hfill : f.fill t n = some f') : f.phase = .reading := by
  unfold fill at hfill
  split_ifs at hfill with hready
  exact hready.1

theorem scan_phase (hscan : f.scan c = some f') : f.phase = .reading := by
  unfold scan at hscan
  split_ifs at hscan with hready
  · exact hready.1
  · exact hready.1

theorem fill_advances {t : Target} (hfill : f.fill t n = some f') (h : f.Reads (t.disk f.file))
    (htext : (t.disk f.file).drop f.pos = [] → (decode f.buf).isSome = true) :
    Advances (t.disk f.file) f f' := by
  unfold fill at hfill
  split_ifs at hfill with hready
  dsimp only at hfill
  split_ifs at hfill with hrest
  · cases hfill
    have hend : f.pos = (t.disk f.file).length := by
      have hle := List.drop_eq_nil_iff.mp hrest
      exact le_antisymm h.pos hle
    exact h.endOfFile hready.1 hready.2.1 hend (htext hrest)
  · cases hfill
    obtain ⟨hphase, hbuffer, _⟩ := hready
    refine ⟨⟨?_, ?_, h.buf, h.lineHead, h.lines⟩, rfl, rfl, .inl hphase⟩
    · have hpos := h.pos
      simp only [List.length_take, List.length_drop]
      omega
    · have htaken := h.taken
      rw [Follower.taken, hbuffer, List.append_nil] at htaken
      rw [Follower.taken]
      dsimp only
      have hpiece := List.prefix_iff_eq_take.mp (List.take_prefix (n + 1) ((t.disk f.file).drop f.pos))
      rw [htaken, List.take_add (i := f.pos) (j := (((t.disk f.file).drop f.pos).take (n + 1)).length), ← hpiece]

theorem Reads.wholeLine {line rest : List UInt8} (h : f.Reads content) (hline : NEWLINE ∉ line)
    (hbuffer : f.buffer = line ++ NEWLINE :: rest)
    (htext : (decode (f.buf ++ (line ++ [NEWLINE]))).isSome = true) :
    Advances content f
      ({ f with buf := f.buf ++ (line ++ [NEWLINE]), buffer := rest }.wholeLine c) := by
  obtain ⟨text, hdecode⟩ := Option.isSome_iff_exists.mp htext
  have hdecode' := hdecode
  rw [← List.append_assoc] at hdecode'
  obtain ⟨l, rfl, hl⟩ := decode_line hdecode'
  have hl' : '\n' ∉ l := by
    rw [← newline_mem_encode_iff, hl]
    intro hmem
    rcases List.mem_append.mp hmem with hmem | hmem
    · exact h.buf hmem
    · exact hline hmem
  have hbody : '\n' ∉ f.lineHead ++ l := by
    intro hmem
    rcases List.mem_append.mp hmem with hmem | hmem
    · exact h.lineHead hmem
    · exact hl' hmem
  have htrim : (f.lineHead ++ (l ++ ['\n'])).rdropWhile (· = '\n') = f.lineHead ++ l := by
    rw [← List.append_assoc, List.rdropWhile_concat_pos _ _ _ (by simp), List.rdropWhile_eq_self_iff]
    intro hne hlast
    rw [decide_eq_true_eq] at hlast
    exact hbody (hlast ▸ List.getLast_mem hne)
  unfold Follower.wholeLine
  dsimp only
  rw [hdecode]
  dsimp only
  rw [htrim]
  refine ⟨⟨h.pos, ?_, List.not_mem_nil, List.not_mem_nil, ?_⟩, rfl, rfl, ?_⟩
  · rw [← h.taken]
    simp only [Follower.taken, hbuffer, List.map_append, List.flatMap_append, List.map_cons, List.map_nil,
      encode_append, hl]
    simp [encode]
  · intro m hm
    rcases List.mem_append.mp hm with hm | hm
    · exact h.lines m hm
    · rw [List.mem_singleton.mp hm]
      exact hbody
  · dsimp only
    split_ifs
    · exact .inr (.inl rfl)
    · exact .inl rfl

theorem scan_advances (hscan : f.scan c = some f') (h : f.Reads content)
    (htext : NEWLINE ∈ f.buffer → (decode (f.buf ++ (cutLine f.buffer).1)).isSome = true) :
    Advances content f f' := by
  unfold scan at hscan
  split_ifs at hscan with hready hnewline
  · cases hscan
    obtain ⟨line, rest, hline, hbuffer, hcut⟩ := cutLine_of_mem hnewline
    have htext' := htext hnewline
    rw [hcut] at htext' ⊢
    exact h.wholeLine hline hbuffer htext'
  · cases hscan
    refine ⟨⟨h.pos, ?_, ?_, h.lineHead, h.lines⟩, rfl, rfl, .inl hready.1⟩
    · rw [← h.taken, Follower.taken, Follower.taken, cutLine_whole hnewline]
      simp only [List.append_assoc, List.append_nil]
    · rw [cutLine_whole hnewline]
      intro hmem
      rcases List.mem_append.mp hmem with hmem | hmem
      · exact h.buf hmem
      · exact hnewline hmem

end Follower

/-! ## The invariant of a run -/

/-- `watched` says that the follower has been told to wait for a lock that is held. -/
structure Situation.Kept (watched : Prop) (s : Situation) : Prop where
  target : s.target.Sound
  ahead : s.follower.sawLocked = true ∨ watched → s.target.lock ≠ .ahead
  blank : s.follower.phase = .opening ∨ s.follower.phase = .unopened → s.follower.Blank
  unopened : s.follower.phase = .unopened → s.target.lock = .released → s.target.log = none
  file : s.follower.phase.isActive = true → s.target.log = some s.follower.file
  reads : s.follower.phase.isActive = true → s.follower.Reads (s.target.disk s.follower.file)
  ended : s.follower.phase = .ended → s.follower.buf = [] ∧ s.follower.buffer = [] ∧
    (s.target.lock = .released → s.follower.pos = (s.target.disk s.follower.file).length)
  returned : s.follower.phase = .returned → s.follower.sawLocked = true ∨ watched →
    s.target.lock = .released ∧ s.follower.lines.map encode = wholeLines s.target.content
  failed : s.follower.phase ≠ .failed

variable {c : Call} {watched : Prop} {s s₀ s' : Situation} {t : Target} {f : Follower} {e : Event}

theorem Situation.Starts.kept (h : s.Starts) (hwatched : watched → s.target.lock ≠ .ahead) : s.Kept watched := by
  obtain ⟨htarget, hfollower⟩ := h
  constructor
  · exact htarget
  · rintro (hsaw | hw)
    · rw [hfollower] at hsaw
      cases hsaw
    · exact hwatched hw
  · intro _
    rw [hfollower]
    exact ⟨rfl, rfl, rfl, rfl, rfl⟩
  all_goals
    rw [hfollower]
    intro hphase
    cases hphase

/-- What the build may do: it writes behind what there is, and leaves an open log where it is. -/
structure Situation.Builds (s : Situation) (t : Target) : Prop where
  sound : t.Sound
  locked : s.target.lock ≠ .released
  ahead : t.lock = .ahead → s.target.lock = .ahead
  file : s.follower.phase.isActive = true → t.log = s.target.log ∧
    ∃ more, t.disk s.follower.file = s.target.disk s.follower.file ++ more
  released : t.lock = .released → (s.follower.phase = .unopened → t.log = none) ∧
    (s.follower.phase = .ended → s.follower.pos = (t.disk s.follower.file).length)

theorem Situation.Kept.builds (h : s.Kept watched) (hb : s.Builds t) : Situation.Kept watched { s with target := t } := by
  constructor
  · exact hb.sound
  · exact fun hw ht => h.ahead hw (hb.ahead ht)
  · exact h.blank
  · exact fun hphase ht => (hb.released ht).1 hphase
  · intro hactive
    exact (hb.file hactive).1.trans (h.file hactive)
  · intro hactive
    obtain ⟨more, hmore⟩ := (hb.file hactive).2
    change s.follower.Reads (t.disk s.follower.file)
    rw [hmore]
    exact (h.reads hactive).append more
  · intro hphase
    obtain ⟨hbuf, hbuffer, _⟩ := h.ended hphase
    exact ⟨hbuf, hbuffer, fun ht => (hb.released ht).2 hphase⟩
  · exact fun hphase hw => absurd (h.returned hphase hw).1 hb.locked
  · exact h.failed

theorem Target.acquire_builds (h : s.Kept watched) (ht : s.target.acquire = some t) : s.Builds t := by
  unfold Target.acquire at ht
  split_ifs at ht with hlock
  cases ht
  constructor
  · exact ⟨h.target.log, h.target.stderr, fun hahead => Lock.noConfusion hahead⟩
  · rw [hlock]
    exact Lock.noConfusion
  · exact fun hahead => Lock.noConfusion hahead
  · exact fun _ => ⟨rfl, [], (List.append_nil _).symm⟩
  · exact fun hreleased => Lock.noConfusion hreleased

theorem Target.rename_builds (hinactive : s.follower.phase.isActive = false)
    (ht : s.target.rename = some t) : s.Builds t := by
  unfold Target.rename at ht
  split_ifs at ht with hready
  cases ht
  constructor
  · constructor
    · intro i hi
      cases hi
      exact Nat.lt_succ_self _
    · exact fun _ hi => hi
    · intro hahead
      exact Lock.noConfusion (hready.1.symm.trans hahead)
  · rw [hready.1]
    exact Lock.noConfusion
  · exact id
  · intro hactive
    exact absurd hactive (by simp [hinactive])
  · intro hreleased
    exact Lock.noConfusion (hready.1.symm.trans hreleased)

theorem Target.write_builds (h : s.Kept watched) {chunk : List UInt8} (ht : s.target.write chunk = some t) :
    s.Builds t := by
  obtain ⟨i, hstderr, hi⟩ := Option.bind_eq_some_iff.mp ht
  split_ifs at hi with hlock
  cases hi
  constructor
  · exact ⟨h.target.log, h.target.stderr, h.target.ahead⟩
  · rw [hlock]
    exact Lock.noConfusion
  · exact id
  · intro hactive
    have hfile : s.follower.file = i := by
      have hlog := h.target.stderr i hstderr
      rw [h.file hactive] at hlog
      exact Option.some.inj hlog
    refine ⟨rfl, chunk, ?_⟩
    dsimp only
    rw [hfile, Function.update_self]
  · intro hreleased
    exact Lock.noConfusion (hlock.symm.trans hreleased)

theorem Target.release_builds (h : s.Kept watched) (hcalm : s.Undisturbed .release)
    (ht : s.target.release = some t) : s.Builds t := by
  unfold Target.release at ht
  split_ifs at ht with hlock
  cases ht
  constructor
  · exact ⟨h.target.log, h.target.stderr, fun hahead => Lock.noConfusion hahead⟩
  · rw [hlock]
    exact Lock.noConfusion
  · exact fun hahead => Lock.noConfusion hahead
  · exact fun _ => ⟨rfl, [], (List.append_nil _).symm⟩
  · exact fun _ => ⟨hcalm.2, hcalm.1⟩

/-! ## The steps of the follower -/

theorem Situation.Kept.openLog (h : s.Kept watched) (hf : s.follower.openLog s.target = some f) :
    Situation.Kept watched { s with follower := f } := by
  unfold Follower.openLog at hf
  split_ifs at hf with hphase
  have hblank := h.blank (.inl hphase)
  split at hf
  · next i hlog =>
    cases hf
    have hblank' : Follower.Blank { s.follower with phase := .reading, file := i } :=
      ⟨hblank.pos, hblank.buffer, hblank.buf, hblank.lineHead, hblank.lines⟩
    constructor
    · exact h.target
    · exact h.ahead
    · exact fun _ => hblank'
    · exact fun hunopened => Phase.noConfusion hunopened
    · exact fun _ => hlog
    · exact fun _ => hblank'.reads _
    · exact fun hended => Phase.noConfusion hended
    · exact fun hreturned => Phase.noConfusion hreturned
    · exact Phase.noConfusion
  · next hlog =>
    cases hf
    constructor
    · exact h.target
    · exact h.ahead
    · exact fun _ => ⟨hblank.pos, hblank.buffer, hblank.buf, hblank.lineHead, hblank.lines⟩
    · exact fun _ _ => hlog
    · exact fun hactive => Bool.noConfusion hactive
    · exact fun hactive => Bool.noConfusion hactive
    · exact fun hended => Phase.noConfusion hended
    · exact fun hreturned => Phase.noConfusion hreturned
    · exact Phase.noConfusion

/-- The follower looks again: it goes back to where it was before the end of the file. -/
theorem Situation.Kept.again (h : s.Kept watched) {saw : Bool} {phase : Phase}
    (hphase : s.follower.phase = .unopened ∧ phase = .opening ∨ s.follower.phase = .ended ∧ phase = .reading)
    (hsaw : saw = true → s.follower.sawLocked = true ∨ s.target.lock = .held) :
    Situation.Kept watched { s with follower := { s.follower with phase := phase, sawLocked := saw } } := by
  have hahead : saw = true ∨ watched → s.target.lock ≠ .ahead := by
    rintro (hs | hw)
    · rcases hsaw hs with hbefore | hheld
      · exact h.ahead (.inl hbefore)
      · rw [hheld]
        exact Lock.noConfusion
    · exact h.ahead (.inr hw)
  rcases hphase with ⟨hbefore, rfl⟩ | ⟨hbefore, rfl⟩
  · have hblank := h.blank (.inr hbefore)
    constructor
    · exact h.target
    · exact hahead
    · exact fun _ => ⟨hblank.pos, hblank.buffer, hblank.buf, hblank.lineHead, hblank.lines⟩
    all_goals exact fun hnot => by cases hnot
  · have hactive : s.follower.phase.isActive = true := by rw [hbefore]; rfl
    have hreads := h.reads hactive
    constructor
    · exact h.target
    · exact hahead
    · rintro (hnot | hnot) <;> cases hnot
    · exact fun hnot => by cases hnot
    · exact fun _ => h.file hactive
    · exact fun _ => ⟨hreads.pos, hreads.taken, hreads.buf, hreads.lineHead, hreads.lines⟩
    all_goals exact fun hnot => by cases hnot

/-- The follower returns. If it was told to wait, the lock has been released and all is read. -/
theorem Situation.Kept.stop (h : s.Kept watched)
    (hphase : s.follower.phase = .unopened ∨ s.follower.phase = .ended) (hlock : s.target.lock ≠ .held) :
    Situation.Kept watched { s with follower := { s.follower with phase := .returned } } := by
  have hreleased : s.follower.sawLocked = true ∨ watched → s.target.lock = .released := by
    intro hw
    have hahead := h.ahead hw
    cases hl : s.target.lock with
    | ahead => exact absurd hl hahead
    | held => exact absurd hl hlock
    | released => rfl
  constructor
  · exact h.target
  · exact h.ahead
  · rintro (hnot | hnot) <;> cases hnot
  · exact fun hnot => by cases hnot
  · exact fun hnot => by cases hnot
  · exact fun hnot => by cases hnot
  · exact fun hnot => by cases hnot
  · intro _ hw
    refine ⟨hreleased hw, ?_⟩
    change s.follower.lines.map encode = wholeLines s.target.content
    rcases hphase with hphase | hphase
    · rw [Target.content, h.unopened hphase (hreleased hw), (h.blank (.inr hphase)).lines]
      rfl
    · have hactive : s.follower.phase.isActive = true := by rw [hphase]; rfl
      obtain ⟨hbuf, hbuffer, hend⟩ := h.ended hphase
      rw [Target.content, h.file hactive]
      exact (h.reads hactive).wholeLines (hend (hreleased hw)) hbuf hbuffer
  · exact Phase.noConfusion

theorem Situation.Kept.probe (h : s.Kept watched) {graceOver : Bool}
    (hf : s.follower.probe c s.target graceOver = some f) :
    Situation.Kept watched { s with follower := f } := by
  unfold Follower.probe at hf
  obtain ⟨phase, hphase, hf⟩ := Option.map_eq_some_iff.mp hf
  have hlooks : s.follower.phase = .unopened ∧ phase = .opening ∨
      s.follower.phase = .ended ∧ phase = .reading := by
    split at hphase
    · next hbefore => exact .inl ⟨hbefore, (Option.some.inj hphase).symm⟩
    · next hbefore => exact .inr ⟨hbefore, (Option.some.inj hphase).symm⟩
    · cases hphase
  split_ifs at hf with hheld hgrace
  · cases hf
    exact h.again hlooks fun _ => .inr hheld
  · cases hf
    have hagain := @Situation.Kept.again watched s h s.follower.sawLocked phase hlooks .inl
    exact hagain
  · cases hf
    exact h.stop (hlooks.imp And.left And.left) hheld

theorem Situation.Kept.advances (h : s.Kept watched) (hphase : s.follower.phase = .reading)
    (hf : Follower.Advances (s.target.disk s.follower.file) s.follower f) :
    Situation.Kept watched { s with follower := f } := by
  have hactive : s.follower.phase.isActive = true := by rw [hphase]; rfl
  constructor
  · exact h.target
  · intro hw
    rw [hf.sawLocked] at hw
    exact h.ahead hw
  · intro hnot
    rcases hf.phase with hp | hp | hp <;> simp [hp] at hnot
  · intro hnot
    rcases hf.phase with hp | hp | hp <;> simp [hp] at hnot
  · intro _
    rw [hf.file]
    exact h.file hactive
  · intro _
    rw [hf.file]
    exact hf.reads
  · intro hended
    rcases hf.phase with hp | hp | ⟨_, hbuf, hbuffer, hpos⟩
    · exact Phase.noConfusion (hp.symm.trans hended)
    · exact Phase.noConfusion (hp.symm.trans hended)
    · rw [hf.file]
      exact ⟨hbuf, hbuffer, fun _ => hpos⟩
  · intro hnot
    rcases hf.phase with hp | hp | hp <;> simp [hp] at hnot
  · intro hnot
    rcases hf.phase with hp | hp | hp <;> simp [hp] at hnot

theorem Situation.Kept.resume (h : s.Kept watched) (hf : s.follower.resume true = some f) :
    Situation.Kept watched { s with follower := f } := by
  unfold Follower.resume at hf
  rw [if_pos (c := true = true) rfl] at hf
  split_ifs at hf with hphase
  cases hf
  have hactive : s.follower.phase.isActive = true := by rw [hphase]; rfl
  have hreads := h.reads hactive
  constructor
  · exact h.target
  · exact h.ahead
  · rintro (hnot | hnot) <;> cases hnot
  · exact fun hnot => by cases hnot
  · exact fun _ => h.file hactive
  · exact fun _ => ⟨hreads.pos, hreads.taken, hreads.buf, hreads.lineHead, hreads.lines⟩
  all_goals exact fun hnot => by cases hnot

/-! ## Nothing is lost -/

theorem Situation.Kept.step (h : s.Kept watched) (hcalm : s.Undisturbed e) (hstep : s.step c e = some s') :
    s'.Kept watched := by
  cases e with
  | acquire =>
    obtain ⟨t, ht, rfl⟩ := Option.map_eq_some_iff.mp hstep
    exact h.builds (Target.acquire_builds h ht)
  | rename =>
    obtain ⟨t, ht, rfl⟩ := Option.map_eq_some_iff.mp hstep
    exact h.builds (Target.rename_builds hcalm ht)
  | write chunk =>
    obtain ⟨t, ht, rfl⟩ := Option.map_eq_some_iff.mp hstep
    exact h.builds (Target.write_builds h ht)
  | release =>
    obtain ⟨t, ht, rfl⟩ := Option.map_eq_some_iff.mp hstep
    exact h.builds (Target.release_builds h hcalm ht)
  | openLog =>
    obtain ⟨f, hf, rfl⟩ := Option.map_eq_some_iff.mp hstep
    exact h.openLog hf
  | probe graceOver =>
    obtain ⟨f, hf, rfl⟩ := Option.map_eq_some_iff.mp hstep
    exact h.probe hf
  | fill n =>
    obtain ⟨f, hf, rfl⟩ := Option.map_eq_some_iff.mp hstep
    have hphase := Follower.fill_phase hf
    have hreads := h.reads (by rw [hphase]; rfl)
    exact h.advances hphase (Follower.fill_advances hf hreads hcalm)
  | scan =>
    obtain ⟨f, hf, rfl⟩ := Option.map_eq_some_iff.mp hstep
    have hphase := Follower.scan_phase hf
    have hreads := h.reads (by rw [hphase]; rfl)
    exact h.advances hphase (Follower.scan_advances hf hreads hcalm)
  | resume ok =>
    obtain ⟨f, hf, rfl⟩ := Option.map_eq_some_iff.mp hstep
    obtain rfl : ok = true := hcalm
    exact h.resume hf

/-- When the follower is at its end, and saw the lock held or was called by the top-level pipe while
it was, then the lock has been released, and the lines of the log are gone through once and in order. -/
theorem follows {s₀ s : Situation} (hstart : s₀.Starts)
    (hrun : ReflTransGen (Situation.Moved c Situation.Undisturbed) s₀ s) (hover : s.follower.phase.isOver = true)
    (hwatched : s.follower.sawLocked = true ∨ c.stdinMode = true ∧ s₀.target.lock = .held) :
    s.target.lock = .released ∧ s.follower.lines.map encode = wholeLines s.target.content := by
  have hkept : s.Kept (c.stdinMode = true ∧ s₀.target.lock = .held) := by
    clear hover hwatched
    induction hrun with
    | refl => exact hstart.kept fun hw => by rw [hw.2]; exact Lock.noConfusion
    | tail _ hmoved ih =>
      obtain ⟨e, hcalm, hstep⟩ := hmoved
      exact ih.step hcalm hstep
  cases hphase : s.follower.phase with
  | returned => exact hkept.returned hphase hwatched
  | failed => exact absurd hphase hkept.failed
  | opening => rw [hphase] at hover; cases hover
  | unopened => rw [hphase] at hover; cases hover
  | reading => rw [hphase] at hover; cases hover
  | ended => rw [hphase] at hover; cases hover
  | recursing => rw [hphase] at hover; cases hover

/-- Events one after another, each with `P` before it. -/
def Situation.play (c : Call) (P : Situation → Event → Prop) [∀ s e, Decidable (P s e)] :
    List Event → Situation → Option Situation
  | [], s => some s
  | e :: es, s => if P s e then (s.step c e).bind (Situation.play c P es) else none

theorem Situation.run_of_play {P : Situation → Event → Prop} [∀ s e, Decidable (P s e)] {es : List Event}
    (h : (s.play c P es).isSome = true) :
    ReflTransGen (Situation.Moved c P) s ((s.play c P es).getD s) := by
  obtain ⟨s', hs'⟩ := Option.isSome_iff_exists.mp h
  rw [hs', Option.getD_some]
  clear h
  induction es generalizing s with
  | nil =>
    cases hs'
    exact .refl
  | cons e es ih =>
    rw [Situation.play] at hs'
    split_ifs at hs' with hP
    obtain ⟨s₁, hstep, hrest⟩ := Option.bind_eq_some_iff.mp hs'
    exact (ih hrest).head ⟨e, hP, hstep⟩

instance (s : Situation) (e : Event) : Decidable (s.Undisturbed e) :=
  match e with
  | .rename => inferInstanceAs (Decidable (_ = false))
  | .release => inferInstanceAs (Decidable ((_ → _) ∧ (_ → _)))
  | .fill _ => inferInstanceAs (Decidable (_ → _))
  | .scan => inferInstanceAs (Decidable (_ → _))
  | .resume ok => inferInstanceAs (Decidable (ok = true))
  | .acquire | .write _ | .openLog | .probe _ => inferInstanceAs (Decidable True)

/-- Nothing has been built, and `redo-log -f` starts. -/
def quiet : Situation where
  target := { disk := fun _ => [], used := 0, log := none, stderr := none, lock := .ahead }

theorem quiet_starts : quiet.Starts where
  target := ⟨fun _ hlog => (by cases hlog), fun _ hstderr => (by cases hstderr), fun _ => rfl⟩
  follower := rfl

def watching : Call where
  options := noOptions false 0
  mydir := []
  stdinMode := false

/-- A build that writes two lines in two pieces, and ends while the follower waits. -/
def slow : List Event :=
  [.openLog, .acquire, .probe false, .rename, .openLog, .write (encode "start\nmid".toList), .fill 99,
    .scan, .scan, .fill 99, .fill 99, .probe false, .write (encode "dle\n".toList), .fill 2, .scan,
    .release, .fill 99, .scan, .fill 99, .probe false]

def slowEnd : Situation := (quiet.play watching Situation.Undisturbed slow).getD quiet

theorem slow_run : ReflTransGen (Situation.Moved watching Situation.Undisturbed) quiet slowEnd :=
  Situation.run_of_play (by decide +kernel)

theorem follows_slow : slowEnd.follower.lines = ["start".toList, "middle".toList] ∧
    slowEnd.target.lock = .released ∧
      slowEnd.follower.lines.map encode = wholeLines slowEnd.target.content :=
  ⟨by decide +kernel, follows quiet_starts slow_run (by decide +kernel) (.inl (by decide +kernel))⟩

/-- The build writes its last line and releases the lock between the follower's two looks. -/
def hurried : List Event :=
  [.openLog, .acquire, .probe false, .rename, .openLog, .fill 99, .write (encode "end\n".toList), .release,
    .probe false]

def hurriedEnd : Situation := (quiet.play watching (fun _ _ => True) hurried).getD quiet

theorem not_follows : ¬ ∀ (c : Call) (s₀ s : Situation), s₀.Starts →
    ReflTransGen (Situation.Moved c fun _ _ => True) s₀ s → s.follower.phase.isOver = true →
    s.follower.sawLocked = true ∨ c.stdinMode = true ∧ s₀.target.lock = .held →
    s.target.lock = .released ∧ s.follower.lines.map encode = wholeLines s.target.content := by
  intro h
  have hrun : ReflTransGen (Situation.Moved watching fun _ _ => True) quiet hurriedEnd :=
    Situation.run_of_play (by decide +kernel)
  have hfollows := h watching quiet hurriedEnd quiet_starts hrun (by decide +kernel)
    (.inl (by decide +kernel))
  exact absurd hfollows.2 (by decide +kernel)

/-- A read that ends inside a character ends `redo-log`. -/
example : ((quiet.play watching (fun _ _ => True)
    [.acquire, .rename, .openLog, .write [0xC3], .fill 99, .scan, .fill 99]).map fun s =>
      s.follower.phase) = some .failed := by
  decide +kernel

end Redo.Logs
