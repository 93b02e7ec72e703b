import Mathlib.Data.List.Chain
import Redo.Cache.Local

/-! # Entries that do not belong together

A lookup reads the metadata, the blob is copied later. They fit as long as every store puts its
files only beside what they fit, in the cache and in the hands of the processes that have looked.
-/
namespace Redo.Cache.Local
open Library Remote Relation

variable (H : Hashing (List UInt8))

/-- The bytes have the size and the digest of the metadata. -/
structure Describes (m : CachedMeta) (b : List UInt8) : Prop where
  size : m.size.toNat = b.length
  sha256 : m.sha256 = H.sha b

variable {ι : Type*}

/-- These bytes fit the metadata of the entry and what has been looked up of it. -/
structure Fits (c : Crowd ι Objects Worker) (k : ActionKey) (b : List UInt8) : Prop where
  stored : ∀ x t, c.shared.file (.metadata, k) = some x → decode x = some t → Describes H (readMeta t) b
  found : ∀ j m, (c.threads j).phase = .found k m → Describes H m b

/-- Where a store has put a file into place, it fits the other one. -/
structure Permits (c c' : Crowd ι Objects Worker) : Prop where
  blob : ∀ i k mode size b, (c.threads i).phase = .placing k (.blob mode size) (.rename b) →
    (c'.threads i).phase = (Job.blob mode size).next H k b → Fits H c k b
  metadata : ∀ i k m b, (c.threads i).phase = .placing k (.metadata m) (.rename b) →
    (c'.threads i).phase = (Job.metadata m).next H k b →
      ∀ x, c.shared.file (.blob, k) = some x → Describes H m x

def Phase.reading : Phase → Bool
  | .idle | .lookupBlob _ | .lookupMeta _ | .lookupRead _ | .found _ _ | .made _ _ => true
  | _ => false

/-- The steps of lookups and of what follows them. -/
def Reads : Moves Objects Worker := fun s w s' w' => Works H s w s' w' ∧ w'.phase.reading

/-- Whatever is looked up and materialized from now on, without further stores, is as it is
described. -/
def Safe [DecidableEq ι] (c : Crowd ι Objects Worker) : Prop :=
  ∀ c', ReflTransGen (Crowd.Step (Reads H)) c c' →
    ∀ i m b, (c'.threads i).phase = .made m b → Describes H m b

/-- Nothing in the cache, and no process at work on it. -/
structure Fresh (c : Crowd ι Objects Worker) : Prop where
  file : ∀ x, c.shared.file x = none
  phase : ∀ i, (c.threads i).phase = .idle

def Worker.held (w : Worker) : Option ((Side × ActionKey × ℕ) × List UInt8) :=
  match w.phase with
  | .placing k job stage => stage.written.map fun b => ((job.side, k, w.pid), b)
  | _ => none

/-- The temporary files are the writers' own. -/
structure Held (c : Crowd ι Objects Worker) : Prop where
  content : ∀ i x b, (c.threads i).held = some (x, b) → c.shared.tmp x = some b
  alone : ∀ i j x b b', (c.threads i).held = some (x, b) → (c.threads j).held = some (x, b') → i = j

/-- Metadata on its way has a digest, and is written out before it is put into place. -/
def Worker.Proper (w : Worker) : Prop :=
  ∀ k m stage, w.phase = .placing k (.metadata m) stage →
    isHex m.sha256 ∧ ∀ b, stage = .rename b → b = encode (metaText m)

/-- What a step does to the temporary files. -/
inductive Tmp (s : Objects) (w : Worker) (s' : Objects) (w' : Worker) : Prop
  | same (h : s'.tmp = s.tmp) (hw : w'.held = none ∨ w'.held = w.held)
  | create (x : Side × ActionKey × ℕ) (b : List UInt8) (hx : s.tmp x = none)
    (h : s'.tmp = Function.update s.tmp x (some b)) (hw : w'.held = some (x, b))
  | write (x : Side × ActionKey × ℕ) (b b' : List UInt8) (hx : w.held = some (x, b))
    (h : s'.tmp = Function.update s.tmp x (some b')) (hw : w'.held = some (x, b'))
  | remove (x : Side × ActionKey × ℕ) (b : List UInt8) (hx : w.held = some (x, b))
    (h : s'.tmp = Function.update s.tmp x none) (hw : w'.held = none)

/-- What a step does to the files of the entries. -/
inductive Files (s : Objects) (w : Worker) (s' : Objects) (w' : Worker) : Prop
  | same (h : s'.file = s.file)
  | unlink (x : Side × ActionKey) (h : s'.file = Function.update s.file x none)
  | rename (k : ActionKey) (job : Job) (b y : List UInt8) (hw : w.phase = .placing k job (.rename b))
    (hy : s.tmp (job.side, k, w.pid) = some y)
    (h : s'.file = Function.update s.file (job.side, k) (some y)) (hw' : w'.phase = job.next H k b)

variable {H} {s s' : Objects} {w w' : Worker}

@[simp] theorem held_next (p n : ℕ) (k : ActionKey) (job : Job) (b : List UInt8) :
    Worker.held ⟨p, n, job.next H k b⟩ = none := by
  cases job <;> rfl

@[simp] theorem held_failed (p n : ℕ) (job : Job) : Worker.held ⟨p, n, job.failed⟩ = none := by
  cases job <;> rfl

theorem works_tmp (h : Works H s w s' w') : Tmp s w s' w' := by
  cases h with
  | create hnone => exact .create _ [] hnone rfl rfl
  | fill hpart => exact .write _ _ _ rfl rfl rfl
  | filled => exact .same rfl (Or.inr rfl)
  | rename hx => exact .remove _ _ rfl rfl (held_next _ _ _ _ _)
  | renameFailed | other => exact .same rfl (Or.inr rfl)
  | drop => exact .remove _ _ rfl rfl (held_next _ _ _ _ _)
  | dropFailed => exact .same rfl (Or.inl (held_next _ _ _ _ _))
  | createFailed | fillFailed | lost => exact .same rfl (Or.inl (held_failed _ _ _))
  | _ => exact .same rfl (Or.inl rfl)

theorem works_file (h : Works H s w s' w') : Files H s w s' w' := by
  cases h with
  | rename hx => exact .rename _ _ _ _ rfl hx rfl rfl
  | unlinkBlob | unlinkMeta => exact .unlink _ rfl
  | _ => exact .same rfl

theorem next_ne {q : Phase} (hq : q.reading = true) (k : ActionKey) (job : Job) (b : List UInt8) :
    job.next H k b ≠ q := by
  rintro rfl
  cases job <;> cases hq

theorem failed_reading_ne {q : Phase} (hq : q.reading = true) (hidle : q ≠ .idle) (job : Job) :
    job.failed ≠ q := by
  rintro rfl
  cases job with
  | blob mode size => exact hidle rfl
  | metadata m => cases hq

theorem works_found {k : ActionKey} {m : CachedMeta} (h : Works H s w s' w')
    (hfound : w'.phase = .found k m) :
    s' = s ∧ ∃ x t, s.file (.metadata, k) = some x ∧ decode x = some t ∧ m = readMeta t := by
  cases h with
  | lookupRead hx ht =>
    cases hfound
    exact ⟨rfl, _, _, hx, ht, rfl⟩
  | rename | drop | dropFailed => exact absurd hfound (next_ne rfl _ _ _)
  | createFailed | fillFailed | lost => exact absurd hfound (failed_reading_ne rfl Phase.noConfusion _)
  | _ => cases hfound

theorem works_made {m : CachedMeta} {b : List UInt8} (h : Works H s w s' w')
    (hmade : w'.phase = .made m b) :
    s' = s ∧ ∃ k, w.phase = .found k m ∧ s.file (.blob, k) = some b := by
  cases h with
  | materialize hb =>
    cases hmade
    exact ⟨rfl, _, rfl, hb⟩
  | rename | drop | dropFailed => exact absurd hmade (next_ne rfl _ _ _)
  | createFailed | fillFailed | lost => exact absurd hmade (failed_reading_ne rfl Phase.noConfusion _)
  | _ => cases hmade

/-- Only by its rename a store gets from there to what comes next. -/
theorem works_renamed {k : ActionKey} {job : Job} {b : List UInt8} (h : Works H s w s' w')
    (hw : w.phase = .placing k job (.rename b)) (hw' : w'.phase = job.next H k b) :
    ∃ y, s.tmp (job.side, k, w.pid) = some y ∧
      s'.file = Function.update s.file (job.side, k) (some y) := by
  cases h with
  | rename hx =>
    cases hw
    exact ⟨_, hx, rfl⟩
  | renameFailed =>
    cases hw
    cases job <;> cases hw'
  | stop => exact absurd hw'.symm (next_ne rfl _ _ _)
  | _ => cases hw

theorem next_proper (k : ActionKey) (job : Job) (b : List UInt8) (p n : ℕ) :
    Worker.Proper ⟨p, n, job.next H k b⟩ := by
  intro k' m stage hphase
  cases job with
  | blob mode size =>
    cases hphase
    exact ⟨isDigest_isHex (H.sha_isDigest b), fun b' hb => by cases hb⟩
  | metadata m' => cases hphase

theorem failed_proper (job : Job) (p n : ℕ) : Worker.Proper ⟨p, n, job.failed⟩ := by
  intro k' m stage hphase
  cases job <;> cases hphase

theorem works_proper (h : Works H s w s' w') (hw : w.Proper) : w'.Proper := by
  cases h with
  | rename | drop | dropFailed => exact next_proper _ _ _ _ _
  | createFailed | fillFailed | lost => exact failed_proper _ _ _
  | _ =>
    intro k m stage hphase
    cases hphase
    try exact ⟨(hw _ _ _ rfl).1, fun b hb => by cases hb <;> assumption⟩

variable {c c' : Crowd ι Objects Worker}

/-- What a worker holds after its step, nobody else holds. -/
theorem Held.only (h : Held c) {i : ι} (htmp : Tmp c.shared (c.threads i) s w) {j : ι} (hj : j ≠ i)
    {x : Side × ActionKey × ℕ} {b b' : List UInt8} (hw : w.held = some (x, b)) :
    (c.threads j).held ≠ some (x, b') := by
  intro hother
  cases htmp with
  | same hsame hkept =>
    rcases hkept with hnone | hkept
    · rw [hnone] at hw
      cases hw
    · exact hj (h.alone _ _ _ _ _ hother (hkept ▸ hw))
  | create y d hx hset hnew =>
    cases hw.symm.trans hnew
    rw [h.content _ _ _ hother] at hx
    cases hx
  | write y d d' hx hset hnew =>
    cases hw.symm.trans hnew
    exact hj (h.alone _ _ _ _ _ hother hx)
  | remove y d hx hset hnew =>
    rw [hnew] at hw
    cases hw

theorem Held.others (h : Held c) {i : ι} (htmp : Tmp c.shared (c.threads i) s w) {j : ι} (hj : j ≠ i)
    {x : Side × ActionKey × ℕ} {b : List UInt8} (hx : (c.threads j).held = some (x, b)) :
    s.tmp x = some b := by
  have hbefore := h.content j x b hx
  cases htmp with
  | same hsame hkept => rw [hsame, hbefore]
  | create y d hnone hset hnew =>
    have hne : x ≠ y := by
      rintro rfl
      rw [hbefore] at hnone
      cases hnone
    rw [hset, Function.update_of_ne hne, hbefore]
  | write y d d' hown hset hnew =>
    have hne : x ≠ y := by
      rintro rfl
      exact hj (h.alone _ _ _ _ _ hx hown)
    rw [hset, Function.update_of_ne hne, hbefore]
  | remove y d hown hset hnew =>
    have hne : x ≠ y := by
      rintro rfl
      exact hj (h.alone _ _ _ _ _ hx hown)
    rw [hset, Function.update_of_ne hne, hbefore]

theorem Held.own (h : Held c) {i : ι} (htmp : Tmp c.shared (c.threads i) s w)
    {x : Side × ActionKey × ℕ} {b : List UInt8} (hw : w.held = some (x, b)) : s.tmp x = some b := by
  cases htmp with
  | same hsame hkept =>
    rcases hkept with hnone | hkept
    · rw [hnone] at hw
      cases hw
    · rw [hsame]
      exact h.content i x b (hkept ▸ hw)
  | create y d hnone hset hnew =>
    cases hw.symm.trans hnew
    rw [hset, Function.update_self]
  | write y d d' hown hset hnew =>
    cases hw.symm.trans hnew
    rw [hset, Function.update_self]
  | remove y d hown hset hnew =>
    rw [hnew] at hw
    cases hw

section Steps
variable [DecidableEq ι]

theorem Held.step (h : Held c) (hs : c.Step (Works H) c') : Held c' := by
  cases hs with
  | @move i s w hact =>
    have htmp := works_tmp hact
    constructor
    · intro j x b hx
      by_cases hj : j = i
      · subst hj
        simp only [Function.update_self] at hx
        exact h.own htmp hx
      · simp only [Function.update_of_ne hj] at hx
        exact h.others htmp hj hx
    · intro j l x b b' hx hx'
      by_cases hj : j = i
      · by_cases hl : l = i
        · rw [hj, hl]
        · subst hj
          simp only [Function.update_self] at hx
          simp only [Function.update_of_ne hl] at hx'
          exact absurd hx' (h.only htmp hl hx)
      · simp only [Function.update_of_ne hj] at hx
        by_cases hl : l = i
        · subst hl
          simp only [Function.update_self] at hx'
          exact absurd hx (h.only htmp hj hx')
        · simp only [Function.update_of_ne hl] at hx'
          exact h.alone j l x b b' hx hx'

/-- What the steps keep: the temporary files are what their writers make of them. -/
structure Sound (c : Crowd ι Objects Worker) : Prop where
  held : Held c
  proper : ∀ i, (c.threads i).Proper

theorem Sound.step (h : Sound c) (hs : c.Step (Works H) c') : Sound c' := by
  refine ⟨h.held.step hs, ?_⟩
  cases hs with
  | @move i s w hact =>
    intro j
    by_cases hj : j = i
    · subst hj
      simp only [Function.update_self]
      exact works_proper hact (h.proper j)
    · simp only [Function.update_of_ne hj]
      exact h.proper j

theorem of_update_none {α β : Type*} [DecidableEq α] {f : α → Option β} {x y : α} {b : β}
    (h : Function.update f x none y = some b) : f y = some b := by
  by_cases hxy : y = x
  · rw [hxy, Function.update_self] at h
    cases h
  · rwa [Function.update_of_ne hxy] at h

/-- A state in which everything fits. -/
structure Good (H : Hashing (List UInt8)) (c : Crowd ι Objects Worker) : Prop where
  pair : ∀ k x t b, c.shared.file (.metadata, k) = some x → decode x = some t →
    c.shared.file (.blob, k) = some b → Describes H (readMeta t) b
  found : ∀ i k m b, (c.threads i).phase = .found k m → c.shared.file (.blob, k) = some b →
    Describes H m b
  made : ∀ i m b, (c.threads i).phase = .made m b → Describes H m b

omit [DecidableEq ι] in
/-- A store brings the bytes it has copied, or the metadata it has made. -/
theorem Sound.brings (h : Sound c) {i : ι} {k : ActionKey} {job : Job} {b y : List UInt8}
    (hw : (c.threads i).phase = .placing k job (.rename b))
    (hy : c.shared.tmp (job.side, k, (c.threads i).pid) = some y) :
    y = b ∧ ∀ m, job = .metadata m → decode y = some (metaText m) ∧ readMeta (metaText m) = m := by
  have hheld : (c.threads i).held = some ((job.side, k, (c.threads i).pid), b) := by
    rw [Worker.held, hw]
    rfl
  have hyb : y = b := Option.some.inj (hy.symm.trans (h.held.content i _ _ hheld))
  refine ⟨hyb, ?_⟩
  rintro m rfl
  obtain ⟨hhex, hwhole⟩ := h.proper i k m _ hw
  rw [hyb, hwhole b rfl, decode_encode]
  exact ⟨rfl, readMeta_metaText hhex⟩

theorem Good.step (h : Good H c) (hc : Sound c) (hs : c.Step (Works H) c') (hpermits : Permits H c c') :
    Good H c' := by
  cases hs with
  | @move i s w hact =>
    have hphase : ∀ {j}, j ≠ i → Function.update c.threads i w j = c.threads j := fun hj =>
      Function.update_of_ne hj w c.threads
    have hself : (Function.update c.threads i w i).phase = w.phase :=
      congrArg Worker.phase (Function.update_self i w c.threads)
    have hfiles := works_file hact
    constructor
    · intro k x t b hx ht hb
      cases hfiles with
      | same hsame =>
        rw [hsame] at hx hb
        exact h.pair k x t b hx ht hb
      | unlink y hunlink =>
        rw [hunlink] at hx hb
        exact h.pair k x t b (of_update_none hx) ht (of_update_none hb)
      | rename l job d y hw hy hset hw' =>
        obtain ⟨rfl, hmeta⟩ := hc.brings hw hy
        rw [hset] at hx hb
        cases job with
        | blob mode size =>
          have hfits := hpermits.blob i l mode size y hw (hself.trans hw')
          have hold : c.shared.file (.metadata, k) = some x := by
            rwa [Function.update_of_ne (by simp [Job.side])] at hx
          by_cases hk : k = l
          · subst hk
            rw [Job.side, Function.update_self] at hb
            cases hb
            exact hfits.stored x t hold ht
          · rw [Function.update_of_ne (by simp [Job.side, hk])] at hb
            exact h.pair k x t b hold ht hb
        | metadata m =>
          obtain ⟨hdecode, hread⟩ := hmeta m rfl
          have hold : c.shared.file (.blob, k) = some b := by
            rwa [Function.update_of_ne (by simp [Job.side])] at hb
          by_cases hk : k = l
          · subst hk
            rw [Job.side, Function.update_self] at hx
            cases hx
            cases hdecode.symm.trans ht
            rw [hread]
            exact hpermits.metadata i k m x hw (hself.trans hw') b hold
          · rw [Function.update_of_ne (by simp [Job.side, hk])] at hx
            exact h.pair k x t b hx ht hold
    · intro j k m b hj hb
      by_cases hji : j = i
      · subst hji
        obtain ⟨rfl, x, t, hx, ht, rfl⟩ := works_found hact (hself.symm.trans hj)
        exact h.pair k x t b hx ht hb
      · simp only [hphase hji] at hj
        cases hfiles with
        | same hsame =>
          rw [hsame] at hb
          exact h.found j k m b hj hb
        | unlink y hunlink =>
          rw [hunlink] at hb
          exact h.found j k m b hj (of_update_none hb)
        | rename l job d y hw hy hset hw' =>
          obtain ⟨rfl, -⟩ := hc.brings hw hy
          rw [hset] at hb
          cases job with
          | blob mode size =>
            by_cases hk : k = l
            · subst hk
              rw [Job.side, Function.update_self] at hb
              cases hb
              exact (hpermits.blob i k mode size b hw (hself.trans hw')).found j m hj
            · rw [Function.update_of_ne (by simp [Job.side, hk])] at hb
              exact h.found j k m b hj hb
          | metadata m' =>
            rw [Function.update_of_ne (by simp [Job.side])] at hb
            exact h.found j k m b hj hb
    · intro j m b hj
      by_cases hji : j = i
      · subst hji
        obtain ⟨rfl, k, hk, hb⟩ := works_made hact (hself.symm.trans hj)
        exact h.found j k m b hk hb
      · simp only [hphase hji] at hj
        exact h.made j m b hj

theorem next_ne_rename (k : ActionKey) (job : Job) (b : List UInt8) :
    job.next H k b ≠ .placing k job (.rename b) := by
  intro h
  cases job <;> cases h

/-- A step after which everything fits is a permitted one. -/
theorem Good.permits (h : Good H c') (hc : Sound c) (hs : c.Step (Works H) c') : Permits H c c' := by
  cases hs with
  | @move i s w hact =>
    have hself : (Function.update c.threads i w i).phase = w.phase :=
      congrArg Worker.phase (Function.update_self i w c.threads)
    have hstays : ∀ {j q}, j ≠ i → (c.threads j).phase = q →
        (Function.update c.threads i w j).phase = q := fun hj hq =>
      (congrArg Worker.phase (Function.update_of_ne hj w c.threads)).trans hq
    -- only the worker that makes the step can have renamed its file
    have hmover : ∀ {j k job b}, (c.threads j).phase = .placing k job (.rename b) →
        (Function.update c.threads i w j).phase = job.next H k b → j = i := by
      intro j k job b hw hw'
      by_contra hj
      exact next_ne_rename k job b (hw'.symm.trans (hstays hj hw))
    constructor
    · intro j k mode size b hw hw'
      obtain rfl := hmover hw hw'
      obtain ⟨y, hy, hset⟩ := works_renamed hact hw (hself.symm.trans hw')
      obtain ⟨rfl, -⟩ := hc.brings hw hy
      have hblob : s.file (.blob, k) = some y := by
        rw [hset]
        exact Function.update_self _ _ _
      constructor
      · intro x t hx ht
        have hx' : s.file (.metadata, k) = some x := by
          rw [hset, Function.update_of_ne (by simp [Job.side]), hx]
        exact h.pair k x t y hx' ht hblob
      · intro l m hl
        have hne : l ≠ j := by
          rintro rfl
          rw [hw] at hl
          cases hl
        exact h.found l k m y (hstays hne hl) hblob
    · intro j k m b hw hw' x hx
      obtain rfl := hmover hw hw'
      obtain ⟨y, hy, hset⟩ := works_renamed hact hw (hself.symm.trans hw')
      obtain ⟨-, hmeta⟩ := hc.brings hw hy
      obtain ⟨hdecode, hread⟩ := hmeta m rfl
      have hstored : s.file (.metadata, k) = some y := by
        rw [hset]
        exact Function.update_self _ _ _
      have hx' : s.file (.blob, k) = some x := by
        rw [hset, Function.update_of_ne (by simp [Job.side]), hx]
      have hfits := h.pair k y _ x hstored hdecode hx'
      rwa [hread] at hfits

/-- Lookups are permitted whatever they find. -/
theorem reads_permits (hs : c.Step (Reads H) c') : c.Step (Works H) c' ∧ Permits H c c' := by
  cases hs with
  | @move i s w hact =>
    have hnever : ∀ {j k job b}, (c.threads j).phase = .placing k job (.rename b) →
        (Function.update c.threads i w j).phase ≠ job.next H k b := by
      intro j k job b hw hw'
      by_cases hj : j = i
      · subst hj
        rw [Function.update_self] at hw'
        exact next_ne hact.2 k job b hw'.symm
      · rw [Function.update_of_ne hj, hw] at hw'
        exact next_ne_rename k job b hw'.symm
    exact ⟨.move i hact.1, fun j k mode size b hw hw' => absurd hw' (hnever hw),
      fun j k m b hw hw' => absurd hw' (hnever hw)⟩

theorem Good.safe (h : Good H c) (hc : Sound c) : Safe H c := by
  intro c' hrun
  have hkept : Sound c' ∧ Good H c' := by
    induction hrun with
    | refl => exact ⟨hc, h⟩
    | tail _ hs ih =>
      obtain ⟨hstep, hpermits⟩ := reads_permits hs
      exact ⟨ih.1.step hstep, ih.2.step ih.1 hstep hpermits⟩
  exact hkept.2.made

/-- A process that looks the entry up now, and then copies the blob. -/
theorem lookup_run (w : Worker) (s : Objects) {k : ActionKey} {x b : List UInt8} {t : Text}
    (hx : s.file (.metadata, k) = some x) (ht : decode x = some t) (hb : s.file (.blob, k) = some b) :
    (Reads H).Alone (s, w) (s, ⟨w.pid, w.maxBytes, .made (readMeta t) b⟩) := by
  have hblob : (s.file (.blob, k)).isSome := by rw [hb]; rfl
  have hmeta : (s.file (.metadata, k)).isSome := by rw [hx]; rfl
  refine .head ⟨.stop w.pid w.maxBytes, rfl⟩ (.head ⟨.lookup k, rfl⟩ (.head ⟨.lookupBlob hblob, rfl⟩ ?_))
  exact .head ⟨.lookupMeta hmeta, rfl⟩
    (.head ⟨.lookupRead hx ht, rfl⟩ (.head ⟨.materialize hb, rfl⟩ .refl))

theorem lookup_works {x y : Objects × Worker} (h : (Reads H).Alone x y) : (Works H).Alone x y :=
  ReflTransGen.mono (fun _ _ hs => hs.1) x y h

theorem Safe.good (h : Safe H c) (i : ι) : Good H c := by
  have hlast : ∀ {j w m b},
      (Reads H).Alone (c.shared, c.threads j) (c.shared, w) → w.phase = .made m b →
        Describes H m b := by
    intro j w m b hrun hw
    refine h _ (Crowd.alone j hrun) j m b ?_
    simp only [Function.update_self, hw]
  constructor
  · intro k x t b hx ht hb
    exact hlast (lookup_run (c.threads i) c.shared hx ht hb) rfl
  · intro j k m b hj hb
    have hw : c.threads j = ⟨(c.threads j).pid, (c.threads j).maxBytes, .found k m⟩ := by
      rw [← hj]
    refine @hlast j ⟨(c.threads j).pid, (c.threads j).maxBytes, .made m b⟩ m b ?_ rfl
    rw [hw]
    exact .head ⟨.materialize hb, rfl⟩ .refl
  · intro j m b hj
    exact hlast .refl hj

omit [DecidableEq ι] in
theorem Fresh.sound (h : Fresh c) : Sound c where
  held :=
    { content := fun i x b hx => by
        rw [Worker.held, h.phase i] at hx
        cases hx
      alone := fun i j x b b' hx => by
        rw [Worker.held, h.phase i] at hx
        cases hx }
  proper i k m stage hstage := by
    rw [h.phase i] at hstage
    cases hstage

omit [DecidableEq ι] in
theorem Fresh.good (h : Fresh c) : Good H c where
  pair k x t b hx := by
    rw [h.file] at hx
    cases hx
  found i k m b hi := by
    rw [h.phase i] at hi
    cases hi
  made i m b hi := by
    rw [h.phase i] at hi
    cases hi

theorem permits_iff_safe {cs : List (Crowd ι Objects Worker)} (hc : Sound c) (h : Good H c)
    (hrun : List.IsChain (Crowd.Step (Works H)) (c :: cs)) :
    List.IsChain (Permits H) (c :: cs) ↔ ∀ x ∈ c :: cs, Safe H x := by
  induction cs generalizing c with
  | nil => simp [h.safe hc]
  | cons c' cs ih =>
    obtain ⟨hstep, hrest⟩ := List.isChain_cons_cons.mp hrun
    rw [List.isChain_cons_cons]
    constructor
    · rintro ⟨hpermits, hchain⟩
      have hall := (ih (hc.step hstep) (h.step hc hstep hpermits) hrest).mp hchain
      intro x hx
      rcases List.mem_cons.mp hx with rfl | hx
      · exact h.safe hc
      · exact hall x hx
    · intro hall
      have hsafe := hall c' (List.mem_cons_of_mem c List.mem_cons_self)
      have hgood : Good H c' := by
        cases hstep with
        | move i => exact hsafe.good i
      exact ⟨hgood.permits hc hstep, (ih (hc.step hstep) hgood hrest).mpr fun x hx =>
        hall x (List.mem_cons_of_mem c hx)⟩

/-- Over every run of any number of processes, from an empty cache: the steps of the stores are
permitted ones just when all that is looked up and materialized, at any time, is as described. -/
theorem materialized_described {cs : List (Crowd ι Objects Worker)} (hfresh : Fresh c)
    (hrun : List.IsChain (Crowd.Step (Works H)) (c :: cs)) :
    List.IsChain (Permits H) (c :: cs) ↔ ∀ x ∈ c :: cs, Safe H x :=
  permits_iff_safe hfresh.sound hfresh.good hrun

end Steps

/-- A rename finds nothing that its file does not fit. -/
structure Fitting (H : Hashing (List UInt8)) (s : Objects) (w : Worker) : Prop where
  blob : ∀ k mode size b, w.phase = .placing k (.blob mode size) (.rename b) →
    s.file (.metadata, k) = none
  metadata : ∀ k m b, w.phase = .placing k (.metadata m) (.rename b) →
    ∀ x, s.file (.blob, k) = some x → Describes H m x

theorem Fitting.of_ne {w : Worker} (h : ∀ k job b, w.phase ≠ .placing k job (.rename b)) :
    Fitting H s w :=
  ⟨fun _ _ _ _ hw => absurd hw (h _ _ _), fun _ _ _ hw => absurd hw (h _ _ _)⟩

/-- A process whose renames are fitting, beside others that are not at work. -/
theorem fitting_permits [DecidableEq ι] {c : Crowd ι Objects Worker} {i : ι}
    (hidle : ∀ j, j ≠ i → (c.threads j).phase = .idle) {x : Objects × Worker}
    (h : ((Works H).given fun s w _ _ => Fitting H s w).Alone (c.shared, c.threads i) x) :
    ReflTransGen (fun c c' => c.Step (Works H) c' ∧ Permits H c c') c
      ⟨x.1, Function.update c.threads i x.2⟩ := by
  induction h with
  | refl => rw [Function.update_eq_self]
  | @tail x y _ hact ih =>
    have hthreads : ∀ {w : Worker} {j k job b},
        (Function.update c.threads i w j).phase = .placing k job (.rename b) →
          w.phase = .placing k job (.rename b) ∧ j = i := by
      intro w j k job b hj
      by_cases hji : j = i
      · subst hji
        rw [Function.update_self] at hj
        exact ⟨hj, rfl⟩
      · rw [Function.update_of_ne hji, hidle j hji] at hj
        cases hj
    refine ih.tail ⟨?_, ?_, ?_⟩
    · have hmove : Works H x.1 (Function.update c.threads i x.2 i) y.1 y.2 := by
        rw [Function.update_self]
        exact hact.1
      have hstep : Crowd.Step (Works H) ⟨x.1, Function.update c.threads i x.2⟩
          ⟨y.1, Function.update (Function.update c.threads i x.2) i y.2⟩ := .move i hmove
      rwa [Function.update_idem] at hstep
    · intro j k mode size b hj _
      obtain ⟨hx, rfl⟩ := hthreads hj
      have hnone := hact.2.blob k mode size b hx
      constructor
      · intro x t hstored
        rw [hnone] at hstored
        cases hstored
      · intro j' m hfound
        by_cases hj' : j' = j
        · subst hj'
          simp only [Function.update_self, hx] at hfound
          cases hfound
        · simp only [Function.update_of_ne hj', hidle j' hj'] at hfound
          cases hfound
    · intro j k m b hj _
      obtain ⟨hx, rfl⟩ := hthreads hj
      exact hact.2.metadata k m b hx

/-- A store that nobody disturbs puts its file into place. -/
theorem place_run {guard : Objects → Worker → Prop} {p : ℕ} (n : ℕ) {k : ActionKey} {job : Job}
    {b : List UInt8} (htmp : s.tmp (job.side, k, p) = none) (hpart : job.part b) (hwhole : job.whole b)
    (hguard : ∀ tmp stage, guard { s with tmp } ⟨p, n, .placing k job stage⟩) :
    ((Works H).given fun s w _ _ => guard s w).Alone (s, ⟨p, n, .placing k job .create⟩)
      (s.place (job.side, k) (some b), ⟨p, n, job.next H k b⟩) := by
  have hset : ∀ s' : Objects, (s'.setTmp (job.side, k, p) (some b)).tmp (job.side, k, p) = some b :=
    fun s' => Function.update_self _ _ _
  have hend : ((((s.setTmp (job.side, k, p) (some [])).setTmp (job.side, k, p) (some b)).place
      (job.side, k) (some b)).setTmp (job.side, k, p) none) = s.place (job.side, k) (some b) := by
    simp only [Objects.setTmp, Objects.place, Function.update_idem]
    rw [← htmp, Function.update_eq_self]
  refine .head ⟨.create htmp, hguard _ _⟩ (.head ⟨.fill (show job.part ([] ++ b) from hpart), hguard _ _⟩
    (.head ⟨.filled hwhole, hguard _ _⟩ ?_))
  exact hend ▸ .head ⟨.rename (hset _), hguard _ _⟩ .refl

def Stage.filled : Stage → Option (List UInt8)
  | .rename b => some b
  | .recheck b => some b
  | .drop b => some b
  | _ => none

/-- Every store of a key has copied the same bytes, and its source had their size. -/
def Agreed (content : ActionKey → List UInt8) (c : Crowd ι Objects Worker) : Prop :=
  ∀ i k mode size stage b, (c.threads i).phase = .placing k (.blob mode size) stage →
    stage.filled = some b → b = content k ∧ size.toNat = b.length

/-- Whatever belongs to a key is of the same bytes. -/
structure Uniform (H : Hashing (List UInt8)) (content : ActionKey → List UInt8)
    (c : Crowd ι Objects Worker) : Prop where
  blob : ∀ k b, c.shared.file (.blob, k) = some b → b = content k
  stored : ∀ k x t, c.shared.file (.metadata, k) = some x → decode x = some t →
    Describes H (readMeta t) (content k)
  found : ∀ i k m, (c.threads i).phase = .found k m → Describes H m (content k)
  written : ∀ i k m stage, (c.threads i).phase = .placing k (.metadata m) stage →
    Describes H m (content k)

section Agreed
variable [DecidableEq ι] {content : ActionKey → List UInt8}

omit [DecidableEq ι] in
theorem Uniform.permits (h : Uniform H content c) (hc : Agreed content c) : Permits H c c' where
  blob i k mode size b hw hw' := by
    obtain ⟨rfl, -⟩ := hc i k mode size _ b hw rfl
    exact ⟨fun x t hx ht => h.stored k x t hx ht, fun j m hj => h.found j k m hj⟩
  metadata i k m b hw hw' x hx := by
    rw [h.blob k x hx]
    exact h.written i k m _ hw

/-- Metadata is made of what has been copied. -/
theorem works_written {k : ActionKey} {m : CachedMeta} {stage : Stage} (h : Works H s w s' w')
    (hw : w'.phase = .placing k (.metadata m) stage) :
    (∃ stage', w.phase = .placing k (.metadata m) stage') ∨
      ∃ mode size old b, w.phase = .placing k (.blob mode size) old ∧ old.filled = some b ∧
        m = ⟨mode, size, H.sha b⟩ := by
  cases h with
  | create | fill | filled | renameFailed | other =>
    cases hw
    exact Or.inl ⟨_, rfl⟩
  | @rename _ _ _ _ job | @drop _ _ _ _ job | @dropFailed _ _ _ _ job =>
    cases job with
    | blob mode size =>
      cases hw
      exact Or.inr ⟨_, _, _, _, rfl, rfl, rfl⟩
    | metadata m' => cases hw
  | @createFailed _ _ _ _ job | @fillFailed _ _ _ _ job | @lost _ _ _ _ job =>
    cases job <;> cases hw
  | _ => cases hw

theorem Uniform.step (h : Uniform H content c) (hc : Sound c) (hagreed : Agreed content c)
    (hs : c.Step (Works H) c') : Uniform H content c' := by
  cases hs with
  | @move i s w hact =>
    have hself : (Function.update c.threads i w i).phase = w.phase :=
      congrArg Worker.phase (Function.update_self i w c.threads)
    have hphase : ∀ {j}, j ≠ i → Function.update c.threads i w j = c.threads j := fun hj =>
      Function.update_of_ne hj w c.threads
    have hfiles := works_file hact
    constructor
    · intro k b hb
      cases hfiles with
      | same hsame => exact h.blob k b (hsame ▸ hb)
      | unlink y hunlink => exact h.blob k b (of_update_none (hunlink ▸ hb))
      | rename l job d y hw hy hset hw' =>
        obtain ⟨rfl, -⟩ := hc.brings hw hy
        simp only [hset] at hb
        by_cases hk : (Side.blob, k) = (job.side, l)
        · rw [hk, Function.update_self] at hb
          cases job with
          | blob mode size =>
            cases hk
            cases hb
            exact (hagreed i k mode size _ b hw rfl).1
          | metadata m => cases hk
        · rw [Function.update_of_ne hk] at hb
          exact h.blob k b hb
    · intro k x t hx ht
      cases hfiles with
      | same hsame => exact h.stored k x t (hsame ▸ hx) ht
      | unlink y hunlink => exact h.stored k x t (of_update_none (hunlink ▸ hx)) ht
      | rename l job d y hw hy hset hw' =>
        obtain ⟨rfl, hmeta⟩ := hc.brings hw hy
        simp only [hset] at hx
        by_cases hk : (Side.metadata, k) = (job.side, l)
        · rw [hk, Function.update_self] at hx
          cases job with
          | blob mode size => cases hk
          | metadata m =>
            cases hk
            cases hx
            obtain ⟨hdecode, hread⟩ := hmeta m rfl
            cases hdecode.symm.trans ht
            rw [hread]
            exact h.written i k m _ hw
        · rw [Function.update_of_ne hk] at hx
          exact h.stored k x t hx ht
    · intro j k m hj
      by_cases hji : j = i
      · subst hji
        obtain ⟨-, x, t, hx, ht, rfl⟩ := works_found hact (hself.symm.trans hj)
        exact h.stored k x t hx ht
      · simp only [hphase hji] at hj
        exact h.found j k m hj
    · intro j k m stage hj
      by_cases hji : j = i
      · subst hji
        rcases works_written hact (hself.symm.trans hj) with ⟨old, hold⟩ | ⟨mode, size, old, b, hold, hb, rfl⟩
        · exact h.written j k m old hold
        · obtain ⟨rfl, hsize⟩ := hagreed j k mode size old b hold hb
          exact ⟨hsize, rfl⟩
      · simp only [hphase hji] at hj
        exact h.written j k m stage hj

/-- Two builds that store the same under one key never disagree, whatever comes between. -/
theorem described_of_agreed {cs : List (Crowd ι Objects Worker)} (hfresh : Fresh c)
    (hrun : List.IsChain (Crowd.Step (Works H)) (c :: cs)) (hagreed : ∀ x ∈ c :: cs, Agreed content x) :
    ∀ x ∈ c :: cs, Safe H x := by
  refine (permits_iff_safe hfresh.sound hfresh.good hrun).mp ?_
  have huniform : Uniform H content c :=
    { blob := fun k b hb => by
        rw [hfresh.file] at hb
        cases hb
      stored := fun k x t hx => by
        rw [hfresh.file] at hx
        cases hx
      found := fun i k m hi => by
        rw [hfresh.phase i] at hi
        cases hi
      written := fun i k m stage hi => by
        rw [hfresh.phase i] at hi
        cases hi }
  have hsound := hfresh.sound
  clear hfresh
  induction cs generalizing c with
  | nil => exact .singleton c
  | cons c' cs ih =>
    obtain ⟨hstep, hrest⟩ := List.isChain_cons_cons.mp hrun
    have hc := hagreed c List.mem_cons_self
    exact List.isChain_cons_cons.mpr ⟨huniform.permits hc,
      ih hrest (fun x hx => hagreed x (List.mem_cons_of_mem c hx)) (huniform.step hsound hc hstep)
        (hsound.step hstep)⟩

end Agreed

/-- A digest that is the same for all. -/
def zeros : Hashing (List UInt8) where
  bytes := encode
  text b := (decode b).getD []
  sha _ := List.replicate 64 '0'
  text_bytes t := by rw [decode_encode]; rfl
  sha_isDigest _ := by decide

def oneKey : ActionKey := ⟨['a'], List.cons_ne_nil _ _⟩

def emptyCache : Crowd (Fin 2) Objects Worker where
  shared := ⟨fun _ => none, fun _ => none⟩
  threads i := ⟨i.val, 100, .idle⟩

theorem fresh_emptyCache : Fresh emptyCache := ⟨fun _ => rfl, fun _ => rfl⟩

/-- A store that nobody disturbs leaves an entry where there has been none. -/
theorem entry_run (s : Objects) (p n : ℕ) {k : ActionKey} (mode : UInt32) (size : UInt64) (b : List UInt8)
    (hsize : size.toNat = b.length) (h : s.file (.blob, k) = none) (hno : s.file (.metadata, k) = none)
    (hblob : s.tmp (.blob, k, p) = none) (hmeta : s.tmp (.metadata, k, p) = none) :
    ((Works H).given fun s w _ _ => Fitting H s w).Alone (s, ⟨p, n, .idle⟩)
      ((s.place (.blob, k) (some b)).place (.metadata, k)
        (some (encode (metaText ⟨mode, size, H.sha b⟩))), ⟨p, n, .collecting []⟩) := by
  have hstart : ((Works H).given fun s w _ _ => Fitting H s w).Alone (s, ⟨p, n, .idle⟩)
      (s, ⟨p, n, .placing k (.blob mode size) .create⟩) :=
    .head ⟨.store k mode, .of_ne nofun⟩ (.head ⟨.blobMissing h, .of_ne nofun⟩
      (.head ⟨.stat size, .of_ne nofun⟩ .refl))
  refine hstart.trans (.trans (@place_run H s (Fitting H) p n k (.blob mode size) b hblob trivial trivial ?_)
    (@place_run H (s.place (.blob, k) (some b)) (Fitting H) p n k (.metadata ⟨mode, size, H.sha b⟩) _ hmeta
      (List.prefix_refl _) rfl ?_))
  · refine fun tmp stage => ⟨fun k' mode' size' b' hw => ?_, fun k' m b' hw => ?_⟩
    · cases hw
      exact hno
    · cases hw
  · refine fun tmp stage => ⟨fun k' mode' size' b' hw => ?_, fun k' m b' hw x hx => ?_⟩
    · cases hw
    · cases hw
      have hplaced : (s.place (.blob, k) (some b)).file (.blob, k) = some b :=
        Function.update_self _ _ _
      rw [Option.some.inj (hx.symm.trans hplaced)]
      exact ⟨hsize, rfl⟩

/-- One process stores an entry, another one looks it up and puts it into its place. -/
theorem materialized_described_stored : ∃ cs, List.IsChain (Crowd.Step (Works zeros)) (emptyCache :: cs) ∧
    (∃ c ∈ emptyCache :: cs, (c.threads 1).phase = .made (readMeta (metaText ⟨0o644, 1, zeros.sha [1]⟩)) [1]) ∧
      ∀ c ∈ emptyCache :: cs, Safe zeros c := by
  have hstored := fitting_permits (c := emptyCache) (i := 0) (fun _ _ => rfl)
    (entry_run (H := zeros) (k := oneKey) emptyCache.shared 0 100 0o644 1 [1] rfl rfl rfl rfl rfl)
  have hlookup := Crowd.alone (c := ⟨(emptyCache.shared.place (.blob, oneKey) (some [1])).place
      (.metadata, oneKey) (some (encode (metaText ⟨0o644, 1, zeros.sha [1]⟩))),
      Function.update emptyCache.threads 0 ⟨0, 100, .collecting []⟩⟩) 1
    (@lookup_run zeros ⟨1, 100, .idle⟩ _ oneKey _ [1] _ rfl (decode_encode _) rfl)
  obtain ⟨cs, hchain, hlast⟩ := List.exists_isChain_cons_of_relationReflTransGen
    (hstored.trans (ReflTransGen.mono (fun _ _ => reads_permits) _ _ hlookup))
  have hrun := hchain.imp fun _ _ h => h.1
  refine ⟨cs, hrun, ⟨_, List.getLast_mem (List.cons_ne_nil _ _), by rw [hlast]; rfl⟩, ?_⟩
  exact (materialized_described fresh_emptyCache hrun).mp (hchain.imp fun _ _ h => h.2)

/-- The metadata of one store, and the blob of another. -/
def mixedEntry : Objects :=
  ((emptyCache.shared.place (.blob, oneKey) (some [1])).place (.metadata, oneKey)
    (some (encode (metaText ⟨0o644, 1, zeros.sha [1]⟩)))).place (.blob, oneKey) (some [2, 2])

/-- Two stores have found no entry. One puts both of its files into place, then the other one its
blob, and the lookup comes before its metadata. -/
theorem not_materialized_described :
    ¬ ∀ c, ReflTransGen (Crowd.Step (Works zeros)) emptyCache c →
      ∀ i m b, (c.threads i).phase = .made m b → Describes zeros m b := by
  intro h
  have hstart : (Works zeros).Alone (emptyCache.shared, ⟨1, 100, .idle⟩)
      (emptyCache.shared, ⟨1, 100, .placing oneKey (.blob 0o644 2) .create⟩) :=
    .head (.store oneKey 0o644) (.head (.blobMissing rfl) (.head (.stat 2) .refl))
  have hsecond := Crowd.alone (c := emptyCache) 1 hstart
  have hfirst := hsecond.trans (Crowd.alone 0 (ReflTransGen.mono (fun _ _ h => h.1) _ _
    (entry_run (H := zeros) (k := oneKey) emptyCache.shared 0 100 0o644 1 [1] rfl rfl rfl rfl rfl)))
  have hover := hfirst.trans (Crowd.alone 1 (ReflTransGen.mono (fun _ _ h => h.1) _ _
    (@place_run zeros _ (fun _ _ => True) 1 100 oneKey (.blob 0o644 2) [2, 2] rfl trivial trivial
      fun _ _ => trivial)))
  have hread := @lookup_run zeros ⟨0, 100, .collecting []⟩ mixedEntry oneKey
    (encode (metaText ⟨0o644, 1, zeros.sha [1]⟩)) [2, 2] _ rfl (decode_encode _) rfl
  have hlookup := hover.trans (Crowd.alone 0 (lookup_works hread))
  have hdescribed := h _ hlookup 0 _ [2, 2] rfl
  rw [readMeta_metaText (isDigest_isHex (zeros.sha_isDigest [1]))] at hdescribed
  exact absurd hdescribed.size (by decide)

end Redo.Cache.Local
