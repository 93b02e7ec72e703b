import Redo.Runs.Contents

/-! # Hits of the action cache

What is stored under a key comes from a run of the recipe in which all that it looked at was as the
key says. A hit is what the recipe would make now, if the key tells the contents from all that have
been, and what is recorded of the target is up to date when the key is made; the cache makes the key
before it brings anything up to date.
-/
namespace Redo.Runs
open State Cache Override Completion Library

/-- A run of the recipe of the target, with answers like these, ends with the value. -/
def Justified {V : Type} (k : Setting V) (target : String) (known : String → V → Prop) (v : V) :
    Prop :=
  ∃ q as, k.rules.rule target = some q ∧ q.After as (.done v) ∧ ∀ a ∈ as, known a.1 a.2

section Says
variable {V : Type}

/-- A file has been this when its stamp was what the key says. -/
def KeySays (past : List (Files V)) (key : ActionKey) (name : String) (v : V) : Prop :=
  ∃ files ∈ past, files.sees name = v ∧ ∃ mode, (mode, name, files.disk.readStamp name) ∈ key.deps

def RemoteKeySays (past : List (Files V)) (key : RemoteKey) (name : String) (v : V) : Prop :=
  ∃ files ∈ past, files.sees name = v ∧
    ∃ mode content, files.contents name = some content ∧ (mode, name, content) ∈ key.deps

/-- The file has never been anything else with the stamp that it has. -/
def Site.Tells (s : Site V) (name : String) : Prop :=
  ∀ files ∈ s.past, files.disk.readStamp name = s.disk.readStamp name →
    files.sees name = s.sees name

/-- Nor with the digest that it has. -/
def Site.TellsOnServer (s : Site V) (name : String) : Prop :=
  ∀ files ∈ s.past, ∀ content, s.contents name = some content →
    files.contents name = some content → files.sees name = s.sees name

/-- A recorded dependency, as it is. -/
def Current (s : Site V) (sf : File) (name : String) (v : V) : Prop :=
  s.sees name = v ∧ ∃ p ∈ s.db.depsOf s.R sf, p.2.name = name

variable (k : Setting V)

/-- A recipe under way has its own answers, and has declared what it has looked at. -/
structure Underway (s : Project) (id : FileId) (rc : Recipe V) : Prop where
  held : ∃ sf q, s.building id = some sf ∧ k.rules.rule sf.name = some q ∧
    q.After (rc.answers.map fun a => (a.name, a.value)) rc.rest
  noted : ∀ a ∈ rc.answers, a.sent = false → Noted s.db id a.name

/-- Both caches keep only what recipes have made. -/
structure Backed (s : Site V) : Prop where
  tidy : Tidy s.toProject
  present : s.files ∈ s.past
  recipes : ∀ {id rc}, s.recipe id = some rc → Underway k s.toProject id rc
  store : ∀ {policy key v}, s.store (policy, key) = some v →
    Justified k key.target (KeySays s.past key) v
  index : ∀ {policy key v}, s.index (policy, key) = some v →
    Justified k key.target (RemoteKeySays s.past key) v

/-- A hit is taken only where every recorded dependency is what bringing it up to date would make
of it, and has never been anything else under what the key says of it. A target is stored only
where what its recipe has looked at is still the same, and pushed only where stamps tell contents. -/
def Move.Careful (s : Site V) : Move V → Prop
  | .hit id .. => ∀ sf, s.building id = some sf → ∀ p ∈ s.db.depsOf s.R sf,
      k.rules.value s.sees p.2.name = some (s.sees p.2.name) ∧ s.Tells p.2.name
  | .remoteHit id .. => ∀ sf, s.building id = some sf → ∀ p ∈ s.db.depsOf s.R sf,
      k.rules.value s.sees p.2.name = some (s.sees p.2.name) ∧ s.TellsOnServer p.2.name
  | .finish i _ files _ stored pushed => stored = true →
      (∀ rc, s.recipe i.sf.id = some rc → ∀ a ∈ rc.answers, files.sees a.name = a.value) ∧
        (pushed = true → ∀ name, (s.change files).Tells name)
  | _ => True

/-- The target of a hit. -/
def Move.hits : Move V → Option FileId
  | .hit id .. | .remoteHit id .. => some id
  | _ => none

/-- A hit leaves what running the recipe now, on dependencies brought up to date, would make. -/
def SoundHit (s : Site V) (m : Move V) : Prop :=
  ∀ id sf, m.hits = some id → s.building id = some sf →
    k.rules.value s.sees sf.name = some ((m.apply k s).sees sf.name)

def SiteStep (s s' : Site V) : Prop := ∃ m : Move V, m.Fits k s ∧ s' = m.apply k s

def CarefulStep (s s' : Site V) : Prop :=
  ∃ m : Move V, m.Fits k s ∧ m.Careful k s ∧ s' = m.apply k s

end Says

section Keys
variable {κ : Type} {state : String → Option κ} {l : List (Char × File)}

theorem hashDeps_eq (disk : Disk) (l : List (Char × File)) :
    hashDeps disk l = describe (fun name => some (disk.readStamp name)) l := by
  induction l with
  | nil => rfl
  | cons p rest ih =>
    rw [hashDeps, describe]
    split
    · rfl
    · rw [ih]
      rfl

theorem describe_mem {out : List (Char × String × κ)} (h : describe state l = some out) :
    (∀ p ∈ l, ∃ c, state p.2.name = some c ∧ (p.1, p.2.name, c) ∈ out) ∧
      ∀ d ∈ out, state d.2.1 = some d.2.2 ∧ ∃ p ∈ l, p.2.name = d.2.1 := by
  induction l generalizing out with
  | nil =>
    cases h
    simp
  | cons p rest ih =>
    rw [describe] at h
    split at h
    · cases h
    · obtain ⟨c, hc, hrest⟩ := Option.bind_eq_some_iff.mp h
      obtain ⟨out', hout, rfl⟩ := Option.map_eq_some_iff.mp hrest
      obtain ⟨hin, hfrom⟩ := ih hout
      constructor
      · intro q hq
        rcases List.mem_cons.mp hq with rfl | hq
        · exact ⟨c, hc, List.mem_cons_self⟩
        · obtain ⟨c', hc', hmem⟩ := hin q hq
          exact ⟨c', hc', List.mem_cons_of_mem _ hmem⟩
      · intro d hd
        rcases List.mem_cons.mp hd with rfl | hd
        · exact ⟨hc, p, List.mem_cons_self, rfl⟩
        · obtain ⟨hstate, q, hq, hname⟩ := hfrom d hd
          exact ⟨hstate, q, List.mem_cons_of_mem _ hq, hname⟩

theorem actionKey_spec {disk : Disk} {target : String} {key : ActionKey}
    (h : actionKey disk target l = some key) : key.target = target ∧
      (∀ p ∈ l, (p.1, p.2.name, disk.readStamp p.2.name) ∈ key.deps) ∧
      ∀ d ∈ key.deps, d.2.2 = disk.readStamp d.2.1 ∧ ∃ p ∈ l, p.2.name = d.2.1 := by
  rw [actionKey, computeActionKey, hashDeps_eq] at h
  cases hdeps : describe (fun name => some (disk.readStamp name)) (l.insertionSort keyLe) with
  | none =>
    rw [hdeps] at h
    cases h
  | some deps =>
    rw [hdeps] at h
    cases h
    obtain ⟨hin, hfrom⟩ := describe_mem hdeps
    simp only [List.mem_insertionSort] at hin hfrom
    refine ⟨rfl, fun p hp => ?_, fun d hd => ?_⟩
    · obtain ⟨c, hc, hmem⟩ := hin p hp
      cases hc
      exact hmem
    · obtain ⟨hstate, hp⟩ := hfrom d hd
      exact ⟨(Option.some.inj hstate).symm, hp⟩

theorem remoteKey_spec {platform : Platform} {contents : String → Option Content} {target : String}
    {key : RemoteKey} (h : remoteKey platform contents target l = some key) :
    key.target = target ∧
      (∀ p ∈ l, ∃ c, contents p.2.name = some c ∧ (p.1, p.2.name, c) ∈ key.deps) ∧
      ∀ d ∈ key.deps, contents d.2.1 = some d.2.2 ∧ ∃ p ∈ l, p.2.name = d.2.1 := by
  obtain ⟨deps, hdeps, rfl⟩ := Option.map_eq_some_iff.mp h
  obtain ⟨hin, hfrom⟩ := describe_mem hdeps
  simp only [List.mem_insertionSort] at hin hfrom
  exact ⟨rfl, hin, hfrom⟩

end Keys

variable {V : Type} {k : Setting V} {s : Site V} {sf : File} {v : V}

theorem Justified.mono {target : String} {known known' : String → V → Prop}
    (h : Justified k target known v) (himp : ∀ n w, known n w → known' n w) :
    Justified k target known' v := by
  obtain ⟨q, as, hq, hafter, has⟩ := h
  exact ⟨q, as, hq, hafter, fun a ha => himp _ _ (has a ha)⟩

/-- Dependencies that are up to date make the value that the recipe would make now. -/
theorem Justified.value {target : String} {known : String → V → Prop}
    (h : Justified k target known v)
    (hknown : ∀ n w, known n w → k.rules.value s.sees n = some w) :
    k.rules.value s.sees target = some v := by
  obtain ⟨q, as, hq, hafter, has⟩ := h
  apply Rules.value_of_answers hq hafter
  intro a ha
  exact hknown _ _ (has a ha)

theorem KeySays.cons {past : List (Files V)} {key : ActionKey} {n : String} {w : V}
    (h : KeySays past key n w) (files : Files V) : KeySays (files :: past) key n w := by
  obtain ⟨files', hmem, h⟩ := h
  exact ⟨files', List.mem_cons_of_mem _ hmem, h⟩

theorem RemoteKeySays.cons {past : List (Files V)} {key : RemoteKey} {n : String} {w : V}
    (h : RemoteKeySays past key n w) (files : Files V) : RemoteKeySays (files :: past) key n w := by
  obtain ⟨files', hmem, h⟩ := h
  exact ⟨files', List.mem_cons_of_mem _ hmem, h⟩

/-- What a key of the moment says of a file is how it is, where stamps tell. -/
theorem current_of_key {key : ActionKey} (hkey : s.key sf = some key)
    (htells : ∀ p ∈ s.db.depsOf s.R sf, s.Tells p.2.name) {n : String} {w : V}
    (h : KeySays s.past key n w) : Current s sf n w := by
  obtain ⟨files, hfiles, rfl, mode, hmem⟩ := h
  obtain ⟨hstamp, p, hp, hname⟩ := (actionKey_spec hkey).2.2 _ hmem
  dsimp only at hstamp hname
  subst hname
  exact ⟨(htells p hp files hfiles hstamp).symm, p, hp, rfl⟩

theorem current_of_remoteKey {key : RemoteKey} (hkey : s.keyOnServer k sf = some key)
    (htells : ∀ p ∈ s.db.depsOf s.R sf, s.TellsOnServer p.2.name) {n : String} {w : V}
    (h : RemoteKeySays s.past key n w) : Current s sf n w := by
  obtain ⟨files, hfiles, rfl, mode, content, hcontent, hmem⟩ := h
  obtain ⟨hnow, p, hp, hname⟩ := (remoteKey_spec hkey).2.2 _ hmem
  dsimp only at hnow hname
  subst hname
  exact ⟨(htells p hp files hfiles content hnow hcontent).symm, p, hp, rfl⟩

namespace Backed

theorem key_of_current (h : Backed k s) {key : ActionKey} (hkey : s.key sf = some key) {n : String}
    {w : V} (hw : Current s sf n w) : KeySays s.past key n w := by
  obtain ⟨hn, p, hp, rfl⟩ := hw
  exact ⟨s.files, h.present, hn, p.1, (actionKey_spec hkey).2.1 p hp⟩

theorem remoteKey_of_current (h : Backed k s) {key : RemoteKey}
    (hkey : s.keyOnServer k sf = some key) {n : String} {w : V} (hw : Current s sf n w) :
    RemoteKeySays s.past key n w := by
  obtain ⟨hn, p, hp, rfl⟩ := hw
  obtain ⟨content, hcontent, hmem⟩ := (remoteKey_spec hkey).2.1 p hp
  exact ⟨s.files, h.present, hn, p.1, content, hcontent, hmem⟩

theorem found (h : Backed k s) {policy : Option String}
    (htells : ∀ p ∈ s.db.depsOf s.R sf, s.Tells p.2.name) (hfound : s.found policy sf = some v) :
    Justified k sf.name (Current s sf) v := by
  obtain ⟨key, hkey, hstored⟩ := Option.bind_eq_some_iff.mp hfound
  have hjust := h.store hstored
  rw [(actionKey_spec hkey).1] at hjust
  exact hjust.mono fun n w => current_of_key hkey htells

theorem foundOnServer (h : Backed k s) {policy : Option String}
    (htells : ∀ p ∈ s.db.depsOf s.R sf, s.TellsOnServer p.2.name)
    (hfound : s.foundOnServer k policy sf = some v) : Justified k sf.name (Current s sf) v := by
  obtain ⟨key, hkey, hstored⟩ := Option.bind_eq_some_iff.mp hfound
  have hjust := h.index hstored
  rw [(remoteKey_spec hkey).1] at hjust
  exact hjust.mono fun n w => current_of_remoteKey hkey htells

end Backed

variable {e : Event} {id : FileId} {rc : Recipe V}

theorem Underway.apply {s : Project} (h : Underway k s id rc) (hfits : e.Fits s) (htidy : Tidy s)
    (hreleases : e.releases ≠ some id) : Underway k (e.apply s) id rc := by
  obtain ⟨sf, q, hsf, hq⟩ := h.held
  refine ⟨⟨sf, q, hfits.held_kept hsf hreleases, hq⟩, fun a ha hsent => ?_⟩
  apply (h.noted a ha hsent).apply hfits htidy
  cases e with
  | attempt q =>
    intro heq
    obtain rfl := Option.some.inj heq
    rw [hfits.2.2.1] at hsf
    cases hsf
  | cacheHit | finish => exact hreleases
  | _ => exact nofun

theorem Site.place_eq {sf : File} (hsf : s.building id = some sf) (files : Files V) :
    (s.place id files).sees = files.sees ∧ (s.place id files).past = files :: s.past := by
  rw [Site.place, Event.apply, show (s.change files).toProject.building id = some sf from hsf]
  exact ⟨rfl, rfl⟩

/-- All that changes in the caches is what has been seen. -/
theorem Backed.change (h : Backed k s) (files : Files V) : Backed k (s.change files) where
  tidy := ⟨h.tidy.ids, h.tidy.rows⟩
  present := List.mem_cons_self
  recipes hrc := ⟨(h.recipes hrc).held, (h.recipes hrc).noted⟩
  store hv := (h.store hv).mono fun _ _ hw => hw.cons files
  index hv := (h.index hv).mono fun _ _ hw => hw.cons files

namespace Backed

theorem plain (h : Backed k s) (hfits : (Move.plain (V := V) e).Fits k s) :
    Backed k ((Move.plain e).apply k s) := by
  obtain ⟨hfits, hkeeps⟩ := hfits
  have hdisk : (e.apply s.toProject).disk = s.disk := by
    cases e with
    | edit | cacheHit | finish => cases hkeeps
    | attempt q =>
      rw [Event.apply]
      split
      · rfl
      · rename_i out _
        obtain ⟨o, w⟩ := out
        cases o <;> rfl
    | giveUp | ifchange | always | stamp =>
      rw [Event.apply]
      split <;> rfl
    | _ => rfl
  refine ⟨hfits.tidy h.tidy, ?_, fun {id rc} hrc => ?_, h.store, h.index⟩
  · change (⟨(e.apply s.toProject).disk, s.sees, s.contents⟩ : Files V) ∈ s.past
    rw [hdisk]
    exact h.present
  · change (if e.releases = some id then none else s.recipe id) = some rc at hrc
    split at hrc
    · cases hrc
    · rename_i hreleases
      exact (h.recipes hrc).apply hfits h.tidy hreleases

theorem start (h : Backed k s) (hfits : (Move.start id).Fits k s) :
    Backed k ((Move.start id).apply k s) := by
  obtain ⟨-, sf, hsf, hrule⟩ := hfits
  obtain ⟨q, hq⟩ := Option.isSome_iff_exists.mp hrule
  have hrest : (s.building id).bind (fun sf => k.rules.rule sf.name) = some q := by
    rw [hsf]
    exact hq
  rw [Move.apply, hrest]
  refine ⟨h.tidy, h.present, fun {id' rc} hrc => ?_, h.store, h.index⟩
  by_cases hid : id' = id
  · subst hid
    simp only [Function.update_self, Option.some.injEq] at hrc
    subst hrc
    exact ⟨⟨sf, q, hsf, hq, .start⟩, by simp⟩
  · simp only [Function.update_of_ne hid] at hrc
    exact h.recipes hrc

theorem look (h : Backed k s) {sent : Bool} (hfits : (Move.look id sent).Fits k s) :
    Backed k ((Move.look id sent).apply k s) := by
  obtain ⟨answers, name, next, hrecipe, hnoted⟩ := hfits
  have hold := h.recipes hrecipe
  obtain ⟨sf, q, hsf, hq, hafter⟩ := hold.held
  simp only [Move.apply, hrecipe]
  refine ⟨h.tidy, h.present, fun {id' rc} hrc => ?_, h.store, h.index⟩
  by_cases hid : id' = id
  · subst hid
    simp only [Function.update_self, Option.some.injEq] at hrc
    subst hrc
    refine ⟨⟨sf, q, hsf, hq, ?_⟩, fun a ha hsent => ?_⟩
    · rw [List.map_append]
      exact hafter.answer _
    · rcases List.mem_append.mp ha with ha | ha
      · exact hold.noted a ha hsent
      · rw [List.mem_singleton.mp ha] at hsent ⊢
        exact hnoted hsent
  · simp only [Function.update_of_ne hid] at hrc
    exact h.recipes hrc

theorem drop (h : Backed k s) (policy : Option String) (key : ActionKey) :
    Backed k ((Move.drop policy key).apply k s) := by
  refine ⟨h.tidy, h.present, h.recipes, fun {policy' key' v} hv => ?_, h.index⟩
  by_cases hkey : (policy', key') = (policy, key)
  · simp only [Move.apply, hkey, Function.update_self] at hv
    cases hv
  · simp only [Move.apply, Function.update_of_ne hkey] at hv
    exact h.store hv

theorem keep (h : Backed k s) (policy : Option String) {key : ActionKey} {v : V}
    (hv : Justified k key.target (KeySays s.past key) v) : Backed k (s.keep policy key v) := by
  refine ⟨h.tidy, h.present, h.recipes, fun {policy' key' v'} hv' => ?_, h.index⟩
  by_cases hkey : (policy', key') = (policy, key)
  · cases hkey
    simp only [Site.keep, Function.update_self, Option.some.injEq] at hv'
    cases hold : s.store (policy, key) with
    | none =>
      rw [hold] at hv'
      cases hv'
      exact hv
    | some w =>
      rw [hold] at hv'
      cases hv'
      exact h.store hold
  · simp only [Site.keep, Function.update_of_ne hkey] at hv'
    exact h.store hv'

/-- What is stored may have been made long ago; it goes under the digests of now. -/
theorem push (h : Backed k s) (policy : Option String) {key : ActionKey} {sf : File}
    (hkey : s.key sf = some key) (htells : ∀ name, s.Tells name) : Backed k (s.push k policy key sf) := by
  rw [Site.push]
  cases hv : s.store (policy, key) with
  | none => exact h
  | some v =>
    cases hrkey : s.keyOnServer k sf with
    | none => exact h
    | some rkey =>
      refine ⟨h.tidy, h.present, h.recipes, h.store, fun {policy' key' v'} hv' => ?_⟩
      by_cases hsame : (policy', key') = (policy, rkey)
      · cases hsame
        simp only [Function.update_self, Option.some.injEq] at hv'
        subst hv'
        have hjust := h.store hv
        rw [(actionKey_spec hkey).1, ← (remoteKey_spec hrkey).1] at hjust
        exact hjust.mono fun n w hw =>
          h.remoteKey_of_current hrkey (current_of_key hkey (fun p _ => htells p.2.name) hw)
      · simp only [Function.update_of_ne hsame] at hv'
        exact h.index hv'

theorem place (h : Backed k s) (hidle : s.recipe id = none)
    (hfits : (Event.cacheHit id).Fits s.toProject) (files : Files V) : Backed k (s.place id files) := by
  have hchanged := h.change files
  have hfits' : (Event.cacheHit id).Fits (s.change files).toProject := hfits
  obtain ⟨sf, hsf, -⟩ := hfits
  refine ⟨hfits'.tidy hchanged.tidy, ?_, fun {id' rc} hrc => ?_, hchanged.store, hchanged.index⟩
  · rw [Site.files, Site.place, Event.apply, show (s.change files).toProject.building id = some sf from hsf]
    exact List.mem_cons_self
  · have hid : id ≠ id' := by
      rintro rfl
      rw [show s.recipe id = some rc from hrc] at hidle
      cases hidle
    exact (hchanged.recipes hrc).apply hfits' hchanged.tidy fun heq => hid (Option.some.inj heq)

theorem storeBuilt (h : Backed k s) (policy : Option String) {pushed : Bool} {sf : File}
    (hsf : s.db.byId s.R id = some sf) (hbuilt : Justified k sf.name (Current s sf) (s.sees sf.name))
    (htells : pushed = true → ∀ name, s.Tells name) : Backed k (s.storeBuilt k policy id pushed) := by
  rw [Site.storeBuilt, hsf]
  cases hcsum : sf.csum.isSome with
  | true =>
    simp only [hcsum, if_true]
    exact h
  | false =>
    simp only [hcsum, Bool.false_eq_true, if_false]
    cases hkey : s.key sf with
    | none => exact h
    | some key =>
      have hjust : Justified k key.target (KeySays s.past key) (s.sees sf.name) := by
        rw [(actionKey_spec hkey).1]
        exact hbuilt.mono fun n w => h.key_of_current hkey
      have hkept := h.keep policy hjust
      cases pushed with
      | false => exact hkept
      | true => exact hkept.push policy hkey (htells rfl)

theorem hit (h : Backed k s) {policy : Option String} {files : Files V}
    (hfits : (Move.hit id policy files).Fits k s) : Backed k ((Move.hit id policy files).apply k s) :=
  h.place hfits.1 hfits.2.1 files

/-- What comes from the server is stored under the key that has not been found here. -/
theorem remoteHit (h : Backed k s) {policy : Option String} {files : Files V}
    (hfits : (Move.remoteHit id policy files).Fits k s)
    (hcareful : (Move.remoteHit id policy files).Careful k s) :
    Backed k ((Move.remoteHit id policy files).apply k s) := by
  obtain ⟨hidle, hhit, sf, v, hsf, -, hfound, hplaced⟩ := hfits
  have hput := h.place hidle hhit files
  simp only [Move.apply, hsf]
  cases hkey : s.key sf with
  | none => exact hput
  | some key =>
    apply hput.keep
    obtain ⟨hsees, hpast⟩ := Site.place_eq hsf files
    rw [hsees, hpast, hplaced.value, (actionKey_spec hkey).1]
    have hjust := h.foundOnServer (fun p hp => (hcareful sf hsf p hp).2) hfound
    exact hjust.mono fun n w hw => (h.key_of_current hkey hw).cons files

theorem finish (h : Backed k s) {i : Input} {scheduled : Bool} {files : Files V}
    {policy : Option String} {stored pushed : Bool}
    (hfits : (Move.finish i scheduled files policy stored pushed).Fits k s)
    (hcareful : (Move.finish i scheduled files policy stored pushed).Careful k s) :
    Backed k ((Move.finish i scheduled files policy stored pushed).apply k s) := by
  obtain ⟨hfits, hdone, hstored⟩ := hfits
  have hchanged := h.change files
  have hended : Backed k
      { s.change files with
        toProject := (Event.finish i scheduled files.disk).apply s.toProject
        recipe := Function.update s.recipe i.sf.id none } := by
    refine ⟨hfits.tidy h.tidy, hchanged.present, fun {id rc} hrc => ?_, hchanged.store, hchanged.index⟩
    by_cases hid : id = i.sf.id
    · subst hid
      simp only [Function.update_self] at hrc
      cases hrc
    · simp only [Function.update_of_ne hid] at hrc
      exact (h.recipes hrc).apply hfits h.tidy fun heq => hid (Option.some.inj heq).symm
  rw [Move.apply]
  cases stored with
  | false => exact hended
  | true =>
    have hcode := hstored rfl
    obtain ⟨hkept, htells⟩ := hcareful rfl
    obtain ⟨answers, v, hrecipe, hv, hsent⟩ := hdone hcode
    obtain ⟨hheld, hR, hdb, -⟩ := hfits
    obtain ⟨⟨sf, q, hsf, hq, hafter⟩, hnoted⟩ := h.recipes hrecipe
    rw [hheld] at hsf
    cases hsf
    obtain ⟨r, hr, hname⟩ := h.tidy.rows hheld
    rw [← hdb] at hr
    obtain ⟨sf, hbuilt, hsame, hgen, hov⟩ := built_row hcode hr
    rw [hname] at hsame
    have hbyId : (outcome i scheduled).db.byId s.R i.sf.id = some sf := by rwa [← hR]
    refine hended.storeBuilt policy hbyId ?_ htells
    rw [hsame, show Site.sees { s.change files with
        toProject := (Event.finish i scheduled files.disk).apply s.toProject
        recipe := Function.update s.recipe i.sf.id none } = files.sees from rfl, hv]
    refine ⟨q, _, hq, hafter, fun b hb => ?_⟩
    obtain ⟨a, ha, rfl⟩ := List.mem_map.mp hb
    refine ⟨hkept _ hrecipe a ha, ?_⟩
    have hdeclared : Noted i.db i.sf.id a.name ∨ Reported i scheduled a.name := by
      cases hs : a.sent with
      | true => exact .inr (hsent a ha hs)
      | false =>
        rw [hdb]
        exact .inl (hnoted a ha hs)
    exact (Noted.finish hcode hdeclared).mem_depsOf hbyId hgen hov

theorem step (h : Backed k s) {m : Move V} (hfits : m.Fits k s) (hcareful : m.Careful k s) :
    Backed k (m.apply k s) := by
  cases m with
  | plain e => exact h.plain hfits
  | edit files => exact h.change files
  | start id => exact h.start hfits
  | look id sent => exact h.look hfits
  | hit id policy files => exact h.hit hfits
  | remoteHit id policy files => exact h.remoteHit hfits hcareful
  | finish i scheduled files policy stored pushed => exact h.finish hfits hcareful
  | drop policy key => exact h.drop policy key

end Backed

theorem Site.Begun.backed (h : s.Begun) : Backed k s where
  tidy := by
    constructor
    all_goals
      intro x sf hsf
      rw [h.building] at hsf
      cases hsf
  present := by
    rw [h.past]
    exact List.mem_singleton.mpr rfl
  recipes hrc := by
    rw [h.recipe] at hrc
    cases hrc
  store hv := by
    rw [h.store] at hv
    cases hv
  index hv := by
    rw [h.index] at hv
    cases hv

theorem Site.Begun.run_backed {s₀ : Site V} (h : s₀.Begun)
    (hrun : Relation.ReflTransGen (CarefulStep k) s₀ s) : Backed k s := by
  induction hrun with
  | refl => exact h.backed
  | tail _ hstep ih =>
    obtain ⟨m, hfits, hcareful, rfl⟩ := hstep
    exact ih.step hfits hcareful

/-- A recorded dependency is what bringing it up to date would make of it. -/
theorem value_of_current {sf : File} {n : String} {w : V}
    (hdeps : ∀ p ∈ s.db.depsOf s.R sf, k.rules.value s.sees p.2.name = some (s.sees p.2.name))
    (hw : Current s sf n w) : k.rules.value s.sees n = some w := by
  obtain ⟨rfl, p, hp, rfl⟩ := hw
  exact hdeps p hp

theorem Site.remoteHit_sees {id : FileId} {sf : File} (hsf : s.building id = some sf)
    (policy : Option String) (files : Files V) :
    ((Move.remoteHit id policy files).apply k s).sees = files.sees := by
  simp only [Move.apply, hsf]
  cases s.key sf with
  | none => exact (Site.place_eq hsf files).1
  | some key => exact (Site.place_eq hsf files).1

theorem Backed.soundHit (h : Backed k s) {m : Move V} (hfits : m.Fits k s)
    (hcareful : m.Careful k s) : SoundHit k s m := by
  intro id sf hid hsf
  cases m with
  | hit id' policy files =>
    cases hid
    obtain ⟨-, -, sf', v, hsf', hfound, hplaced⟩ := hfits
    rw [hsf] at hsf'
    cases hsf'
    rw [Move.apply, (Site.place_eq hsf files).1, hplaced.value]
    exact (h.found (fun p hp => (hcareful sf hsf p hp).2) hfound).value fun n w hw =>
      value_of_current (fun p hp => (hcareful sf hsf p hp).1) hw
  | remoteHit id' policy files =>
    cases hid
    obtain ⟨-, -, sf', v, hsf', -, hfound, hplaced⟩ := hfits
    rw [hsf] at hsf'
    cases hsf'
    rw [Site.remoteHit_sees hsf, hplaced.value]
    exact (h.foundOnServer (fun p hp => (hcareful sf hsf p hp).2) hfound).value fun n w hw =>
      value_of_current (fun p hp => (hcareful sf hsf p hp).1) hw
  | _ => cases hid

theorem CarefulStep.step {s' : Site V} (h : CarefulStep k s s') : SiteStep k s s' := by
  obtain ⟨m, hfits, -, hs⟩ := h
  exact ⟨m, hfits, hs⟩

end Redo.Runs
