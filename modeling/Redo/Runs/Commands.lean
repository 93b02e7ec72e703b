import Redo.Runs.Hits

/-! # With the action cache and without it

A command brings files up to date: a hit does, a recipe that ends with code 0, and `isdirty` where
it finds a file clean. What the recipes look at has been brought up to date by then. From the same
files a command leaves the same contents with the cache and without it.
-/
namespace Redo.Runs
open State Dirtiness Cache Override Completion Library

section Commands
variable {V : Type}

def Event.walks : Event → Bool
  | .isdirty .. => true
  | _ => false

/-- The file that a move is about. -/
def Move.target (s : Site V) : Move V → Option String
  | .hit id _ _ | .remoteHit id _ _ => (s.building id).map (·.name)
  | .finish i .. => some i.sf.name
  | _ => none

/-- The files that have been brought up to date, with what the move does. -/
def Move.done (s : Site V) (done : Set String) : Move V → Set String
  | .plain (.isdirty f mx) =>
    if (isdirtyDefault [] s.disk s.R s.db f mx).result = .ok .clean then insert f.name done else done
  | .hit id _ _ | .remoteHit id _ _ =>
    match s.building id with
    | none => done
    | some sf => insert sf.name done
  | .finish i scheduled .. =>
    if (outcome i scheduled).ended = .code 0 then insert i.sf.name done else done \ {i.sf.name}
  | _ => done

/-- The move is one with `REDO_NO_ACTION_CACHE=1`. -/
def Move.cacheless : Move V → Bool
  | .hit .. | .remoteHit .. | .drop .. | .plain (.giveUp _) => false
  | .finish _ _ _ _ stored _ => !stored
  | _ => true

variable (k : Setting V)

/-- A source, or a target that has been brought up to date. -/
def Ready (done : Set String) (name : String) : Prop := name ∈ done ∨ k.rules.rule name = none

/-- Nothing but a target changes, and only by its own recipe or a hit. Recipes look at a file when
`redo-ifchange` has brought it up to date, and what is found clean is up to date. -/
structure Orderly (s : Site V) (done : Set String) (m : Move V) : Prop where
  quiet : ∀ n, (m.apply k s).sees n ≠ s.sees n → m.target s = some n ∧ k.rules.rule n ≠ none
  looks : ∀ id sent answers name next, m = .look id sent →
    s.recipe id = some ⟨answers, .ask name next⟩ → Ready k done name
  clean : ∀ f mx, m = .plain (.isdirty f mx) →
    (isdirtyDefault [] s.disk s.R s.db f mx).result = .ok .clean →
      k.rules.value s.sees f.name = some (s.sees f.name)

/-- A command that has come to a state, and the files that it has brought up to date. -/
inductive Command (cached : Bool) (s : Site V) : Site V → Set String → Prop
  | start (h : ∀ x, s.building x = none) : Command cached s s ∅
  | step {a : Site V} {done : Set String} {m : Move V} (h : Command cached s a done)
      (hfits : m.Fits k a) (hcareful : m.Careful k a) (horderly : Orderly k a done m)
      (hcached : cached = false → m.cacheless = true) : Command cached s (m.apply k a) (m.done a done)

/-- How a command leaves what it has found. -/
structure InOrder (s a : Site V) (done : Set String) : Prop where
  backed : Backed k a
  sources : ∀ n, k.rules.rule n = none → a.sees n = s.sees n
  done : ∀ n ∈ done, k.rules.value s.sees n = some (a.sees n)
  answers : ∀ {id rc}, a.recipe id = some rc →
    ∀ x ∈ rc.answers, k.rules.value s.sees x.name = some x.value

end Commands

variable {V : Type} {k : Setting V} {s a : Site V} {done : Set String} {m : Move V}

theorem Site.push_eq (policy : Option String) (key : ActionKey) (sf : File) :
    (s.push k policy key sf).sees = s.sees ∧ (s.push k policy key sf).recipe = s.recipe := by
  rw [Site.push]
  split <;> exact ⟨rfl, rfl⟩

theorem Site.storeBuilt_eq (policy : Option String) (id : FileId) (pushed : Bool) :
    (s.storeBuilt k policy id pushed).sees = s.sees ∧
      (s.storeBuilt k policy id pushed).recipe = s.recipe := by
  rw [Site.storeBuilt]
  cases s.db.byId s.R id with
  | none => exact ⟨rfl, rfl⟩
  | some sf =>
    cases hcsum : sf.csum.isSome with
    | true => simp [hcsum]
    | false =>
      simp only [hcsum, Bool.false_eq_true, if_false]
      cases s.key sf with
      | none => exact ⟨rfl, rfl⟩
      | some key =>
        cases pushed with
        | false => exact ⟨rfl, rfl⟩
        | true => exact Site.push_eq policy key sf

theorem finish_eq (i : Input) (scheduled : Bool) (files : Files V) (policy : Option String)
    (stored pushed : Bool) :
    ((Move.finish i scheduled files policy stored pushed).apply k a).sees = files.sees ∧
      ((Move.finish i scheduled files policy stored pushed).apply k a).recipe =
        Function.update a.recipe i.sf.id none := by
  rw [Move.apply]
  cases stored with
  | false => exact ⟨rfl, rfl⟩
  | true =>
    simp only [if_true]
    rw [(Site.storeBuilt_eq policy i.sf.id pushed).1, (Site.storeBuilt_eq policy i.sf.id pushed).2]
    exact ⟨rfl, rfl⟩

/-- Answers that the next state still has, or that are had of what is up to date. -/
theorem Move.recipe_apply (hfits : m.Fits k a) {id : FileId} {rc : Recipe V}
    (hrc : (m.apply k a).recipe id = some rc) {x : Answer V} (hx : x ∈ rc.answers) :
    (∃ rc', a.recipe id = some rc' ∧ x ∈ rc'.answers) ∨
      ∃ sent answers next, m = .look id sent ∧
        a.recipe id = some ⟨answers, .ask x.name next⟩ ∧ x.value = a.sees x.name := by
  cases m with
  | plain e =>
    change (if e.releases = some id then none else a.recipe id) = some rc at hrc
    split at hrc
    · cases hrc
    · exact .inl ⟨rc, hrc, hx⟩
  | edit files => exact .inl ⟨rc, hrc, hx⟩
  | drop policy key => exact .inl ⟨rc, hrc, hx⟩
  | start id' =>
    rw [Move.apply] at hrc
    split at hrc
    · exact .inl ⟨rc, hrc, hx⟩
    · by_cases hid : id = id'
      · subst hid
        simp only [Function.update_self, Option.some.injEq] at hrc
        rw [← hrc] at hx
        cases hx
      · simp only [Function.update_of_ne hid] at hrc
        exact .inl ⟨rc, hrc, hx⟩
  | look id' sent =>
    obtain ⟨answers, name, next, hrecipe, -⟩ := hfits
    simp only [Move.apply, hrecipe] at hrc
    by_cases hid : id = id'
    · subst hid
      simp only [Function.update_self, Option.some.injEq] at hrc
      rw [← hrc] at hx
      rcases List.mem_append.mp hx with hx | hx
      · exact .inl ⟨_, hrecipe, hx⟩
      · rw [List.mem_singleton.mp hx]
        exact .inr ⟨sent, answers, next, rfl, hrecipe, rfl⟩
    · simp only [Function.update_of_ne hid] at hrc
      exact .inl ⟨rc, hrc, hx⟩
  | hit id' policy files =>
    obtain ⟨-, -, sf, v, hsf, -⟩ := hfits
    rw [Move.apply, Site.place, Event.apply,
      show (a.change files).toProject.building id' = some sf from hsf] at hrc
    exact .inl ⟨rc, hrc, hx⟩
  | remoteHit id' policy files =>
    obtain ⟨-, -, sf, v, hsf, -⟩ := hfits
    simp only [Move.apply, hsf] at hrc
    have hplace : (a.place id' files).recipe id = some rc := by
      cases hkey : a.key sf with
      | none =>
        rw [hkey] at hrc
        exact hrc
      | some key =>
        rw [hkey] at hrc
        exact hrc
    exact .inl ⟨rc, hplace, hx⟩
  | finish i scheduled files policy stored pushed =>
    rw [(finish_eq i scheduled files policy stored pushed).2] at hrc
    by_cases hid : id = i.sf.id
    · subst hid
      rw [Function.update_self] at hrc
      cases hrc
    · rw [Function.update_of_ne hid] at hrc
      exact .inl ⟨rc, hrc, hx⟩

namespace InOrder

/-- A value depends on the sources only. -/
theorem value (h : InOrder k s a done) (n : String) :
    k.rules.value a.sees n = k.rules.value s.sees n := Rules.value_congr h.sources n

theorem ready (h : InOrder k s a done) {n : String} (hn : Ready k done n) :
    k.rules.value s.sees n = some (a.sees n) := by
  rcases hn with hn | hn
  · exact h.done n hn
  · rw [← h.value, Rules.value_given hn]

/-- A file that is up to date stays so unless the move is about it. -/
theorem kept (h : InOrder k s a done) (horderly : Orderly k a done m) {n : String} (hn : n ∈ done)
    (htarget : m.target a ≠ some n) : k.rules.value s.sees n = some ((m.apply k a).sees n) := by
  have hsame : (m.apply k a).sees n = a.sees n := by
    by_contra hne
    exact htarget (horderly.quiet n hne).1
  rw [hsame]
  exact h.done n hn

theorem step_done (h : InOrder k s a done) (hfits : m.Fits k a) (hcareful : m.Careful k a)
    (horderly : Orderly k a done m) :
    ∀ n ∈ m.done a done, k.rules.value s.sees n = some ((m.apply k a).sees n) := by
  intro n hn
  have hhit : ∀ id sf, m.hits = some id → a.building id = some sf → m.target a = some sf.name →
      n ∈ insert sf.name done → k.rules.value s.sees n = some ((m.apply k a).sees n) := by
    intro id sf hid hsf htarget hn
    by_cases hname : n = sf.name
    · rw [hname, ← h.value]
      exact h.backed.soundHit hfits hcareful id sf hid hsf
    · apply h.kept horderly (hn.resolve_left hname)
      rw [htarget]
      exact fun he => hname (Option.some.inj he).symm
  cases m with
  | plain e =>
    cases e with
    | isdirty f mx =>
      rw [Move.done] at hn
      split_ifs at hn with hclean
      · rcases hn with rfl | hn
        · rw [← h.value]
          exact horderly.clean f mx rfl hclean
        · exact h.done n hn
      · exact h.done n hn
    | _ => exact h.done n hn
  | edit files => exact h.kept horderly hn nofun
  | start id => exact h.kept horderly hn nofun
  | look id sent => exact h.kept horderly hn nofun
  | drop policy key => exact h.done n hn
  | hit id policy files =>
    obtain ⟨-, -, sf, v, hsf, -⟩ := hfits
    rw [Move.done, hsf] at hn
    exact hhit id sf rfl hsf (by rw [Move.target, hsf]; rfl) hn
  | remoteHit id policy files =>
    obtain ⟨-, -, sf, v, hsf, -⟩ := hfits
    rw [Move.done, hsf] at hn
    exact hhit id sf rfl hsf (by rw [Move.target, hsf]; rfl) hn
  | finish i scheduled files policy stored pushed =>
    have hother : n ≠ i.sf.name → n ∈ done →
        k.rules.value s.sees n =
          some (((Move.finish i scheduled files policy stored pushed).apply k a).sees n) := by
      intro hname hn
      apply h.kept horderly hn
      exact fun he => hname (Option.some.inj he).symm
    rw [Move.done] at hn
    split_ifs at hn with hcode
    · by_cases hname : n = i.sf.name
      · -- the recipe has had the values of all that it asked for
        obtain ⟨⟨hheld, -⟩, hdone, -⟩ := hfits
        obtain ⟨answers, v, hrecipe, hv, -⟩ := hdone hcode
        obtain ⟨sf, q, hsf, hq, hafter⟩ := (h.backed.recipes hrecipe).held
        rw [hheld] at hsf
        cases hsf
        rw [hname, (finish_eq i scheduled files policy stored pushed).1, hv]
        apply Rules.value_of_answers hq hafter
        intro b hb
        obtain ⟨x, hx, rfl⟩ := List.mem_map.mp hb
        exact h.answers hrecipe x hx
      · exact hother hname (hn.resolve_left hname)
    · exact hother hn.2 hn.1

theorem step (h : InOrder k s a done) (hfits : m.Fits k a) (hcareful : m.Careful k a)
    (horderly : Orderly k a done m) : InOrder k s (m.apply k a) (m.done a done) where
  backed := h.backed.step hfits hcareful
  sources n hn := by
    rw [← h.sources n hn]
    by_contra hne
    exact (horderly.quiet n hne).2 hn
  done := h.step_done hfits hcareful horderly
  answers hrc x hx := by
    rcases Move.recipe_apply hfits hrc hx with ⟨rc, hold, hx⟩ | ⟨sent, answers, next, hm, hrecipe, hvalue⟩
    · exact h.answers hold x hx
    · rw [hvalue]
      exact h.ready (horderly.looks _ _ _ _ _ hm hrecipe)

end InOrder

theorem Orderly.plain {e : Event} (h : ∀ f mx, e = .isdirty f mx →
    (isdirtyDefault [] s.disk s.R s.db f mx).result = .ok .clean →
      k.rules.value s.sees f.name = some (s.sees f.name)) : Orderly k s done (.plain e) where
  quiet _ hne := absurd rfl hne
  looks _ _ _ _ _ hm := nomatch hm
  clean f mx hm := h f mx (Move.plain.inj hm)

/-- All steps but walks. -/
theorem Orderly.walkless {e : Event} (h : e.walks = false) : Orderly k s done (.plain e) := by
  apply Orderly.plain
  rintro f mx rfl
  cases h

/-- A hit or a completion, which leaves all other files alone. -/
theorem Orderly.replacing {name : String} (htarget : m.target s = some name)
    (hrule : k.rules.rule name ≠ none) (h : ∀ n, n ≠ name → (m.apply k s).sees n = s.sees n) :
    Orderly k s done m where
  quiet n hne := by
    have hn : n = name := by
      by_contra hn
      exact hne (h n hn)
    rw [hn]
    exact ⟨htarget, hrule⟩
  looks _ _ _ _ _ hm := by
    rw [hm] at htarget
    cases htarget
  clean _ _ hm := by
    rw [hm] at htarget
    cases htarget

theorem Orderly.start {id : FileId} : Orderly k s done (.start id) where
  quiet n hne := by
    rw [Move.apply] at hne
    split at hne <;> exact absurd rfl hne
  looks _ _ _ _ _ hm := nomatch hm
  clean _ _ hm := nomatch hm

theorem Orderly.look {id : FileId} {sent : Bool} (h : ∀ answers name next,
    s.recipe id = some ⟨answers, .ask name next⟩ → Ready k done name) :
    Orderly k s done (.look id sent) where
  quiet n hne := by
    rw [Move.apply] at hne
    split at hne <;> exact absurd rfl hne
  looks _ _ answers name next hm hrecipe := by
    cases hm
    exact h answers name next hrecipe
  clean _ _ hm := nomatch hm

theorem Command.inOrder {cached : Bool} (h : Command k cached s a done) (hs : Backed k s) :
    InOrder k s a done := by
  induction h with
  | start hidle =>
    refine ⟨hs, fun _ _ => rfl, fun n hn => hn.elim, fun {id rc} hrc => ?_⟩
    obtain ⟨sf, q, hsf, -⟩ := (hs.recipes hrc).held
    rw [hidle id] at hsf
    cases hsf
  | step _ hfits hcareful horderly _ ih => exact ih.step hfits hcareful horderly

/-- In every history whose steps are careful, every hit is sound, and what a command has brought up
to date is what it is after the command without the cache. -/
theorem hits_sound {s₀ s : Site V} (h : s₀.Begun)
    (hrun : Relation.ReflTransGen (CarefulStep k) s₀ s) :
    (∀ m : Move V, m.Fits k s → m.Careful k s → SoundHit k s m) ∧
      ∀ (a b : Site V) (done done' : Set String) (f : String), Command k true s a done →
        Command k false s b done' → Ready k done f → Ready k done' f → a.sees f = b.sees f := by
  have hbacked := h.run_backed hrun
  refine ⟨fun m hfits hcareful => hbacked.soundHit hfits hcareful, ?_⟩
  intro a b done done' f ha hb hf hf'
  have hvalue := (ha.inOrder hbacked).ready hf
  rw [(hb.inOrder hbacked).ready hf'] at hvalue
  exact (Option.some.inj hvalue).symm


section Chain
/-! A target `f` copies `g`, and `g` copies the source `s`. What a file is, is the length of its
stamp. -/

def copyRule (name : String) : Option (Query String ℕ) :=
  if name = "f" then some (.ask "f.do" fun _ => .ask "g" .done)
  else if name = "g" then some (.ask "g.do" fun _ => .ask "s" .done)
  else none

def copyRules : Rules String ℕ where
  rule := copyRule
  level name := if name = "f" then 2 else if name = "g" then 1 else 0
  acyclic n q h := by
    unfold copyRule at h
    split at h
    · cases h
      subst n
      exact .ask (by decide) fun _ => .ask (by decide) fun v => .done v
    · split at h
      · cases h
        subst n
        exact .ask (by decide) fun _ => .ask (by decide) fun v => .done v
      · cases h

def copying : Setting ℕ where
  rules := copyRules
  platform := linux

def chainDisk (f g s : Stamp) : Disk where
  readStamp name :=
    if name = "f" then f else if name = "g" then g else if name = "s" then s
    else if name = "f.do" ∨ name = "g.do" then "5.0-1" else STAMP_MISSING
  pathExists name :=
    if name = "f" then f ≠ STAMP_MISSING else if name = "g" then g ≠ STAMP_MISSING
    else name = "s" ∨ name = "f.do" ∨ name = "g.do"

/-- No content is ever read for the server. -/
def chainFiles (f g s : Stamp) : Files ℕ where
  disk := chainDisk f g s
  sees name := ((chainDisk f g s).readStamp name).length
  contents _ := none

instance (s : Site ℕ) (name : String) : Decidable (s.Tells name) :=
  inferInstanceAs (Decidable (∀ _ ∈ _, _ → _))

namespace Site

def empty : Site ℕ where
  R := 1
  disk := chainDisk STAMP_MISSING STAMP_MISSING "3.0"
  db := { files := [{ id := ALWAYS_ID, name := ALWAYS }] }
  sees := (chainFiles STAMP_MISSING STAMP_MISSING "3.0").sees
  contents _ := none
  past := [chainFiles STAMP_MISSING STAMP_MISSING "3.0"]

variable (s : Site ℕ)

def row (id : FileId) : File := (s.db.byId s.R id).getD { id, name := "" }

def insert (id : FileId) (name : String) : Site ℕ := (Move.plain (.insert id name)).apply copying s

def request (id rule : FileId) : Cache.Request :=
  { R := s.R, sf := s.row id, candidates := [s.row rule], poolFree := true }

def attempt (id rule : FileId) : Site ℕ := (Move.plain (.attempt (s.request id rule))).apply copying s

def start (id : FileId) : Site ℕ := (Move.start id).apply copying s

/-- The recipe declares a file, and looks at its rule and at the file. -/
def declare (id source : FileId) : Site ℕ := (Move.plain (.ifchange id source)).apply copying s

def look (id : FileId) : Site ℕ := (Move.look id false).apply copying s

def walk (id : FileId) : Site ℕ := (Move.plain (.isdirty (s.row id) s.R)).apply copying s

/-- The recipe ends with code 0, and its output gets this stamp. -/
def made (id : FileId) (stamp : Stamp)
    (hrow : (s.db.lookup ((s.building id).getD { id, name := "" }).id).isSome) : Input where
  R := s.R
  rv := 0
  before := none
  target := none
  tmp := some { mtime := 9 }
  stdout := []
  offset := 0
  sf := (s.building id).getD { id, name := "" }
  db := s.db
  calls :=
    { created := { mtime := 9 }
      readStamp := fun n => if n.isSome then stamp else STAMP_MISSING }
  row := hrow

def named : Site ℕ :=
  ((((empty.insert 2 "f.do").insert 3 "f").insert 4 "g.do").insert 5 "g").insert 6 "s"

/-- The recipe of `f` has called `redo-ifchange g`, and that of `g` has looked at `s`. -/
def reading : Site ℕ :=
  (((((((named.attempt 3 2).start 3).declare 3 5).attempt 5 4).start 5).declare 5 6).look 5).look 5

def finishing (i : Input) (files : Files ℕ) (stored : Bool) : Move ℕ :=
  .finish i true files none stored false

def builtG : Site ℕ :=
  (finishing (reading.made 5 "9.0" (by decide)) (chainFiles STAMP_MISSING "9.0" "3.0") true).apply
    copying reading

def copied : Site ℕ := (builtG.look 3).look 3

def builtF : Site ℕ :=
  (finishing (copied.made 3 "8.0" (by decide)) (chainFiles "8.0" "9.0" "3.0") true).apply copying
    copied

/-- Both are built and stored, and the next run begins. -/
def second : Site ℕ := (Move.plain (.newRun 2)).apply copying builtF

/-- `s` has been edited, and `redo-ifchange` has found `f` dirty. -/
def stale : Site ℕ := ((second.change (chainFiles "8.0" "9.0" "44.0")).walk 3).attempt 3 2

/-- `f` has been removed. -/
def cleared : Site ℕ := second.change (chainFiles STAMP_MISSING "9.0" "3.0")

def removed : Site ℕ := (cleared.walk 3).attempt 3 2

/-- A hit for `f`. -/
def hitF (files : Files ℕ) : Move ℕ := .hit 3 none files

/-- Without the cache the recipe of `f` starts, and that of `g` for it. -/
def reasking : Site ℕ :=
  ((((((removed.start 3).declare 3 5).attempt 5 4).start 5).declare 5 6).look 5).look 5

def remakeG : Move ℕ :=
  finishing (reasking.made 5 "5.0" (by decide)) (chainFiles STAMP_MISSING "5.0" "3.0") false

def reread : Site ℕ := ((remakeG.apply copying reasking).look 3).look 3

def remakeF : Move ℕ :=
  finishing (reread.made 3 "6.0" (by decide)) (chainFiles "6.0" "5.0" "3.0") false

theorem empty_begun : empty.Begun where
  db := rfl
  positive := by decide
  building := rfl
  callsAlways := rfl
  calledAlways := rfl
  rebuilt := rfl
  foundClean := rfl
  past := rfl
  recipe := rfl
  store := rfl
  index := rfl

variable {s} {id rule source : FileId}

theorem insert_step {name : String} (h : ∀ r ∈ s.db.files, r.id ≠ id ∧ r.name ≠ name) :
    CarefulStep copying s (s.insert id name) :=
  ⟨.plain (.insert id name), ⟨h, rfl⟩, trivial, rfl⟩

theorem attempt_fits (h : s.db.byId s.R id = some (s.row id) ∧ s.building id = none ∧
    s.db.byId s.R rule = some (s.row rule) ∧ (s.row rule).name ≠ ALWAYS) :
    (Move.plain (.attempt (s.request id rule))).Fits copying s := by
  obtain ⟨hid, hidle, hrule, hname⟩ := h
  have hrow : (s.row id).id = id := Db.byId_id hid
  have hcand : (s.row rule).id = rule := Db.byId_id hrule
  refine ⟨⟨rfl, ?_, ?_, rfl, ?_⟩, rfl⟩
  · rwa [request, hrow]
  · rwa [request, hrow]
  · intro cand hmem
    obtain rfl := List.mem_singleton.mp hmem
    rw [hcand]
    exact ⟨hrule, hname⟩

theorem attempt_step (h : s.db.byId s.R id = some (s.row id) ∧ s.building id = none ∧
    s.db.byId s.R rule = some (s.row rule) ∧ (s.row rule).name ≠ ALWAYS) :
    CarefulStep copying s (s.attempt id rule) :=
  ⟨_, attempt_fits h, trivial, rfl⟩

theorem walk_fits (h : s.db.byId s.R id = some (s.row id)) :
    (Move.plain (.isdirty (s.row id) s.R)).Fits copying s := by
  have hrow : (s.row id).id = id := Db.byId_id h
  refine ⟨?_, rfl⟩
  rwa [Event.Fits, hrow]

theorem walk_step (h : s.db.byId s.R id = some (s.row id)) : CarefulStep copying s (s.walk id) :=
  ⟨_, walk_fits h, trivial, rfl⟩

theorem start_fits (hidle : (s.recipe id).isNone = true)
    (hheld : (s.building id).any (fun sf => (copyRule sf.name).isSome) = true) :
    (Move.start id).Fits copying s := by
  obtain ⟨sf, hsf, hrule⟩ := (Option.any_eq_true _ _).mp hheld
  exact ⟨Option.isNone_iff_eq_none.mp hidle, sf, hsf, hrule⟩

theorem start_step (hidle : (s.recipe id).isNone = true)
    (hheld : (s.building id).any (fun sf => (copyRule sf.name).isSome) = true) :
    CarefulStep copying s (s.start id) :=
  ⟨_, start_fits hidle hheld, trivial, rfl⟩

theorem declare_step (h : (s.building id).isSome = true ∧ (s.db.lookup source).isSome = true) :
    CarefulStep copying s (s.declare id source) :=
  ⟨.plain (.ifchange id source), ⟨h, rfl⟩, trivial, rfl⟩

theorem named_run : Relation.ReflTransGen (CarefulStep copying) empty named :=
  ((((Relation.ReflTransGen.single (insert_step (by decide))).tail (insert_step (by decide))).tail
    (insert_step (by decide))).tail (insert_step (by decide))).tail (insert_step (by decide))

theorem begun_run : Relation.ReflTransGen (CarefulStep copying) empty
    ((((((named.attempt 3 2).start 3).declare 3 5).attempt 5 4).start 5).declare 5 6) :=
  (((((named_run.tail (attempt_step (by decide))).tail (start_step (by decide) (by decide))).tail
    (declare_step (by decide))).tail (attempt_step (by decide))).tail
      (start_step (by decide) (by decide))).tail (declare_step (by decide))

/-- The file that a program asks for next. -/
def asked : Query String ℕ → Option String
  | .done _ => none
  | .ask name _ => some name

def ended : Query String ℕ → Option ℕ
  | .done v => some v
  | .ask _ _ => none

theorem look_fits (h : (s.recipe id).any (fun rc => (asked rc.rest).any fun name =>
    s.db.deps.any fun d => d.target = id && !d.deleteMe && (s.db.lookup d.source).any (·.name = name)) =
      true) : (Move.look id false).Fits copying s := by
  obtain ⟨⟨answers, rest⟩, hrc, hasked⟩ := (Option.any_eq_true _ _).mp h
  obtain ⟨name, hname, hnoted⟩ := (Option.any_eq_true _ _).mp hasked
  obtain ⟨d, hd, hdep⟩ := List.any_eq_true.mp hnoted
  simp only [Bool.and_eq_true, decide_eq_true_eq, Bool.not_eq_true'] at hdep
  obtain ⟨⟨htarget, hkept⟩, hrow⟩ := hdep
  obtain ⟨r, hr, hrname⟩ := (Option.any_eq_true _ _).mp hrow
  cases rest with
  | done v => cases hname
  | ask n next =>
    cases hname
    exact ⟨answers, name, next, hrc, fun _ =>
      ⟨d.source, r, hr, of_decide_eq_true hrname, d, hd, htarget, rfl, hkept⟩⟩

theorem look_step (h : (s.recipe id).any (fun rc => (asked rc.rest).any fun name =>
    s.db.deps.any fun d => d.target = id && !d.deleteMe && (s.db.lookup d.source).any (·.name = name)) =
      true) : CarefulStep copying s (s.look id) :=
  ⟨_, look_fits h, trivial, rfl⟩

/-- The recipe has had all its answers. -/
theorem finish_fits {i : Input} {files : Files ℕ} {stored : Bool}
    (hfits : (Event.finish i true files.disk).Fits s.toProject)
    (hcode : (outcome i true).ended = .code 0)
    (h : (s.recipe i.sf.id).any (fun rc =>
      (ended rc.rest).any (fun v => files.sees i.sf.name = v) && rc.answers.all (!·.sent)) = true) :
    (finishing i files stored).Fits copying s := by
  obtain ⟨⟨answers, rest⟩, hrc, h⟩ := (Option.any_eq_true _ _).mp h
  simp only [Bool.and_eq_true, List.all_eq_true, Bool.not_eq_true'] at h
  obtain ⟨hended, hanswers⟩ := h
  obtain ⟨v, hv, hvalue⟩ := (Option.any_eq_true _ _).mp hended
  cases rest with
  | ask n next => cases hv
  | done v' =>
    cases hv
    refine ⟨hfits, fun _ => ⟨answers, v, hrc, of_decide_eq_true hvalue, ?_⟩, fun _ => hcode⟩
    intro a ha hsent
    rw [hanswers a ha] at hsent
    cases hsent

/-- The files are still as the recipe has seen them. -/
theorem finish_step {i : Input} {files : Files ℕ}
    (hfits : (finishing i files true).Fits copying s)
    (h : (s.recipe i.sf.id).all (fun rc => rc.answers.all fun a => files.sees a.name = a.value) = true) :
    CarefulStep copying s ((finishing i files true).apply copying s) := by
  refine ⟨_, hfits, fun _ => ⟨?_, nofun⟩, rfl⟩
  intro rc hrc a ha
  rw [hrc] at h
  exact of_decide_eq_true (List.all_eq_true.mp h a ha)

theorem reading_run : Relation.ReflTransGen (CarefulStep copying) empty reading :=
  (begun_run.tail (look_step (by decide))).tail (look_step (by decide))

theorem builtG_run : Relation.ReflTransGen (CarefulStep copying) empty builtG :=
  reading_run.tail (finish_step
    (finish_fits (by rw [Event.Fits]; decide) (by decide) (by decide)) (by decide))

theorem copied_run : Relation.ReflTransGen (CarefulStep copying) empty copied :=
  (builtG_run.tail (look_step (by decide))).tail (look_step (by decide))

theorem builtF_idle (x : FileId) : builtF.building x = none := by
  by_cases hf : x = 3
  · subst hf
    rfl
  by_cases hg : x = 5
  · subst hg
    rfl
  exact (Function.update_of_ne hf _ _).trans ((Function.update_of_ne hg _ _).trans
    ((Function.update_of_ne hg _ _).trans (Function.update_of_ne hf _ _)))

theorem second_run : Relation.ReflTransGen (CarefulStep copying) empty second := by
  have hfinish : (finishing (copied.made 3 "8.0" (by decide)) (chainFiles "8.0" "9.0" "3.0") true).Fits
      copying copied := finish_fits (by rw [Event.Fits]; decide) (by decide) (by decide)
  exact (copied_run.tail (finish_step hfinish (by decide))).tail
    ⟨.plain (.newRun 2), ⟨⟨builtF_idle, by decide⟩, rfl⟩, trivial, rfl⟩

theorem change_step {files : Files ℕ} : CarefulStep copying s (s.change files) :=
  ⟨.edit files, trivial, trivial, rfl⟩

theorem hitF_fits {f f' g t : Stamp} (hheld : s.building 3 = some (s.row 3))
    (hhit : (s.db.refresh s.R (s.row 3)).csum = none ∧
      ∀ p ∈ s.db.depsOf s.R (s.row 3), p.2.name ≠ ALWAYS) (hname : (s.row 3).name = "f")
    (hidle : s.recipe 3 = none) (hfound : s.found none (s.row 3) = some f'.length)
    (hfiles : s.files = chainFiles f g t) :
    (hitF (chainFiles f' g t)).Fits copying s := by
  obtain ⟨hdisk, hsees, hcontents⟩ := Files.mk.inj hfiles
  refine ⟨hidle, ⟨s.row 3, hheld, hhit⟩, s.row 3, f'.length, hheld, hfound, ?_, ?_, ?_, ?_, ?_⟩
  · rw [hname]
    rfl
  · intro n hn
    rw [hname] at hn
    simp [hsees, chainFiles, chainDisk, hn]
  · intro n hn
    rw [hname] at hn
    simp [hdisk, chainFiles, chainDisk, hn]
  · intro n hn
    rw [hname] at hn
    simp [hdisk, chainFiles, chainDisk, hn]
  · intro n _
    rw [hcontents]
    rfl

theorem stale_run : Relation.ReflTransGen (CarefulStep copying) empty stale :=
  ((second_run.tail change_step).tail (walk_step (by decide))).tail (attempt_step (by decide))

theorem cleared_run : Relation.ReflTransGen (CarefulStep copying) empty cleared :=
  second_run.tail change_step

theorem removed_run : Relation.ReflTransGen (CarefulStep copying) empty removed :=
  (cleared_run.tail (walk_step (by decide))).tail (attempt_step (by decide))

theorem hitF_removed : (hitF (chainFiles "7.0" "9.0" "3.0")).Fits copying removed :=
  hitF_fits (by decide) (by decide) (by decide) rfl (by decide) rfl

theorem hitF_careful : (hitF (chainFiles "7.0" "9.0" "3.0")).Careful copying removed := by
  have hheld : removed.building 3 = some (removed.row 3) := by decide
  intro sf hsf
  rw [hheld] at hsf
  cases hsf
  decide

theorem cleared_idle (x : FileId) : cleared.building x = none := builtF_idle x

theorem removed_command (cached : Bool) : ∃ done, Command copying cached cleared removed done := by
  have hwalk : Command copying cached cleared (cleared.walk 3) _ :=
    .step (.start cleared_idle) (walk_fits (by decide)) trivial
      (.plain fun f mx he hclean => by
        cases he
        revert hclean
        decide) fun _ => rfl
  exact ⟨_, .step hwalk (attempt_fits (by decide)) trivial (.walkless rfl) fun _ => rfl⟩

/-- With the cache, `f` is brought up to date by a hit. -/
theorem restored_command : ∃ done, Command copying true cleared
    ((hitF (chainFiles "7.0" "9.0" "3.0")).apply copying removed) done ∧ "f" ∈ done := by
  obtain ⟨done, hremoved⟩ := removed_command true
  have hheld : removed.building 3 = some (removed.row 3) := by decide
  have hname : (removed.row 3).name = "f" := by decide
  have htarget : (hitF (chainFiles "7.0" "9.0" "3.0")).target removed = some "f" := by
    rw [hitF, Move.target, hheld, ← hname]
    rfl
  have hsees : ((hitF (chainFiles "7.0" "9.0" "3.0")).apply copying removed).sees = _ :=
    (place_eq hheld (chainFiles "7.0" "9.0" "3.0")).1
  obtain ⟨-, -, sf, v, hsf, -, hplaced⟩ := hitF_removed
  rw [hheld] at hsf
  cases hsf
  refine ⟨_, .step hremoved hitF_removed hitF_careful
    (.replacing htarget (by decide) fun n hn => ?_) nofun, ?_⟩
  · rw [hsees]
    exact hplaced.sees n (by rwa [hname])
  · rw [hitF, Move.done, hheld]
    exact .inl hname.symm

/-- The file that the recipe looks at. -/
theorem look_command (name : String) {done : Set String} (h : Command copying false cleared s done)
    (hfits : (Move.look id false).Fits copying s)
    (hname : (s.recipe id).bind (fun rc => asked rc.rest) = some name)
    (hready : Ready copying done name) : Command copying false cleared (s.look id) done := by
  refine .step h hfits trivial (.look fun answers name' next hrc => ?_) fun _ => rfl
  rw [hrc] at hname
  cases hname
  exact hready

theorem finish_command {done : Set String} {i : Input} {files : Files ℕ}
    (h : Command copying false cleared s done) (hfits : (finishing i files false).Fits copying s)
    (hcode : (outcome i true).ended = .code 0)
    (hquiet : ∀ n, n ≠ i.sf.name → files.sees n = s.sees n)
    (hrule : copying.rules.rule i.sf.name ≠ none) :
    Command copying false cleared ((finishing i files false).apply copying s)
      (Insert.insert i.sf.name done) := by
  have hsees : ((finishing i files false).apply copying s).sees = files.sees := (finish_eq ..).1
  have hstep := h.step hfits nofun (.replacing rfl hrule fun n hn => ?_) fun _ => rfl
  · rw [finishing, Move.done, if_pos hcode] at hstep
    exact hstep
  · rw [hsees]
    exact hquiet n hn

theorem reasking_command : ∃ done, Command copying false cleared reasking done := by
  obtain ⟨done, hremoved⟩ := removed_command false
  have hstart : Command copying false cleared (removed.start 3) done :=
    .step hremoved (start_fits (by decide) (by decide)) trivial .start fun _ => rfl
  have hdeclare : Command copying false cleared ((removed.start 3).declare 3 5) done :=
    .step hstart ⟨by rw [Event.Fits]; decide, rfl⟩ trivial (.walkless rfl) fun _ => rfl
  have hattempt : Command copying false cleared (((removed.start 3).declare 3 5).attempt 5 4) done :=
    .step hdeclare (attempt_fits (by decide)) trivial (.walkless rfl) fun _ => rfl
  have hstarted : Command copying false cleared
      ((((removed.start 3).declare 3 5).attempt 5 4).start 5) done :=
    .step hattempt (start_fits (by decide) (by decide)) trivial .start fun _ => rfl
  have hdeclared : Command copying false cleared
      (((((removed.start 3).declare 3 5).attempt 5 4).start 5).declare 5 6) done :=
    .step hstarted ⟨by rw [Event.Fits]; decide, rfl⟩ trivial (.walkless rfl) fun _ => rfl
  exact ⟨done, look_command "s"
    (look_command "g.do" hdeclared (look_fits (by decide)) (by decide) (.inr (by decide)))
    (look_fits (by decide)) (by decide) (.inr (by decide))⟩

/-- Without it, by its recipe. -/
theorem remade_command : ∃ done, Command copying false cleared (remakeF.apply copying reread) done ∧
    "f" ∈ done := by
  obtain ⟨done, hreasking⟩ := reasking_command
  have hremade : Command copying false cleared (remakeG.apply copying reasking) (Insert.insert "g" done) := by
    refine finish_command hreasking (finish_fits (by rw [Event.Fits]; decide) (by decide) (by decide))
      (by decide) (fun n hn => ?_) (by decide)
    have hsees : reasking.sees = (chainFiles STAMP_MISSING "9.0" "3.0").sees := rfl
    have hname : n ≠ "g" := hn
    rw [hsees]
    simp [chainFiles, chainDisk, hname]
  have hreread : Command copying false cleared reread (Insert.insert "g" done) :=
    look_command "g"
      (look_command "f.do" hremade (look_fits (by decide)) (by decide) (.inr (by decide)))
      (look_fits (by decide)) (by decide) (.inl (.inl rfl))
  refine ⟨_, finish_command hreread
    (finish_fits (by rw [Event.Fits]; decide) (by decide) (by decide)) (by decide) (fun n hn => ?_)
    (by decide), .inl rfl⟩
  have hsees : reread.sees = (chainFiles STAMP_MISSING "5.0" "3.0").sees := rfl
  have hname : n ≠ "f" := hn
  rw [hsees]
  simp [chainFiles, chainDisk, hname]

/-- While `g` and `s` are as they were, the cache gives back `f`, as its recipe would make it. -/
theorem hits_sound_removed : SoundHit copying removed (hitF (chainFiles "7.0" "9.0" "3.0")) ∧
    ((hitF (chainFiles "7.0" "9.0" "3.0")).apply copying removed).sees "f" =
      (remakeF.apply copying reread).sees "f" := by
  obtain ⟨done, hrestored, hf⟩ := restored_command
  obtain ⟨done', hremade, hf'⟩ := remade_command
  exact ⟨(hits_sound empty_begun removed_run).1 _ hitF_removed hitF_careful,
    (hits_sound empty_begun cleared_run).2 _ _ _ _ _ hrestored hremade (.inl hf) (.inl hf')⟩

/-- After `s` has been edited, the cache gives back what `f` has been before. -/
theorem not_hits_sound : ¬∀ (V : Type) (k : Setting V) (s₀ s : Site V) (m : Move V), s₀.Begun →
    Relation.ReflTransGen (SiteStep k) s₀ s → m.Fits k s → SoundHit k s m := by
  intro h
  have hrun : Relation.ReflTransGen (SiteStep copying) empty stale :=
    Relation.ReflTransGen.mono (fun _ _ => CarefulStep.step) _ _ stale_run
  have hheld : stale.building 3 = some (stale.row 3) := by decide
  have hfits : (hitF (chainFiles "7.0" "9.0" "44.0")).Fits copying stale :=
    hitF_fits hheld (by decide) (by decide) rfl (by decide) rfl
  have hsound := h ℕ copying empty stale _ empty_begun hrun hfits 3 (stale.row 3) rfl hheld
  have hvalue : copying.rules.value stale.sees (stale.row 3).name = some 4 := by decide
  have hsees : ((hitF (chainFiles "7.0" "9.0" "44.0")).apply copying stale).sees
      (stale.row 3).name = 3 := by decide
  rw [hvalue, hsees] at hsound
  exact absurd hsound (by decide)

end Site

end Chain
end Redo.Runs
