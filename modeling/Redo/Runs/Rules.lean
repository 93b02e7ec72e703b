import Redo.Runs.Rows

/-! # What is recorded of the choice of a `.do` file

The search for a `.do` file records `'c'` for each candidate that is not there and `'m'` for the
one that it comes to. Both stay until something else is recorded for the same two files.
-/
namespace Redo.Runs
open State Dirtiness Override Completion

/-- How a target has come by its `.do` file. -/
structure Rule where
  /-- The candidates that were not there. -/
  earlier : List FileId
  chosen : FileId
deriving DecidableEq

/-- The rule that the search comes to. -/
def ruleOf (q : Cache.Request) (w : Cache.World) : Option Rule :=
  (q.chosen w).map fun c =>
    { earlier := (q.candidates.takeWhile fun c => !w.disk.pathExists c.name).map (·.id)
      chosen := c.id }

/-- There is a dependency of `x` on `y`, and it has this mode. -/
structure Recorded (db : Db) (x y : FileId) (mode : Char) (P : Dep → Prop) : Prop where
  known : (db.lookup y).isSome = true
  dep : ∃ d ∈ db.deps, d.target = x ∧ d.source = y ∧ P d
  mode : ∀ d ∈ db.deps, d.target = x → d.source = y → d.mode = mode

/-- Not marked for deletion. -/
def Kept (d : Dep) : Prop := d.deleteMe = false

/-- What the choice of a `.do` file has left in the tables. -/
structure Declared (db : Db) (x : FileId) (rule : Rule) (P : Dep → Prop) : Prop where
  earlier : ∀ y ∈ rule.earlier, y ≠ ALWAYS_ID ∧ Recorded db x y 'c' P
  chosen : Recorded db x rule.chosen 'm' P

/-- The dependencies of `x` are the same, and no row is lost. -/
structure SameDeps (x : FileId) (db db' : Db) : Prop where
  known : ∀ y, (db.lookup y).isSome = true → (db'.lookup y).isSome = true
  deps : ∀ d, d.target = x → (d ∈ db'.deps ↔ d ∈ db.deps)

variable {db db' : Db} {x y : FileId} {mode : Char} {P Q : Dep → Prop} {rule : Rule}

namespace Recorded

theorem same (h : Recorded db x y mode P) (hsame : SameDeps x db db') : Recorded db' x y mode P where
  known := hsame.known y h.known
  dep := by
    obtain ⟨d, hd, ht, hs, hP⟩ := h.dep
    exact ⟨d, (hsame.deps d ht).mpr hd, ht, hs, hP⟩
  mode d hd ht hs := h.mode d ((hsame.deps d ht).mp hd) ht hs

theorem mono (h : Recorded db x y mode P) (hPQ : ∀ d, P d → Q d) : Recorded db x y mode Q where
  known := h.known
  dep := by
    obtain ⟨d, hd, ht, hs, hP⟩ := h.dep
    exact ⟨d, hd, ht, hs, hPQ d hP⟩
  mode := h.mode

theorem save (h : Recorded db x y mode P) (f : File) : Recorded (db.save f) x y mode P :=
  { h with known := (isSome_save db f y).trans h.known }

/-- Another dependency of the same target. -/
theorem addDep (h : Recorded db x y mode P) {id source : FileId} {m : Char}
    (hmode : id = x → source = y → m = mode) (hP : P ⟨x, y, mode, false⟩) :
    Recorded (db.addDep id m source) x y mode P where
  known := h.known
  dep := by
    obtain ⟨d, hd, ht, hs, hd'⟩ := h.dep
    by_cases hkey : d.target = id ∧ d.source = source
    · refine ⟨_, List.mem_append_right _ (List.mem_singleton.mpr rfl), hkey.1.symm.trans ht,
        hkey.2.symm.trans hs, ?_⟩
      rw [← hkey.1, ← hkey.2, ht, hs, hmode (hkey.1.symm.trans ht) (hkey.2.symm.trans hs)]
      exact hP
    · exact ⟨d, List.mem_append_left _ (List.mem_filter.mpr ⟨hd, decide_eq_true hkey⟩), ht, hs, hd'⟩
  mode d hd ht hs := by
    rcases List.mem_append.mp hd with hd | hd
    · exact h.mode d (List.mem_filter.mp hd).1 ht hs
    · obtain rfl := List.mem_singleton.mp hd
      exact hmode ht hs

/-- The dependency has just been recorded. -/
theorem added (hknown : (db.lookup y).isSome = true) (hP : P ⟨x, y, mode, false⟩) :
    Recorded (db.addDep x mode y) x y mode P where
  known := hknown
  dep := ⟨_, List.mem_append_right _ (List.mem_singleton.mpr rfl), rfl, rfl, hP⟩
  mode d hd ht hs := by
    rcases List.mem_append.mp hd with hd | hd
    · exact absurd ⟨ht, hs⟩ (of_decide_eq_true (List.mem_filter.mp hd).2)
    · obtain rfl := List.mem_singleton.mp hd
      rfl

theorem zapDeps2 (h : Recorded db x y mode Kept) (id : FileId) :
    Recorded (db.zapDeps2 id) x y mode Kept where
  known := h.known
  dep := by
    obtain ⟨d, hd, ht, hs, hP⟩ := h.dep
    refine ⟨d, List.mem_filter.mpr ⟨hd, ?_⟩, ht, hs, hP⟩
    simp [show d.deleteMe = false from hP]
  mode d hd := h.mode d (List.mem_filter.mp hd).1

/-- The search does not come by `y` again with another mode. -/
theorem findDo {disk : Disk} {R : RunId} {sf : File} {candidates : List File}
    (h : Recorded db sf.id y 'c' P) (hP : P ⟨sf.id, y, 'c', false⟩)
    (hne : ∀ c ∈ candidates, disk.pathExists c.name = true → c.id ≠ y) :
    Recorded (Cache.findDo disk R sf candidates db).2 sf.id y 'c' P := by
  induction candidates generalizing db with
  | nil => exact h
  | cons c rest ih =>
    rw [Cache.findDo]
    split
    · rename_i hexists
      exact (h.addDep (fun _ hs => absurd hs (hne c List.mem_cons_self hexists)) hP).save _
    · exact ih (h.addDep (fun _ _ => rfl) hP) fun c' hmem => hne c' (List.mem_cons_of_mem c hmem)

end Recorded

namespace Declared

theorem same (h : Declared db x rule P) (hsame : SameDeps x db db') : Declared db' x rule P where
  earlier y hy := ⟨(h.earlier y hy).1, (h.earlier y hy).2.same hsame⟩
  chosen := h.chosen.same hsame

theorem mono (h : Declared db x rule P) (hPQ : ∀ d, P d → Q d) : Declared db x rule Q where
  earlier y hy := ⟨(h.earlier y hy).1, (h.earlier y hy).2.mono hPQ⟩
  chosen := h.chosen.mono hPQ

theorem save (h : Declared db x rule P) (f : File) : Declared (db.save f) x rule P where
  earlier y hy := ⟨(h.earlier y hy).1, (h.earlier y hy).2.save f⟩
  chosen := h.chosen.save f

/-- A declaration that says nothing else of the candidates. -/
theorem addDep (h : Declared db x rule P) (hP : ∀ d, d.deleteMe = false → P d) {id source : FileId}
    {m : Char} (hearlier : id = x → source ∈ rule.earlier → m = 'c')
    (hchosen : id = x → source = rule.chosen → m = 'm') : Declared (db.addDep id m source) x rule P where
  earlier y hy := ⟨(h.earlier y hy).1,
    (h.earlier y hy).2.addDep (fun hid hs => hearlier hid (hs ▸ hy)) (hP _ rfl)⟩
  chosen := h.chosen.addDep hchosen (hP _ rfl)

theorem zapDeps2 (h : Declared db x rule Kept) (id : FileId) :
    Declared (db.zapDeps2 id) x rule Kept where
  earlier y hy := ⟨(h.earlier y hy).1, (h.earlier y hy).2.zapDeps2 id⟩
  chosen := h.chosen.zapDeps2 id

/-- What is declared again has the modes that are recorded. -/
theorem redeclare (h : Declared db x rule Kept) (id : FileId) {l : List (Char × File)}
    (hl : ∀ p ∈ l, id = x → (p.2.id ∈ rule.earlier → p.1 = 'c') ∧ (p.2.id = rule.chosen → p.1 = 'm')) :
    Declared (l.foldl (fun db p => db.addDep id p.1 p.2.id) db) x rule Kept := by
  induction l generalizing db with
  | nil => exact h
  | cons p rest ih =>
    have hp := hl p List.mem_cons_self
    exact ih (h.addDep (fun _ hd => hd) (fun hid => (hp hid).1) fun hid => (hp hid).2)
      fun q hq => hl q (List.mem_cons_of_mem p hq)

theorem findDo {disk : Disk} {R : RunId} {sf c : File} {candidates : List File}
    (hP : ∀ d, d.deleteMe = false → P d)
    (hrows : ∀ c ∈ candidates, (db.lookup c.id).isSome = true ∧ c.id ≠ ALWAYS_ID)
    (hids : ∀ c ∈ candidates, ∀ c' ∈ candidates, c.id = c'.id → c = c')
    (hc : candidates.find? (fun c => disk.pathExists c.name) = some c) :
    Declared (Cache.findDo disk R sf candidates db).2 sf.id
      { earlier := (candidates.takeWhile fun c => !disk.pathExists c.name).map (·.id)
        chosen := c.id } P := by
  induction candidates generalizing db with
  | nil => cases hc
  | cons c₁ rest ih =>
    have hrow := hrows c₁ List.mem_cons_self
    rw [Cache.findDo]
    cases hexists : disk.pathExists c₁.name with
    | true =>
      simp only [List.find?_cons, hexists, Option.some.injEq] at hc
      subst hc
      simp only [List.takeWhile_cons, hexists, Bool.not_true, Bool.false_eq_true, if_false,
        if_true, List.map_nil]
      exact ⟨fun y hy => absurd hy List.not_mem_nil, (Recorded.added hrow.1 (hP _ rfl)).save _⟩
    | false =>
      simp only [List.find?_cons, hexists] at hc
      simp only [List.takeWhile_cons, hexists, Bool.not_false, Bool.false_eq_true, if_false,
        if_true, List.map_cons]
      have hrest : Declared (Cache.findDo disk R sf rest (db.addDep sf.id 'c' c₁.id)).2 sf.id _ P :=
        ih (fun c hmem => hrows c (List.mem_cons_of_mem c₁ hmem))
          (fun c hmem c' hmem' => hids c (List.mem_cons_of_mem c₁ hmem) c'
            (List.mem_cons_of_mem c₁ hmem')) hc
      refine ⟨fun y hy => ?_, hrest.chosen⟩
      rcases List.mem_cons.mp hy with rfl | hy
      · refine ⟨hrow.2, (Recorded.added hrow.1 (hP _ rfl)).findDo (hP _ rfl) fun c' hmem hc' hid => ?_⟩
        obtain rfl := hids c' (List.mem_cons_of_mem c₁ hmem) c₁ List.mem_cons_self hid
        rw [hexists] at hc'
        cases hc'
      · exact hrest.earlier y hy

end Declared

namespace SameDeps

theorem refl (x : FileId) (db : Db) : SameDeps x db db := ⟨fun _ h => h, fun _ _ => Iff.rfl⟩

theorem trans {db'' : Db} (h : SameDeps x db db') (h' : SameDeps x db' db'') : SameDeps x db db'' :=
  ⟨fun y hy => h'.known y (h.known y hy), fun d hd => (h'.deps d hd).trans (h.deps d hd)⟩

theorem save (db : Db) (f : File) : SameDeps x db (db.save f) :=
  ⟨fun y hy => (isSome_save db f y).trans hy, fun _ _ => Iff.rfl⟩

theorem addDep (db : Db) {id : FileId} (hx : x ≠ id) (m : Char) (source : FileId) :
    SameDeps x db (db.addDep id m source) where
  known _ h := h
  deps d hd := by
    have hid : d.target ≠ id := fun h => hx (hd.symm.trans h)
    have hnew : d ≠ ⟨id, source, m, false⟩ := by
      rintro rfl
      exact hx hd.symm
    simp [Db.addDep, hid, hnew]

theorem zapDeps1 (db : Db) {id : FileId} (hx : x ≠ id) : SameDeps x db (db.zapDeps1 id) where
  known _ h := h
  deps d hd := by
    have hid : d.target ≠ id := fun h => hx (hd.symm.trans h)
    simp only [Db.zapDeps1, List.mem_map]
    constructor
    · rintro ⟨d', hd', rfl⟩
      split at hid
      · rename_i h
        exact absurd h hid
      · rename_i h
        rwa [if_neg h]
    · intro hmem
      exact ⟨d, hmem, if_neg hid⟩

theorem zapDeps2 (db : Db) {id : FileId} (hx : x ≠ id) : SameDeps x db (db.zapDeps2 id) where
  known _ h := h
  deps d hd := by
    have hid : d.target ≠ id := fun h => hx (hd.symm.trans h)
    simp [Db.zapDeps2, hid]

theorem redeclare (db : Db) {id : FileId} (hx : x ≠ id) (l : List (Char × File)) :
    SameDeps x db (l.foldl (fun db p => db.addDep id p.1 p.2.id) db) := by
  induction l generalizing db with
  | nil => exact refl x db
  | cons p rest ih => exact (addDep db hx p.1 p.2.id).trans (ih _)

theorem applyRemoteDeps (db : Db) {id : FileId} (hx : x ≠ id) (l : List (Char × Option FileId)) :
    SameDeps x db (Input.applyRemoteDeps id l db).2 := by
  induction l generalizing db with
  | nil => exact refl x db
  | cons p rest ih =>
    obtain ⟨m, source⟩ := p
    cases source with
    | none => exact refl x db
    | some source => exact (addDep db hx m source).trans (ih _)

theorem findDo (db : Db) {disk : Disk} {R : RunId} {sf : File} (hx : x ≠ sf.id)
    (candidates : List File) : SameDeps x db (Cache.findDo disk R sf candidates db).2 := by
  induction candidates generalizing db with
  | nil => exact refl x db
  | cons c rest ih =>
    rw [Cache.findDo]
    split
    · exact (addDep db hx 'm' c.id).trans (save _ _)
    · exact (addDep db hx 'c' c.id).trans (ih _)

theorem prepare {q : Cache.Request} {w : Cache.World} (hx : x ≠ q.sf.id) :
    SameDeps x w.db (q.prepare w).2.db := by
  have hx' : x ≠ (q.target w).id := by rwa [Cache.Request.target_id]
  have hsaved : SameDeps x w.db (if w.disk.pathExists q.sf.name || q.sf.isGenerated then w.db
      else w.db.save (q.target w)) := by
    split
    · exact refl x w.db
    · exact save w.db _
  exact (hsaved.trans (zapDeps1 _ hx)).trans (findDo _ hx' q.candidates)

end SameDeps

/-- The target whose dependencies the event sorts out. -/
def Event.sorts : Event → Option FileId
  | .attempt q => some q.sf.id
  | .cacheHit id => some id
  | .finish i _ _ => some i.sf.id
  | _ => none

variable {s : Project} {e : Event}

/-- The target that the event declares something for. -/
def Event.declares : Event → Option FileId
  | .ifchange id _ | .ifcreate id _ | .always id => some id
  | _ => none

/-- Other events leave the dependencies of a target alone. -/
theorem Event.Fits.sameDeps (hfits : e.Fits s) (howns : HoldsOwn s) (hsorts : e.sorts ≠ some x)
    (hdeclares : e.declares ≠ some x) : SameDeps x s.db (e.apply s).db := by
  cases e with
  | newRun | edit | die => exact .refl x s.db
  | insert id name => exact ⟨fun y hy => Event.Fits.known hfits hy, fun _ _ => Iff.rfl⟩
  | isdirty f mx =>
    have halong : Along s.db _ ((Event.isdirty f mx).apply s).db := isdirtyDefault_along hfits mx
    refine ⟨fun y hy => (halong.known y).trans hy, fun d _ => ?_⟩
    rw [halong.deps]
  | attempt q =>
    have hx : x ≠ q.sf.id := fun heq => hsorts (congrArg some heq.symm)
    rw [Event.apply]
    cases hout : q.scheduleBuildOne false noCalls s.world with
    | none => exact .refl x s.db
    | some out =>
      obtain ⟨o, db, disk⟩ := out
      have hsame : SameDeps x s.db db := by
        cases Cache.Request.scheduleBuildOne_ends hfits.2.2.2.1 hout with
        | skipped => exact .refl x s.db
        | kept => exact .save s.db _
        | unruled => exact (SameDeps.prepare (w := s.world) hx).trans (.save _ _)
        | recipe => exact SameDeps.prepare (w := s.world) hx
      cases o <;> exact hsame
  | cacheHit id =>
    have hx : x ≠ id := fun heq => hsorts (congrArg some heq.symm)
    rw [Event.apply]
    cases hb : s.building id with
    | none => exact .refl x s.db
    | some sf =>
      rw [← howns id sf hb] at hx
      exact ((SameDeps.redeclare s.db hx _).trans (.zapDeps2 _ hx)).trans (.save _ _)
  | giveUp id =>
    rw [Event.apply]
    split
    · exact .refl x s.db
    · exact .save s.db _
  | ifchange id source =>
    have hx : x ≠ id := fun heq => hdeclares (congrArg some heq.symm)
    rw [Event.apply]
    split
    · exact .refl x s.db
    · exact (SameDeps.addDep s.db hx 'm' source).trans (.save _ _)
  | ifcreate id source =>
    have hx : x ≠ id := fun heq => hdeclares (congrArg some heq.symm)
    exact .addDep s.db hx 'c' source
  | always id =>
    have hx : x ≠ id := fun heq => hdeclares (congrArg some heq.symm)
    rw [Event.apply]
    split
    · exact ((SameDeps.addDep s.db hx 'm' ALWAYS_ID).trans (.save _ _)).trans (.save _ _)
    · exact .refl x s.db
  | stamp id csum =>
    rw [Event.apply]
    split
    · exact .refl x s.db
    · exact .save s.db _
  | finish i scheduled disk =>
    have hx : x ≠ i.sf.id := fun heq => hsorts (congrArg some heq.symm)
    obtain ⟨-, -, hdb, hend, -⟩ := hfits
    obtain ⟨db, r, hbase, -, hsaved⟩ := outcome_commits hend
    have hbased : SameDeps x s.db db := by
      rw [← hdb]
      cases hbase with
      | tables => exact .refl x i.db
      | remote =>
        unfold Input.applyRemote
        cases i.remote with
        | off | unreadable => exact .refl x i.db
        | deps l => exact .applyRemoteDeps i.db hx l
    rw [Event.apply, hsaved]
    exact (hbased.trans (.zapDeps2 _ hx)).trans (.save _ r)

/-- What is declared stays declared, as long as the recipe says nothing else. -/
theorem Declared.apply (h : Declared s.db x rule P) (hfits : e.Fits s) (howns : HoldsOwn s)
    (hP : ∀ d, d.deleteMe = false → P d) (hsorts : e.sorts ≠ some x)
    (hifchange : ∀ y, e = .ifchange x y → y ∉ rule.earlier)
    (hifcreate : ∀ y, e = .ifcreate x y → y ≠ rule.chosen) :
    Declared (e.apply s).db x rule P := by
  by_cases hdeclares : e.declares = some x
  swap
  · exact h.same (hfits.sameDeps howns hsorts hdeclares)
  cases e with
  | ifchange id source =>
    rw [Event.apply]
    split
    · exact h
    · refine (h.addDep hP ?_ fun _ _ => rfl).save _
      rintro rfl hmem
      exact absurd hmem (hifchange source rfl)
  | ifcreate id source =>
    refine h.addDep hP (fun _ _ => rfl) ?_
    rintro rfl hsource
    exact absurd hsource (hifcreate source rfl)
  | always id =>
    rw [Event.apply]
    split
    · refine ((h.addDep hP ?_ fun _ _ => rfl).save _).save _
      exact fun _ hmem => absurd rfl (h.earlier _ hmem).1
    · exact h
  | _ => cases hdeclares

/-- The dependencies that a remote job reports say nothing else of the candidates. -/
def Rule.Agrees (rule : Rule) : Remote → Prop
  | .deps l => ∀ p ∈ l, (∀ y ∈ rule.earlier, p.2 = some y → p.1 = 'c') ∧
      (p.2 = some rule.chosen → p.1 = 'm')
  | _ => True

namespace Declared

/-- The recipe is about to start. -/
theorem prepare {q : Cache.Request} {w : Cache.World} {R : RunId}
    (hrows : ∀ c ∈ q.candidates, w.db.byId R c.id = some c ∧ c.id ≠ ALWAYS_ID)
    (hrule : ruleOf q w = some rule) : Declared (q.prepare w).2.db q.sf.id rule Kept := by
  obtain ⟨c, hc, rfl⟩ := Option.map_eq_some_iff.mp hrule
  have hids : ∀ c ∈ q.candidates, ∀ c' ∈ q.candidates, c.id = c'.id → c = c' := by
    intro c hmem c' hmem' hid
    have hrow := (hrows c hmem).1
    rw [hid, (hrows c' hmem').1] at hrow
    exact (Option.some.inj hrow).symm
  have hknown : ∀ c ∈ q.candidates, ((Db.zapDeps1
      (if w.disk.pathExists q.sf.name || q.sf.isGenerated then w.db
        else w.db.save (q.target w)) q.sf.id).lookup c.id).isSome = true ∧ c.id ≠ ALWAYS_ID := by
    intro c hmem
    obtain ⟨r, hr, -⟩ := Option.map_eq_some_iff.mp (hrows c hmem).1
    refine ⟨?_, (hrows c hmem).2⟩
    change ((if _ then w.db else w.db.save (q.target w)).lookup c.id).isSome = true
    split
    · rw [hr]
      rfl
    · rw [isSome_save, hr]
      rfl
  have hfound : Declared (Cache.findDo w.disk q.R (q.target w) q.candidates _).2 (q.target w).id _ Kept :=
    findDo (fun _ hd => hd) hknown hids hc
  rw [Cache.Request.target_id] at hfound
  exact hfound

theorem hit {sf : File} (h : Declared db sf.id rule Kept) (R : RunId) (n : Stamp) :
    Declared (hitDb R n sf db) sf.id rule Kept := by
  refine ((h.redeclare sf.id fun p hp _ => ?_).zapDeps2 _).save _
  obtain ⟨m, g⟩ := p
  obtain ⟨-, -, d, hd, ht, hm, hs⟩ := Db.mem_depsOf.mp hp
  have hid : g.id = d.source := Db.byId_id hs
  constructor
  · intro hmem
    rw [← hm]
    exact (h.earlier g.id hmem).2.mode d hd ht hid.symm
  · intro hchosen
    rw [← hm]
    exact h.chosen.mode d hd ht (hid.symm.trans hchosen)

theorem applyRemoteDeps {id : FileId} (h : Declared db id rule Kept)
    {l : List (Char × Option FileId)} (hl : rule.Agrees (.deps l)) :
    Declared (Input.applyRemoteDeps id l db).2 id rule Kept := by
  induction l generalizing db with
  | nil => exact h
  | cons p rest ih =>
    obtain ⟨m, source⟩ := p
    have hrest : rule.Agrees (.deps rest) := fun p hp => hl p (List.mem_cons_of_mem _ hp)
    cases source with
    | none => exact h
    | some source =>
      obtain ⟨hearlier, hchosen⟩ := hl _ List.mem_cons_self
      refine ih (h.addDep (fun _ hd => hd) (fun _ hmem => hearlier source hmem rfl) ?_) hrest
      exact fun _ hsource => hchosen (congrArg some hsource)

theorem finish {i : Input} {o : Outcome} (h : Declared i.db i.sf.id rule Kept)
    (hcommits : i.Commits o) (hremote : rule.Agrees i.remote) : Declared o.db i.sf.id rule Kept := by
  obtain ⟨db, r, hbase, -, hsaved⟩ := hcommits
  have hbased : Declared db i.sf.id rule Kept := by
    cases hbase with
    | tables => exact h
    | remote =>
      unfold Input.applyRemote
      cases hr : i.remote with
      | off | unreadable => exact h
      | deps l =>
        rw [hr] at hremote
        exact h.applyRemoteDeps hremote
  rw [hsaved]
  exact (hbased.zapDeps2 _).save r

end Declared

end Redo.Runs
