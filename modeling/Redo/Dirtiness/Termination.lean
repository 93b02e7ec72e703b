import Redo.Dirtiness.Agreement

/-! # The walks end on every table

No path repeats an id, so calls are nested at most as deep as there are files. A path comes back
to one of its own files only along a cycle, so files that are merely shared are never taken for
one.
-/
namespace Redo.Dirtiness
open State Library Relation

/-- A row of `Deps` with mode `m` whose source has a row in `Files`. -/
def Needs (db : Db) (a b : FileId) : Prop :=
  (∃ d ∈ db.deps, d.target = a ∧ d.mode = 'm' ∧ d.source = b) ∧ b ∈ db.files.map (·.id)

def ReachesCycle (db : Db) (a : FileId) : Prop :=
  ∃ b, ReflTransGen (Needs db) a b ∧ TransGen (Needs db) b b

/-- The rows may be rewritten, but they stay the same rows, with the same dependencies. -/
structure SameRows (db₀ db : Db) : Prop where
  deps : db.deps = db₀.deps
  ids : db.files.map (·.id) = db₀.files.map (·.id)

/-- The errors that a walk from `a` may end with. -/
def Excused (db : Db) (a : FileId) : WalkError → Prop
  | .cyclicDependency => ReachesCycle db a
  | .outOfFuel => False

/-- Marking a file checked leaves all rows in their places. -/
def Closures.Tame (c : Closures) : Prop := ∀ s f, SameRows s.db (c.setChecked s f).2.db

/-- A walk from `a` with its calls nested `n` deep at most: more room than for one call a file
makes no difference. -/
structure Ends {σ : Type} (db : Db) (a : FileId) (walk : ℕ → Except WalkError DirtyResult × σ) :
    Prop where
  ends : (walk (budget db)).1 ≠ .error .outOfFuel
  deep : ∀ n, budget db ≤ n → walk n = walk (budget db)
  cyclic : (walk (budget db)).1 = .error .cyclicDependency → ReachesCycle db a

variable {c : Closures} {disk : Disk} {R : RunId} {db₀ db : Db} {a b : FileId}

theorem ReachesCycle.of_needs (hab : Needs db a b) (h : ReachesCycle db b) : ReachesCycle db a := by
  obtain ⟨x, hx, hcycle⟩ := h
  exact ⟨x, .head hab hx, hcycle⟩

theorem Excused.of_needs {e : WalkError} (hab : Needs db a b) (h : Excused db b e) :
    Excused db a e := by
  cases e with
  | cyclicDependency => exact ReachesCycle.of_needs hab h
  | outOfFuel => exact h

namespace SameRows

theorem refl (db : Db) : SameRows db db := ⟨rfl, rfl⟩

theorem trans {db₁ db₂ : Db} (h : SameRows db₀ db₁) (h' : SameRows db₁ db₂) : SameRows db₀ db₂ :=
  ⟨h'.deps.trans h.deps, h'.ids.trans h.ids⟩

theorem save (db : Db) (f : File) : SameRows db (db.save f) := by
  refine ⟨rfl, ?_⟩
  simp only [Db.save, List.map_map]
  apply List.map_congr_left
  intro r _
  by_cases hr : r.id = f.id <;> simp [hr]

theorem needs (h : SameRows db₀ db) {f g : File} (hg : ('m', g) ∈ db.depsOf R f) :
    Needs db₀ f.id g.id := by
  obtain ⟨-, -, d, hd, htarget, hmode, hsource⟩ := Db.mem_depsOf.mp hg
  have hid := Db.byId_id hsource
  rw [h.deps] at hd
  refine ⟨⟨d, hd, htarget, hmode, hid.symm⟩, ?_⟩
  rw [← h.ids]
  exact Db.id_mem_of_byId (Db.byId_of_mem_depsOf hg)

end SameRows

theorem builderClosures_tame (preflight : List FileId) : (builderClosures R preflight).Tame :=
  fun s f => SameRows.save s.db (f.setChecked R)

theorem oodClosures_tame : oodClosures.Tame := fun s _ => SameRows.refl s.db

/-- What a call on `a` leaves behind. -/
structure Bounded (db₀ : Db) (a : FileId) (out : Except WalkError DirtyResult × WalkState) :
    Prop where
  rows : SameRows db₀ out.2.db
  error : ∀ e, out.1 = .error e → Excused db₀ a e

theorem Bounded.ok {r : DirtyResult} {s : WalkState} (h : SameRows db₀ s.db) :
    Bounded db₀ a (.ok r, s) := by
  refine ⟨h, ?_⟩
  intro e he
  cases he

theorem Bounded.of_needs {out : Except WalkError DirtyResult × WalkState} (hab : Needs db₀ a b)
    (h : Bounded db₀ b out) : Bounded db₀ a out :=
  ⟨h.rows, fun e he => (h.error e he).of_needs hab⟩

/-- Two chains of tests that differ at their ends only. -/
theorem ite_stable {α : Type*} {p : Prop} [Decidable p] {a b b' : α} (P : α → Prop)
    (h : P (if p then a else b)) (hb : P b → b' = b) : (if p then a else b') = if p then a else b := by
  by_cases hp : p
  · rw [if_pos hp, if_pos hp]
  · rw [if_neg hp] at h
    rw [if_neg hp, if_neg hp, hb h]

theorem Bounded.ite {p : Prop} [Decidable p] {w w' : Walked} (hw : p → Bounded db₀ a w.out)
    (hw' : ¬p → Bounded db₀ a w'.out) : Bounded db₀ a (if p then w else w').out := by
  by_cases hp : p
  · rw [if_pos hp]
    exact hw hp
  · rw [if_neg hp]
    exact hw' hp

theorem depLoop_bounded {walk : File → RunId → WalkState → Walked} {f : File}
    {deps : List (Char × File)}
    (hwalk : ∀ g, ('m', g) ∈ deps → ∀ s, SameRows db₀ s.db →
      Bounded db₀ f.id (walk g f.lastSeen s).out)
    (mustBuild : List File) {s : WalkState} (hs : SameRows db₀ s.db) :
    Bounded db₀ f.id (depLoop walk disk f deps mustBuild s) := by
  induction deps generalizing mustBuild s with
  | nil => exact Bounded.ok hs
  | cons p rest ih =>
    have hdep : Bounded db₀ f.id (depDirty walk disk f p s) := by
      obtain ⟨m, g⟩ := p
      by_cases hc : m = 'c'
      · rw [depDirty, if_pos hc]
        exact Bounded.ok hs
      · rw [depDirty, if_neg hc]
        split
        · rename_i hm
          cases hm
          exact hwalk g List.mem_cons_self s hs
        · exact Bounded.ok hs
    have hrest := fun mb {s'} => @ih (fun g hg => hwalk g (List.mem_cons_of_mem p hg)) mb s'
    rw [depLoop]
    split
    · rename_i e s' he
      rw [he] at hdep
      exact hdep
    · rename_i s' he
      rw [he] at hdep
      exact hrest mustBuild hdep.rows
    · rename_i v s' he
      rw [he] at hdep
      exact hrest (mustBuild ++ v) hdep.rows
    · rename_i s' he
      rw [he] at hdep
      exact Bounded.ok hdep.rows

theorem forgetVanished_sameRows (R : RunId) (newstamp : Stamp) (f : File) (s : WalkState) :
    SameRows s.db (forgetVanished R newstamp f s).2.db := by
  unfold forgetVanished
  split
  · exact SameRows.save _ _
  · exact SameRows.refl _

theorem isdirty_bounded (hc : c.Tame) {fuel : ℕ} {f : File} {mx : RunId} {path : List FileId}
    {s : WalkState} (hroom : Room (db₀.files.map (·.id)) fuel path)
    (hpath : LeadsTo (Needs db₀) path f.id) (hf : f.id ∈ db₀.files.map (·.id))
    (hs : SameRows db₀ s.db) : Bounded db₀ f.id (isdirty c disk R fuel f mx path s).out := by
  induction fuel generalizing f mx path s with
  | zero => exact hroom.pos.elim
  | succ fuel ih =>
    rw [isdirty]
    refine Bounded.ite (fun honpath => ?_) fun honpath => ?_
    · refine ⟨hs, ?_⟩
      intro e he
      cases he
      exact ⟨f.id, .refl, hpath f.id (List.contains_iff_mem.mp honpath)⟩
    refine Bounded.ite (fun _ => Bounded.ok hs) fun _ => ?_
    refine Bounded.ite (fun _ => Bounded.ok hs) fun _ => ?_
    refine Bounded.ite (fun _ => Bounded.ok hs) fun _ => ?_
    refine Bounded.ite (fun _ => Bounded.ok hs) fun _ => ?_
    refine Bounded.ite (fun _ => Bounded.ok hs) fun _ => ?_
    refine Bounded.ite (fun _ => ?_) fun _ => ?_
    · exact Bounded.ok (hs.trans (forgetVanished_sameRows R _ f s))
    · have honpath : f.id ∉ path := fun hm => honpath (List.contains_iff_mem.mpr hm)
      have hloop : Bounded db₀ f.id
          (depLoop (fun f2 mx s => isdirty c disk R fuel f2 mx (path ++ [f.id]) s) disk f
            (s.db.depsOf R f) [] s) := by
        refine depLoop_bounded ?_ [] hs
        intro g hg s' hs'
        have hneeds := hs.needs hg
        exact (ih (hroom.step honpath hf) (hpath.step hneeds) hneeds.2 hs').of_needs hneeds
      split
      · rename_i s' he
        rw [he] at hloop
        exact Bounded.ok (hloop.rows.trans (hc s' f))
      · rename_i r s' _ he
        rw [he] at hloop
        exact hloop

theorem depLoop_stable {walk walk' : File → RunId → WalkState → Walked} {f : File}
    (hwalk : ∀ g mx s, (walk g mx s).result ≠ .error .outOfFuel → walk' g mx s = walk g mx s)
    (deps : List (Char × File)) (mustBuild : List File) (s : WalkState)
    (h : (depLoop walk disk f deps mustBuild s).1 ≠ .error .outOfFuel) :
    depLoop walk' disk f deps mustBuild s = depLoop walk disk f deps mustBuild s := by
  induction deps generalizing mustBuild s with
  | nil => rfl
  | cons p rest ih =>
    have hdep : (depDirty walk disk f p s).1 ≠ .error .outOfFuel →
        depDirty walk' disk f p s = depDirty walk disk f p s := by
      intro hne
      by_cases hc : p.1 = 'c'
      · rw [depDirty, depDirty, if_pos hc, if_pos hc]
      · rw [depDirty, if_neg hc] at hne
        rw [depDirty, depDirty, if_neg hc, if_neg hc]
        by_cases hm : p.1 = 'm'
        · rw [if_pos hm] at hne
          rw [if_pos hm, if_pos hm, hwalk _ _ _ hne]
        · rw [if_neg hm, if_neg hm]
    rw [depLoop] at h
    rw [depLoop, depLoop]
    cases hout : depDirty walk disk f p s with
    | mk r s' =>
      rw [hout] at h hdep
      cases r with
      | error e =>
        rw [hdep h]
      | ok r =>
        rw [hdep (by simp)]
        cases r with
        | clean => exact ih mustBuild s' h
        | dirty => rfl
        | mustBuild v => exact ih (mustBuild ++ v) s' h

/-- More room makes no difference to a walk that has had enough. -/
theorem isdirty_stable {n m : ℕ} (hnm : n ≤ m) {f : File} {mx : RunId} {path : List FileId}
    {s : WalkState} (h : (isdirty c disk R n f mx path s).result ≠ .error .outOfFuel) :
    isdirty c disk R m f mx path s = isdirty c disk R n f mx path s := by
  induction n generalizing m f mx path s with
  | zero => exact absurd rfl h
  | succ n ih =>
    obtain ⟨m, rfl⟩ : ∃ k, m = k + 1 := ⟨m - 1, by omega⟩
    rw [isdirty] at h
    rw [isdirty, isdirty]
    iterate 7 refine ite_stable (fun w : Walked => w.result ≠ .error .outOfFuel) h fun h => ?_
    have hwalk : ∀ g mx' s', (isdirty c disk R n g mx' (path ++ [f.id]) s').result ≠ .error .outOfFuel →
        isdirty c disk R m g mx' (path ++ [f.id]) s' = isdirty c disk R n g mx' (path ++ [f.id]) s' :=
      fun g mx' s' hg => ih (by omega) hg
    rw [depLoop_stable hwalk]
    intro he
    apply h
    split
    · rename_i s' hclean
      rw [hclean] at he
      cases he
    · rename_i r s' _ hout
      rw [hout] at he
      exact he

/-- What is remembered of the dependencies of a file are rows of the table. -/
def PlanCache.Consistent (db : Db) (p : PlanCache) : Prop :=
  ∀ a v, p.deps.lookup a = some v → ∀ g, ('m', g) ∈ v → Needs db a g.id

structure PlanBounded (db : Db) (a : FileId) (out : Except WalkError DirtyResult × PlanCache) :
    Prop where
  cache : out.2.Consistent db
  error : ∀ e, out.1 = .error e → Excused db a e

theorem PlanBounded.ok {r : DirtyResult} {p : PlanCache} (h : p.Consistent db) :
    PlanBounded db a (.ok r, p) := by
  refine ⟨h, ?_⟩
  intro e he
  cases he

theorem PlanBounded.of_needs {out : Except WalkError DirtyResult × PlanCache} (hab : Needs db a b)
    (h : PlanBounded db b out) : PlanBounded db a out :=
  ⟨h.cache, fun e he => (h.error e he).of_needs hab⟩

namespace PlanCache
variable {p : PlanCache}

theorem consistent_empty (db : Db) : PlanCache.Consistent db {} := by
  intro a v h
  cases h

theorem Consistent.readStampCached (h : p.Consistent db) (disk : Disk) (f : File) :
    (p.readStampCached disk f).2.Consistent db := by
  unfold PlanCache.readStampCached
  split
  · exact h
  · exact h

theorem Consistent.depsCached (h : p.Consistent db) (R : RunId) (f : File) :
    (p.depsCached db R f).2.Consistent db ∧
      ∀ g, ('m', g) ∈ (p.depsCached db R f).1 → Needs db f.id g.id := by
  unfold PlanCache.depsCached
  cases hlookup : p.deps.lookup f.id with
  | some v => exact ⟨h, h f.id v hlookup⟩
  | none =>
    have hfresh : ∀ g, ('m', g) ∈ db.depsOf R f → Needs db f.id g.id :=
      fun g hg => (SameRows.refl db).needs hg
    refine ⟨?_, hfresh⟩
    intro a v hv
    rw [List.lookup_cons] at hv
    by_cases ha : a = f.id
    · subst ha
      simp only [beq_self_eq_true, Option.some.injEq] at hv
      subst hv
      exact hfresh
    · rw [beq_eq_false_iff_ne.mpr ha] at hv
      exact h a v hv

end PlanCache

theorem PlanBounded.ite {p : Prop} [Decidable p] {out out' : Except WalkError DirtyResult × PlanCache}
    (h : p → PlanBounded db a out) (h' : ¬p → PlanBounded db a out') :
    PlanBounded db a (if p then out else out') := by
  by_cases hp : p
  · rw [if_pos hp]
    exact h hp
  · rw [if_neg hp]
    exact h' hp

theorem depLoopReadonly_bounded
    {walk : File → RunId → PlanCache → Except WalkError DirtyResult × PlanCache} {f : File}
    {deps : List (Char × File)}
    (hwalk : ∀ g, ('m', g) ∈ deps → ∀ p, p.Consistent db → PlanBounded db f.id (walk g f.lastSeen p))
    (mustBuild : List File) {p : PlanCache} (hp : p.Consistent db) :
    PlanBounded db f.id (depLoopReadonly walk disk f deps mustBuild p) := by
  induction deps generalizing mustBuild p with
  | nil => exact PlanBounded.ok hp
  | cons d rest ih =>
    have hdep : PlanBounded db f.id (depDirtyReadonly walk disk f d p) := by
      obtain ⟨m, g⟩ := d
      by_cases hc : m = 'c'
      · rw [depDirtyReadonly, if_pos hc]
        exact PlanBounded.ok hp
      · rw [depDirtyReadonly, if_neg hc]
        split
        · rename_i hm
          cases hm
          exact hwalk g List.mem_cons_self p hp
        · exact PlanBounded.ok hp
    have hrest := fun mb {p'} => @ih (fun g hg => hwalk g (List.mem_cons_of_mem d hg)) mb p'
    rw [depLoopReadonly]
    split
    · rename_i e p' he
      rw [he] at hdep
      exact hdep
    · rename_i p' he
      rw [he] at hdep
      exact hrest mustBuild hdep.cache
    · rename_i v p' he
      rw [he] at hdep
      exact hrest (mustBuild ++ v) hdep.cache
    · rename_i p' he
      rw [he] at hdep
      exact PlanBounded.ok hdep.cache

theorem isdirtyReadonly_bounded {fuel : ℕ} {f : File} {mx : RunId} {path : List FileId}
    {p : PlanCache} (hroom : Room (db.files.map (·.id)) fuel path)
    (hpath : LeadsTo (Needs db) path f.id) (hf : f.id ∈ db.files.map (·.id))
    (hp : p.Consistent db) :
    PlanBounded db f.id (isdirtyReadonly disk R db fuel f mx path p) := by
  induction fuel generalizing f mx path p with
  | zero => exact hroom.pos.elim
  | succ fuel ih =>
    have hstamp := hp.readStampCached disk f
    cases hread : p.readStampCached disk f with
    | mk newstamp p₁ =>
    rw [hread] at hstamp
    have hdeps := hstamp.depsCached R f
    cases hcached : p₁.depsCached db R f with
    | mk deps p₂ =>
    rw [hcached] at hdeps
    simp only [isdirtyReadonly, hread, hcached]
    refine PlanBounded.ite (fun honpath => ?_) fun honpath => ?_
    · refine ⟨hp, ?_⟩
      intro e he
      cases he
      exact ⟨f.id, .refl, hpath f.id (List.contains_iff_mem.mp honpath)⟩
    refine PlanBounded.ite (fun _ => PlanBounded.ok hp) fun _ => ?_
    refine PlanBounded.ite (fun _ => PlanBounded.ok hp) fun _ => ?_
    refine PlanBounded.ite (fun _ => PlanBounded.ok hp) fun _ => ?_
    refine PlanBounded.ite (fun _ => PlanBounded.ok hp) fun _ => ?_
    refine PlanBounded.ite (fun _ => PlanBounded.ok hp) fun _ => ?_
    refine PlanBounded.ite (fun _ => PlanBounded.ok hstamp) fun _ => ?_
    · have honpath : f.id ∉ path := fun hm => honpath (List.contains_iff_mem.mpr hm)
      have hloop : PlanBounded db f.id
          (depLoopReadonly
            (fun f2 mx p => isdirtyReadonly disk R db fuel f2 mx (path ++ [f.id]) p) disk f
            deps [] p₂) := by
        refine depLoopReadonly_bounded ?_ [] hdeps.1
        intro g hg p' hp'
        have hneeds := hdeps.2 g hg
        exact (ih (hroom.step honpath hf) (hpath.step hneeds) hneeds.2 hp').of_needs hneeds
      split
      · rename_i p' he
        rw [he] at hloop
        exact PlanBounded.ok hloop.cache
      · rename_i r p' _ he
        rw [he] at hloop
        exact hloop

theorem depLoopReadonly_stable
    {walk walk' : File → RunId → PlanCache → Except WalkError DirtyResult × PlanCache} {f : File}
    (hwalk : ∀ g mx p, (walk g mx p).1 ≠ .error .outOfFuel → walk' g mx p = walk g mx p)
    (deps : List (Char × File)) (mustBuild : List File) (p : PlanCache)
    (h : (depLoopReadonly walk disk f deps mustBuild p).1 ≠ .error .outOfFuel) :
    depLoopReadonly walk' disk f deps mustBuild p = depLoopReadonly walk disk f deps mustBuild p := by
  induction deps generalizing mustBuild p with
  | nil => rfl
  | cons d rest ih =>
    have hdep : (depDirtyReadonly walk disk f d p).1 ≠ .error .outOfFuel →
        depDirtyReadonly walk' disk f d p = depDirtyReadonly walk disk f d p := by
      intro hne
      by_cases hc : d.1 = 'c'
      · rw [depDirtyReadonly, depDirtyReadonly, if_pos hc, if_pos hc]
      · rw [depDirtyReadonly, if_neg hc] at hne
        rw [depDirtyReadonly, depDirtyReadonly, if_neg hc, if_neg hc]
        by_cases hm : d.1 = 'm'
        · rw [if_pos hm] at hne
          rw [if_pos hm, if_pos hm, hwalk _ _ _ hne]
        · rw [if_neg hm, if_neg hm]
    rw [depLoopReadonly] at h
    rw [depLoopReadonly, depLoopReadonly]
    cases hout : depDirtyReadonly walk disk f d p with
    | mk r p' =>
      rw [hout] at h hdep
      cases r with
      | error e =>
        rw [hdep h]
      | ok r =>
        rw [hdep (by simp)]
        cases r with
        | clean => exact ih mustBuild p' h
        | dirty => rfl
        | mustBuild v => exact ih (mustBuild ++ v) p' h

theorem isdirtyReadonly_stable {n m : ℕ} (hnm : n ≤ m) {f : File} {mx : RunId}
    {path : List FileId} {p : PlanCache}
    (h : (isdirtyReadonly disk R db n f mx path p).1 ≠ .error .outOfFuel) :
    isdirtyReadonly disk R db m f mx path p = isdirtyReadonly disk R db n f mx path p := by
  induction n generalizing m f mx path p with
  | zero => exact absurd rfl h
  | succ n ih =>
    obtain ⟨m, rfl⟩ : ∃ k, m = k + 1 := ⟨m - 1, by omega⟩
    cases hread : p.readStampCached disk f with
    | mk newstamp p₁ =>
    cases hcached : p₁.depsCached db R f with
    | mk deps p₂ =>
    simp only [isdirtyReadonly, hread, hcached] at h ⊢
    iterate 7
      refine ite_stable (fun out : Except WalkError DirtyResult × PlanCache => out.1 ≠ .error .outOfFuel) h
        fun h => ?_
    have hwalk : ∀ g mx' p', (isdirtyReadonly disk R db n g mx' (path ++ [f.id]) p').1 ≠
          .error .outOfFuel →
        isdirtyReadonly disk R db m g mx' (path ++ [f.id]) p' =
          isdirtyReadonly disk R db n g mx' (path ++ [f.id]) p' :=
      fun g mx' p' hg => ih (by omega) hg
    rw [depLoopReadonly_stable hwalk]
    intro he
    apply h
    split
    · rename_i p' hclean
      rw [hclean] at he
      cases he
    · rename_i r p' _ hout
      rw [hout] at he
      exact he

/-- The caches that a plan may have come to, the roots walked in any order. -/
inductive Planned (disk : Disk) (R : RunId) (db : Db) : PlanCache → Prop where
  | empty : Planned disk R db {}
  | walk {p : PlanCache} (h : Planned disk R db p) {f : File} (hf : f.id ∈ db.files.map (·.id))
      (mx : RunId) : Planned disk R db (isdirtyReadonly disk R db (budget db) f mx [] p).2

theorem Planned.consistent {p : PlanCache} (h : Planned disk R db p) : p.Consistent db := by
  induction h with
  | empty => exact PlanCache.consistent_empty db
  | walk h hf mx ih =>
    exact (isdirtyReadonly_bounded (Room.budget db) (leadsTo_nil _) hf ih).cache

theorem isdirty_ends (hc : c.Tame) {f : File} (hf : f.id ∈ db.files.map (·.id)) (mx : RunId)
    (cache : List FileId) :
    Ends db f.id fun n => (isdirty c disk R n f mx [] { db, cache }).out := by
  have hbounded : Bounded db f.id (isdirty c disk R (budget db) f mx [] { db, cache }).out :=
    isdirty_bounded hc (Room.budget db) (leadsTo_nil f.id) hf (SameRows.refl db)
  refine ⟨fun h => hbounded.error _ h, ?_, hbounded.error _⟩
  intro n hn
  have hstable := isdirty_stable hn fun h => hbounded.error _ h
  exact congrArg Walked.out hstable

theorem isdirtyReadonly_ends {f : File} (hf : f.id ∈ db.files.map (·.id)) (mx : RunId)
    {p : PlanCache} (hp : Planned disk R db p) :
    Ends db f.id fun n => isdirtyReadonly disk R db n f mx [] p := by
  have hbounded : PlanBounded db f.id (isdirtyReadonly disk R db (budget db) f mx [] p) :=
    isdirtyReadonly_bounded (Room.budget db) (leadsTo_nil f.id) hf hp.consistent
  exact ⟨fun h => hbounded.error _ h,
    fun n hn => isdirtyReadonly_stable hn fun h => hbounded.error _ h, hbounded.error _⟩

/-- Both walks end on every table, with their calls nested at most as deep as there are files,
and find a cycle only where there is one. -/
theorem walks_end (disk : Disk) (R : RunId) (db : Db) (f : File) (mx : RunId)
    (hf : f.id ∈ db.files.map (·.id)) :
    (∀ preflight cache, Ends db f.id fun n =>
      (isdirty (builderClosures R preflight) disk R n f mx [] { db, cache }).out) ∧
    (∀ cache, Ends db f.id fun n => (isdirty oodClosures disk R n f mx [] { db, cache }).out) ∧
    ∀ p, Planned disk R db p → Ends db f.id fun n => isdirtyReadonly disk R db n f mx [] p :=
  ⟨fun preflight => isdirty_ends (builderClosures_tame preflight) hf mx,
    isdirty_ends oodClosures_tame hf mx, fun _ hp => isdirtyReadonly_ends hf mx hp⟩

/-- Two targets built from each other. -/
def mutualDb : Db where
  files := [
    { id := 1, name := "a", isGenerated := true, changedRunid := some 3, stamp := some "9" },
    { id := 2, name := "b", isGenerated := true, changedRunid := some 3, stamp := some "9" }]
  deps := [⟨1, 2, 'm', false⟩, ⟨2, 1, 'm', false⟩]

def mutualA : File :=
  { id := 1, name := "a", isGenerated := true, changedRunid := some 3, stamp := some "9" }

theorem walks_end_mutual :
    (isdirtyDefault [] ⟨fun _ => "9", fun _ => true⟩ 5 mutualDb mutualA 5).out.1 =
        .error .cyclicDependency ∧ ReachesCycle mutualDb 1 := by
  have hends := (walks_end ⟨fun _ => "9", fun _ => true⟩ 5 mutualDb mutualA 5 (by decide)).1 [] []
  have hcyclic : (isdirtyDefault [] ⟨fun _ => "9", fun _ => true⟩ 5 mutualDb mutualA 5).out.1 =
      .error .cyclicDependency := by decide +kernel
  exact ⟨hcyclic, hends.cyclic hcyclic⟩

end Redo.Dirtiness
