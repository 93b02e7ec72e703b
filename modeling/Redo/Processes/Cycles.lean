import Mathlib.Logic.Relation
import Redo.Library.LexicalPaths
import Redo.State.Nodes

/-! # Ancestors' targets in the environment

A redo process that would wait for a lock of one of its ancestors would wait for ever. The
only news of ancestors that reaches it is `REDO_CYCLES`, a list of file ids that some of the
ways to start a child extend.
-/
namespace Redo.Processes
open State Library Relation

/-- `cycles::get`: the ids in a value of `REDO_CYCLES`. -/
def getCycles (env : List Char) : List (List Char) := (env.splitOn ':').filter (· ≠ [])

/-- `cycles::check`: whether it passes. -/
def checkCycles (env : List Char) (fid : FileId) : Bool := !(getCycles env).contains (digits fid)

/-- `cycles::add` joins a set, in whatever order its iterator takes. -/
def AddsCycle (fid : FileId) (env env' : List Char) : Prop :=
  ∃ items : List (List Char), items.Nodup ∧
    (∀ x, x ∈ items ↔ x ∈ getCycles env ∨ x = digits fid) ∧ env' = [':'].intercalate items

theorem digits_ne_nil (n : ℕ) : digits n ≠ [] := by
  rw [digits, Nat.toList_repr]
  exact Nat.toDigits_ne_nil

theorem digits_injective : Function.Injective digits := by
  intro m n h
  rw [digits, digits, Nat.toList_repr, Nat.toList_repr] at h
  have h' := congrArg (Nat.ofDigitChars 10 · 0) h
  simpa using h'

theorem colon_not_mem_digits (n : ℕ) : ':' ∉ digits n := by
  intro h
  rw [digits, Nat.toList_repr] at h
  have hd := Nat.isDigit_of_mem_toDigits (by decide) (by decide) h
  revert hd
  decide

theorem mem_getCycles_of_adds {fid : FileId} {env env' : List Char} (h : AddsCycle fid env env')
    (x : List Char) : x ∈ getCycles env' ↔ x ∈ getCycles env ∨ x = digits fid := by
  obtain ⟨items, -, hmem, rfl⟩ := h
  have hcolon : ∀ l ∈ items, ':' ∉ l := by
    intro l hl
    rcases (hmem l).mp hl with hl | rfl
    · exact not_mem_of_mem_splitOn (List.mem_filter.mp hl).1
    · exact colon_not_mem_digits fid
  have hne : items ≠ [] := List.ne_nil_of_mem ((hmem (digits fid)).mpr (Or.inr rfl))
  rw [getCycles, List.splitOn_intercalate _ hcolon hne, List.mem_filter, ← hmem]
  constructor
  · exact fun h => h.1
  · intro h
    refine ⟨h, ?_⟩
    rcases (hmem x).mp h with hx | rfl
    · exact (List.mem_filter.mp hx).2
    · simpa using digits_ne_nil fid

theorem checkCycles_eq_false {env : List Char} {fid : FileId} :
    checkCycles env fid = false ↔ digits fid ∈ getCycles env := by
  simp [checkCycles]

abbrev Pid := ℕ

/-- The three ways in which a process starts a child on behalf of a target that it has locked. -/
inductive Way where
  /-- `exec_dofile_in_child`. -/
  | recipe
  /-- `start_redo_unlocked_job`. -/
  | unlocked
  /-- The recipe of a missing dependency, run by a nested `build_one`. -/
  | nested
deriving DecidableEq

structure Proc where
  parent : Option Pid
  /-- The targets on whose behalf it was started. -/
  behalf : List (FileId × Way)
  /-- The value of `REDO_CYCLES` that it was started with. -/
  cycles : List Char

/-- Was it started in a way that extends `REDO_CYCLES` by the target? -/
def Proc.Marks (P : Proc) (f : FileId) : Prop := ∃ w, w ≠ Way.unlocked ∧ (f, w) ∈ P.behalf

structure Tree where
  procs : Pid → Option Proc
  /-- The process that owns the lock of a target. -/
  owner : FileId → Option Pid

def Tree.start (s : Tree) (q : Pid) (Q : Proc) : Tree :=
  { s with procs := Function.update s.procs q (some Q) }

def Tree.lock (s : Tree) (f : FileId) (p : Pid) : Tree :=
  { s with owner := Function.update s.owner f (some p) }

inductive Step : Tree → Tree → Prop where
  /-- `trylock` and `waitlock`, when they succeed. -/
  | lock {s : Tree} {p : Pid} {P : Proc} {f : FileId} (live : s.procs p = some P)
      (ok : checkCycles P.cycles f = true) (free : s.owner f = none) : Step s (s.lock f p)
  | unlock {s : Tree} {p : Pid} {f : FileId} (owned : s.owner f = some p) :
      Step s { s with owner := Function.update s.owner f none }
  /-- The kernel drops all locks of a process that has ended. -/
  | exit {s : Tree} (p : Pid) :
      Step s { s with owner := fun f => if s.owner f = some p then none else s.owner f }
  /-- The recipe of a target, whether the process owns its lock or runs unlocked. -/
  | recipe {s : Tree} {p q : Pid} {P : Proc} {f : FileId} {env : List Char}
      (live : s.procs p = some P) (fresh : s.procs q = none) (adds : AddsCycle f P.cycles env) :
      Step s (s.start q ⟨some p, [(f, .recipe)], env⟩)
  | unlocked {s : Tree} {p q : Pid} {P : Proc} {f : FileId} (live : s.procs p = some P)
      (fresh : s.procs q = none) (owned : s.owner f = some p) :
      Step s (s.start q ⟨some p, [(f, .unlocked)], P.cycles⟩)
  /-- The cache path of `f` builds its missing dependency `d`. -/
  | nested {s : Tree} {p q : Pid} {P : Proc} {f d : FileId} {env env' : List Char}
      (live : s.procs p = some P) (fresh : s.procs q = none) (owned : s.owner f = some p)
      (adds : AddsCycle f P.cycles env) (ok : checkCycles env d = true)
      (free : s.owner d = none) (adds' : AddsCycle d env env') :
      Step s ((s.lock d p).start q ⟨some p, [(f, .nested), (d, .recipe)], env'⟩)
  /-- What a recipe or `redo-unlocked` or `redo -j` runs inherits the environment as it is. -/
  | command {s : Tree} {p q : Pid} {P : Proc} (live : s.procs p = some P)
      (fresh : s.procs q = none) : Step s (s.start q ⟨some p, [], P.cycles⟩)

/-- Processes that the user has started; nothing is locked. -/
structure Start (s : Tree) : Prop where
  roots : ∀ p P, s.procs p = some P → P.parent = none ∧ P.behalf = []
  unlocked : ∀ f, s.owner f = none

/-- What comes of an attempt to lock. -/
inductive Attempt where
  | cyclic
  /-- `trylock` reports the target as locked, and `waitlock` blocks. -/
  | locked
  | acquired
deriving DecidableEq

def Tree.attempt (s : Tree) (r : Pid) (P : Proc) (f : FileId) : Attempt :=
  if checkCycles P.cycles f = false then .cyclic
  else if s.owner f = none ∨ s.owner f = some r then .acquired
  else .locked

def Child (s : Tree) (p q : Pid) : Prop := ∃ Q, s.procs q = some Q ∧ Q.parent = some p

/-- The process owns the lock of the target and waits for a child that it started for it. -/
structure WaitsFor (s : Tree) (p : Pid) (f : FileId) (q : Pid) : Prop where
  owned : s.owner f = some p
  child : ∃ Q w, s.procs q = some Q ∧ Q.parent = some p ∧ (f, w) ∈ Q.behalf

/-- How the environments hang together, in every state of every run. -/
structure Inv (s : Tree) : Prop where
  inherited : ∀ q Q p, s.procs q = some Q → Q.parent = some p → ∃ P, s.procs p = some P ∧
    ∀ x, x ∈ getCycles Q.cycles ↔ x ∈ getCycles P.cycles ∨ ∃ f, Q.Marks f ∧ x = digits f
  marked : ∀ q Q f, s.procs q = some Q → Q.Marks f → digits f ∈ getCycles Q.cycles
  owner : ∀ f p, s.owner f = some p → ∃ P, s.procs p = some P ∧ digits f ∉ getCycles P.cycles

theorem Start.inv {s : Tree} (h : Start s) : Inv s where
  inherited q Q p hq hp := by
    rw [(h.roots q Q hq).1] at hp
    cases hp
  marked q Q f hq hm := by
    obtain ⟨w, -, hw⟩ := hm
    rw [(h.roots q Q hq).2] at hw
    cases hw
  owner f p hf := by
    rw [h.unlocked f] at hf
    cases hf

section Updates
variable {s : Tree} {p q : Pid} {P Q : Proc} {f : FileId}

@[simp] theorem start_procs_self : (s.start q Q).procs q = some Q := Function.update_self ..

theorem start_procs_of_ne (h : p ≠ q) : (s.start q Q).procs p = s.procs p :=
  Function.update_of_ne h ..

/-- A fresh process takes nobody's place. -/
theorem start_procs_of_live (fresh : s.procs q = none) (hp : s.procs p = some P) :
    (s.start q Q).procs p = some P := by
  rw [start_procs_of_ne, hp]
  rintro rfl
  rw [fresh] at hp
  cases hp

@[simp] theorem lock_owner_self : (s.lock f p).owner f = some p := Function.update_self ..

theorem lock_owner_of_ne {g : FileId} (h : g ≠ f) : (s.lock f p).owner g = s.owner g :=
  Function.update_of_ne h ..

end Updates

section Steps
variable {s s' : Tree} {p q : Pid} {P Q : Proc} {f : FileId}

theorem Inv.start (h : Inv s) (live : s.procs p = some P) (fresh : s.procs q = none)
    (hp : Q.parent = some p) (henv : ∀ x, x ∈ getCycles Q.cycles ↔
      x ∈ getCycles P.cycles ∨ ∃ f, Q.Marks f ∧ x = digits f) : Inv (s.start q Q) where
  inherited q' Q' p' hq' hp' := by
    by_cases hne : q' = q
    · subst hne
      rw [start_procs_self] at hq'
      cases hq'
      rw [hp] at hp'
      cases hp'
      exact ⟨P, start_procs_of_live fresh live, henv⟩
    · rw [start_procs_of_ne hne] at hq'
      obtain ⟨P', hP', henv'⟩ := h.inherited q' Q' p' hq' hp'
      exact ⟨P', start_procs_of_live fresh hP', henv'⟩
  marked q' Q' g hq' hm := by
    by_cases hne : q' = q
    · subst hne
      rw [start_procs_self] at hq'
      cases hq'
      exact (henv _).mpr (Or.inr ⟨g, hm, rfl⟩)
    · rw [start_procs_of_ne hne] at hq'
      exact h.marked q' Q' g hq' hm
  owner g p' hg := by
    obtain ⟨P', hP', hnot⟩ := h.owner g p' hg
    exact ⟨P', start_procs_of_live fresh hP', hnot⟩

theorem Inv.lock (h : Inv s) (live : s.procs p = some P) (ok : digits f ∉ getCycles P.cycles) :
    Inv (s.lock f p) where
  inherited := h.inherited
  marked := h.marked
  owner g p' hg := by
    by_cases hne : g = f
    · subst hne
      rw [lock_owner_self] at hg
      cases hg
      exact ⟨P, live, ok⟩
    · rw [lock_owner_of_ne hne] at hg
      exact h.owner g p' hg

/-- Locks may be given up at any time. -/
theorem Inv.release (h : Inv s) {owner : FileId → Option Pid}
    (hle : ∀ g p, owner g = some p → s.owner g = some p) : Inv { s with owner } where
  inherited := h.inherited
  marked := h.marked
  owner g p hg := h.owner g p (hle g p hg)

theorem not_mem_of_checkCycles {env : List Char} (h : checkCycles env f = true) :
    digits f ∉ getCycles env := by
  intro hmem
  rw [checkCycles_eq_false.mpr hmem] at h
  cases h

theorem marks_recipe_iff {env : List Char} {g : FileId} :
    Proc.Marks ⟨some p, [(f, .recipe)], env⟩ g ↔ g = f := by
  simp [Proc.Marks]

theorem marks_nested_iff {env : List Char} {d g : FileId} :
    Proc.Marks ⟨some p, [(f, .nested), (d, .recipe)], env⟩ g ↔ g = f ∨ g = d := by
  constructor
  · rintro ⟨w, -, hw⟩
    simp only [List.mem_cons, Prod.mk.injEq, List.not_mem_nil, or_false] at hw
    exact hw.imp And.left And.left
  · rintro (rfl | rfl)
    · exact ⟨.nested, by decide, by simp⟩
    · exact ⟨.recipe, by decide, by simp⟩

/-- Each way to start a child extends the environment by what the child is marked with. -/
theorem Step.inv (h : Step s s') (hi : Inv s) : Inv s' := by
  cases h with
  | lock live ok _ => exact hi.lock live (not_mem_of_checkCycles ok)
  | @unlock p f owned =>
    refine hi.release fun g p' hg => ?_
    by_cases hne : g = f
    · subst hne
      rw [Function.update_self] at hg
      cases hg
    · rwa [Function.update_of_ne hne] at hg
  | exit p =>
    refine hi.release fun g p' hg => ?_
    split at hg
    · cases hg
    · exact hg
  | recipe live fresh adds =>
    apply hi.start live fresh rfl
    intro x
    rw [mem_getCycles_of_adds adds]
    simp [marks_recipe_iff]
  | unlocked live fresh _ =>
    apply hi.start live fresh rfl
    intro x
    simp [Proc.Marks]
  | @nested p q P f d env env' live fresh _ adds ok _ adds' =>
    have hnot : digits d ∉ getCycles P.cycles := fun hmem =>
      not_mem_of_checkCycles ok ((mem_getCycles_of_adds adds _).mpr (Or.inl hmem))
    apply (hi.lock live hnot).start live fresh rfl
    intro x
    rw [mem_getCycles_of_adds adds', mem_getCycles_of_adds adds, or_assoc]
    simp [marks_nested_iff]
  | command live fresh =>
    apply hi.start live fresh rfl
    intro x
    simp [Proc.Marks]

theorem inv_of_reachable {s₀ : Tree} (h₀ : Start s₀) (h : ReflTransGen Step s₀ s) : Inv s := by
  induction h with
  | refl => exact h₀.inv
  | tail _ hstep ih => exact hstep.inv ih

theorem Inv.mem_of_descendant (h : Inv s) {z r : Pid} {Z : Proc} (hd : ReflTransGen (Child s) z r)
    (hz : s.procs z = some Z) (hmem : digits f ∈ getCycles Z.cycles) :
    ∃ P, s.procs r = some P ∧ digits f ∈ getCycles P.cycles := by
  induction hd with
  | refl => exact ⟨Z, hz, hmem⟩
  | tail _ hchild ih =>
    obtain ⟨P', hP', hmem'⟩ := ih
    obtain ⟨P, hP, hparent⟩ := hchild
    obtain ⟨P'', hP'', henv⟩ := h.inherited _ P _ hP hparent
    rw [hP'] at hP''
    cases hP''
    exact ⟨P, hP, (henv _).mpr (Or.inl hmem')⟩

/-- What a descendant has in its environment and the owner of the lock has not was put there on
the way. -/
theorem Inv.marked_of_mem (h : Inv s) (hq : s.procs q = some Q) (hp : Q.parent = some p)
    (hP : s.procs p = some P) (hnot : digits f ∉ getCycles P.cycles) {r : Pid} {S : Proc}
    (hd : ReflTransGen (Child s) q r) (hr : s.procs r = some S)
    (hmem : digits f ∈ getCycles S.cycles) :
    ∃ z Z, ReflTransGen (Child s) q z ∧ ReflTransGen (Child s) z r ∧ s.procs z = some Z ∧
      Z.Marks f := by
  induction hd generalizing S with
  | refl =>
    rw [hq] at hr
    cases hr
    obtain ⟨P', hP', henv⟩ := h.inherited q Q p hq hp
    rw [hP] at hP'
    cases hP'
    rcases (henv _).mp hmem with hmem | ⟨g, hm, hg⟩
    · exact absurd hmem hnot
    · rw [digits_injective hg]
      exact ⟨q, Q, .refl, .refl, hq, hm⟩
  | @tail r' r hqr hchild ih =>
    obtain ⟨S', hS', hparent⟩ := hchild
    rw [hr] at hS'
    cases hS'
    obtain ⟨P', hP', henv⟩ := h.inherited r S r' hr hparent
    rcases (henv _).mp hmem with hmem | ⟨g, hm, hg⟩
    · obtain ⟨z, Z, hqz, hzr, hz, hm⟩ := ih hP' hmem
      exact ⟨z, Z, hqz, hzr.tail ⟨S, hr, hparent⟩, hz, hm⟩
    · rw [digits_injective hg]
      exact ⟨r, S, hqr.tail ⟨S, hr, hparent⟩, .refl, hr, hm⟩

end Steps

/-- An attempt by a descendant to lock the target that its ancestor waits for is refused as
cyclic exactly if a process on the way to it was started in one of the two ways that extend
`REDO_CYCLES`. -/
theorem attempt_cyclic_iff {s₀ s : Tree} (h₀ : Start s₀) (h : ReflTransGen Step s₀ s)
    {p q r : Pid} {f : FileId} (hw : WaitsFor s p f q) (hd : ReflTransGen (Child s) q r)
    {S : Proc} (hr : s.procs r = some S) :
    s.attempt r S f = .cyclic ↔ ∃ z Z, ReflTransGen (Child s) q z ∧
      ReflTransGen (Child s) z r ∧ s.procs z = some Z ∧ Z.Marks f := by
  have hi := inv_of_reachable h₀ h
  obtain ⟨Q, w, hq, hp, -⟩ := hw.child
  obtain ⟨P, hP, hnot⟩ := hi.owner f p hw.owned
  have hattempt : s.attempt r S f = .cyclic ↔ digits f ∈ getCycles S.cycles := by
    rw [Tree.attempt, ← checkCycles_eq_false]
    split_ifs <;> simp_all
  rw [hattempt]
  constructor
  · exact hi.marked_of_mem hq hp hP hnot hd hr
  · rintro ⟨z, Z, -, hzr, hz, hm⟩
    obtain ⟨S', hS', hmem⟩ := hi.mem_of_descendant hzr hz (hi.marked z Z f hz hm)
    rw [hr] at hS'
    cases hS'
    exact hmem

/-- `redo-ifchange` at top level, with the lock of file 1. -/
def holding : Tree where
  procs p := if p = 0 then some ⟨none, [], []⟩ else none
  owner f := if f = 1 then some 0 else none

/-- Its recipe for file 1 has started a redo command. -/
def recipeRuns : Tree :=
  (holding.start 1 ⟨some 0, [(1, .recipe)], ['1']⟩).start 2 ⟨some 1, [], ['1']⟩

/-- It has started `redo-unlocked` for file 1, which runs the recipe of file 2. The recipe
wants file 1. -/
def unlockedRuns : Tree :=
  (((holding.start 1 ⟨some 0, [(1, .unlocked)], []⟩).start 2 ⟨some 1, [], []⟩).start 3
    ⟨some 2, [(2, .recipe)], ['2']⟩).start 4 ⟨some 3, [], ['2']⟩

/-- The state before any lock is taken. -/
def idle : Tree := { holding with owner := fun _ => none }

theorem idle_start : Start idle where
  roots p P hp := by
    change (if p = 0 then _ else none) = some P at hp
    split at hp
    · cases hp
      exact ⟨rfl, rfl⟩
    · cases hp
  unlocked _ := rfl

theorem idle_holding : ReflTransGen Step idle holding := by
  have hlock : idle.lock 1 0 = holding := by
    rw [Tree.lock, idle, holding]
    congr 1
    ext f p
    by_cases hf : f = 1
    · subst hf
      simp
    · simp [hf]
  have hstep : Step idle (idle.lock 1 0) := .lock (P := ⟨none, [], []⟩) rfl (by decide) rfl
  rw [hlock] at hstep
  exact .single hstep

theorem attempt_cyclic_iff_recipe :
    recipeRuns.attempt 2 ⟨some 1, [], ['1']⟩ 1 = .cyclic ↔
      ∃ z Z, ReflTransGen (Child recipeRuns) 1 z ∧ ReflTransGen (Child recipeRuns) z 2 ∧
        recipeRuns.procs z = some Z ∧ Z.Marks 1 := by
  have hdigits : digits 1 = ['1'] := by decide
  have hadds : AddsCycle 1 [] ['1'] := ⟨[['1']], by decide, by simp [getCycles, hdigits], rfl⟩
  have hrecipe : Step holding (holding.start 1 ⟨some 0, [(1, .recipe)], ['1']⟩) :=
    .recipe (P := ⟨none, [], []⟩) rfl rfl hadds
  have hcommand : Step _ recipeRuns :=
    .command (p := 1) (q := 2) (P := ⟨some 0, [(1, .recipe)], ['1']⟩) rfl rfl
  exact attempt_cyclic_iff idle_start ((idle_holding.tail hrecipe).tail hcommand)
    (p := 0) ⟨rfl, _, .recipe, rfl, rfl, by simp⟩ (.single ⟨_, rfl, rfl⟩) rfl

/-- The attempt is not refused, and the process waits for its ancestor. -/
theorem not_attempt_cyclic : ¬∀ (s₀ s : Tree) (p : Pid) (f : FileId) (q r : Pid) (S : Proc),
    Start s₀ → ReflTransGen Step s₀ s → WaitsFor s p f q → ReflTransGen (Child s) q r →
      s.procs r = some S → s.attempt r S f = .cyclic := by
  intro h
  have hdigits : digits 2 = ['2'] := by decide
  have hadds : AddsCycle 2 [] ['2'] := ⟨[['2']], by decide, by simp [getCycles, hdigits], rfl⟩
  have h₁ : Step holding _ :=
    .unlocked (q := 1) (f := 1) (P := ⟨none, [], []⟩) (p := 0) rfl rfl rfl
  have h₂ : Step _ _ := .command (s := holding.start 1 ⟨some 0, [(1, .unlocked)], []⟩) (p := 1)
    (q := 2) (P := ⟨some 0, [(1, .unlocked)], []⟩) rfl rfl
  have h₃ : Step _ _ := .recipe
    (s := (holding.start 1 ⟨some 0, [(1, .unlocked)], []⟩).start 2 ⟨some 1, [], []⟩)
    (p := 2) (q := 3) (f := 2) (P := ⟨some 1, [], []⟩) rfl rfl hadds
  have h₄ : Step _ unlockedRuns := .command (p := 3) (q := 4)
    (P := ⟨some 2, [(2, .recipe)], ['2']⟩) rfl rfl
  have hrun : ReflTransGen Step idle unlockedRuns :=
    (((idle_holding.tail h₁).tail h₂).tail h₃).tail h₄
  have hd : ReflTransGen (Child unlockedRuns) 1 4 :=
    ((ReflTransGen.single ⟨_, rfl, rfl⟩ : ReflTransGen _ 1 2).tail
      (⟨_, rfl, rfl⟩ : Child unlockedRuns 2 3)).tail ⟨_, rfl, rfl⟩
  have hcyclic := h idle unlockedRuns 0 1 1 4 ⟨some 3, [], ['2']⟩ idle_start hrun
    ⟨rfl, _, .unlocked, rfl, rfl, by simp⟩ hd rfl
  revert hcyclic
  decide

end Redo.Processes
