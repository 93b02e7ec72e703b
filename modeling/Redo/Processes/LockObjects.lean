import Mathlib.Logic.Function.Basic
import Redo.Library.Relations

/-! # The lock objects of one process

The kernel gives a process any lock that it holds already, but a lock that it shares with other
readers is none for writing. What keeps two objects of one process apart is the table of the files
that they are for.
-/
namespace Redo.Processes
open Library

structure LockObject where
  fid : Int
  owned : Bool
deriving DecidableEq, Repr

/-- `F_RDLCK` and `F_WRLCK`. -/
inductive LockType
  | read
  | write
deriving DecidableEq, Repr

/-- The objects that live, by their handles, the table, and the bytes that the process has locked. -/
structure LockState where
  objects : List (Option LockObject) := []
  locksHeld : Int → Option Bool := fun _ => none
  kernel : Int → Option LockType := fun _ => none

/-- What the kernel says to a lock that the process does not hold. -/
inductive Answer
  | granted
  | refused
  | failed
deriving DecidableEq, Repr

def lockType (shared : Bool) : LockType := if shared then .read else .write

/-- What the process has locked, it has locked so. -/
def covers : Option LockType → LockType → Bool
  | some .write, _ => true
  | some .read, type => type = .read
  | none, _ => false

/-- `lock_region`. A lock that is waited for is not refused. -/
def lockRegion (held : Option LockType) (shared nonblock : Bool) (answer : Answer) : Option Bool :=
  if covers held (lockType shared) then some true
  else
    match answer with
    | .granted => some true
    | .refused => if nonblock then some false else none
    | .failed => none

/-- A call, with what the surroundings answer: whether `check` finds a cycle, what the kernel says,
and whether it unlocks. -/
inductive LockCall
  | new (fid : Int)
  | check (handle : Nat)
  | trylock (handle : Nat) (cyclic : Bool) (answer : Answer)
  | waitlock (handle : Nat) (shared cyclic : Bool) (answer : Answer)
  | unlock (handle : Nat) (done : Bool)
  | drop (handle : Nat) (done : Bool)
deriving DecidableEq, Repr

namespace LockState

def object (s : LockState) (h : Nat) : Option LockObject := (s.objects[h]?).join

def setObject (s : LockState) (h : Nat) (o : Option LockObject) : LockState :=
  { s with objects := s.objects.set h o }

def setTable (s : LockState) (fid : Int) (b : Option Bool) : LockState :=
  { s with locksHeld := Function.update s.locksHeld fid b }

def setKernel (s : LockState) (fid : Int) (type : Option LockType) : LockState :=
  { s with kernel := Function.update s.kernel fid type }

def new (s : LockState) (fid : Int) : LockState :=
  if s.locksHeld fid = some true then s
  else { s.setTable fid (some false) with objects := s.objects ++ [some ⟨fid, false⟩] }

/-- What a lock call does once the kernel has given the lock. -/
def own (s : LockState) (h : Nat) (fid : Int) (shared : Bool) : LockState :=
  ((s.setObject h (some ⟨fid, true⟩)).setTable fid (some true)).setKernel fid (some (lockType shared))

def trylock (s : LockState) (h : Nat) (o : LockObject) (cyclic : Bool) (answer : Answer) : LockState :=
  if ¬o.owned ∧ cyclic then s
  else
    match lockRegion (s.kernel o.fid) false true answer with
    | some true => s.own h o.fid false
    | some false => s.setObject h (some ⟨o.fid, false⟩)
    | none => s

def waitlock (s : LockState) (h : Nat) (o : LockObject) (shared cyclic : Bool) (answer : Answer) :
    LockState :=
  if ¬o.owned ∧ cyclic then s
  else
    match lockRegion (s.kernel o.fid) shared false answer with
    | some _ => s.own h o.fid shared
    | none => s

def unlock (s : LockState) (h : Nat) (o : LockObject) (done : Bool) : LockState :=
  if ¬o.owned ∨ ¬done then s
  else ((s.setObject h (some ⟨o.fid, false⟩)).setTable o.fid (some false)).setKernel o.fid none

/-- `Drop`. An error of `unlock` is passed over. -/
def drop (s : LockState) (h : Nat) (o : LockObject) (done : Bool) : LockState :=
  ((s.unlock h o done).setObject h none).setTable o.fid none

/-- An object that has been dropped cannot be called. -/
def step (s : LockState) : LockCall → LockState
  | .new fid => s.new fid
  | .check _ => s
  | .trylock h cyclic answer => (s.object h).elim s fun o => s.trylock h o cyclic answer
  | .waitlock h shared cyclic answer =>
    (s.object h).elim s fun o => s.waitlock h o shared cyclic answer
  | .unlock h done => (s.object h).elim s fun o => s.unlock h o done
  | .drop h done => (s.object h).elim s fun o => s.drop h o done

def Owns (s : LockState) (h : Nat) (fid : Int) : Prop := s.object h = some ⟨fid, true⟩

instance (s : LockState) (h : Nat) (fid : Int) : Decidable (s.Owns h fid) :=
  inferInstanceAs (Decidable (_ = _))

/-- The objects, the table and the kernel say the same about what is owned. -/
structure Tracks (s : LockState) : Prop where
  alone : ∀ h h' fid, s.Owns h fid → s.Owns h' fid → h = h'
  table : ∀ fid, s.locksHeld fid = some true ↔ ∃ h, s.Owns h fid
  kernel : ∀ h fid, s.Owns h fid → (s.kernel fid).isSome = true

/-- No other live object owns the file. -/
def NoOther (s : LockState) (h : Nat) (fid : Int) : Prop := ∀ h', s.Owns h' fid → h' = h

/-- The kernel has no reason not to give the lock. -/
def Given (s : LockState) (fid : Int) (shared : Bool) (answer : Answer) : Prop :=
  covers (s.kernel fid) (lockType shared) = true ∨ answer = .granted

end LockState

/-- An object that does not own its file is not given the lock, and not dropped, while another one
does. One that owns it is not refused it, as it may be where it owns it beside other readers. -/
def LockCall.Safe (s : LockState) : LockCall → Prop
  | .trylock h cyclic answer => ∀ o, s.object h = some o →
      (o.owned → s.kernel o.fid = some .read → answer ≠ .refused) ∧
        (o.owned ∨ cyclic ∨ (s.Given o.fid false answer → s.NoOther h o.fid))
  | .waitlock h shared cyclic answer => ∀ o, s.object h = some o →
      o.owned ∨ cyclic ∨ (s.Given o.fid shared answer → s.NoOther h o.fid)
  | .drop h _ => ∀ o, s.object h = some o → o.owned ∨ s.NoOther h o.fid
  | _ => True

namespace LockState
variable {s : LockState} {h h' : Nat} {o : LockObject} {fid f : Int} {shared : Bool}

theorem object_set (hlive : s.object h = some o) (o' : Option LockObject) (h' : Nat) :
    (s.setObject h o').object h' = if h' = h then o' else s.object h' := by
  have hlt : h < s.objects.length := by
    by_contra hge
    rw [object, List.getElem?_eq_none (Nat.le_of_not_lt hge)] at hlive
    cases hlive
  rw [object, setObject, List.getElem?_set]
  by_cases hh : h = h'
  · subst hh
    rw [if_pos rfl, if_pos rfl, if_pos hlt]
    rfl
  · rw [if_neg hh, if_neg (Ne.symm hh)]
    rfl

/-- Who owns what when one object is set. -/
theorem owns_set (hlive : s.object h = some o) (o' : Option LockObject) :
    (s.setObject h o').Owns h' f ↔ if h' = h then o' = some ⟨f, true⟩ else s.Owns h' f := by
  rw [Owns, object_set hlive]
  split_ifs <;> rfl

theorem owns_own (hlive : s.object h = some o) :
    (s.own h fid shared).Owns h' f ↔ if h' = h then f = fid else s.Owns h' f := by
  refine (owns_set hlive (some ⟨fid, true⟩)).trans ?_
  split_ifs
  · simp [eq_comm]
  · rfl

theorem owns_new : (s.new fid).Owns h' f ↔ s.Owns h' f := by
  unfold new
  split_ifs
  · rfl
  · rw [Owns, Owns, object, object, List.getElem?_append]
    split_ifs with hlt
    · rfl
    · rw [List.getElem?_eq_none (Nat.le_of_not_lt hlt)]
      cases hn : h' - s.objects.length with
      | zero => simp
      | succ n => simp

theorem Tracks.noOther (ht : s.Tracks) (hown : s.Owns h fid) : s.NoOther h fid :=
  fun h' hown' => ht.alone h' h fid hown' hown

theorem Tracks.noOther_of_owned (ht : s.Tracks) (hlive : s.object h = some o) (howned : o.owned = true) :
    s.NoOther h o.fid := by
  refine ht.noOther ?_
  rw [Owns, hlive, ← howned]

/-- A byte that the process has not locked has no owner. -/
theorem Tracks.noOther_of_kernel (ht : s.Tracks) (hk : s.kernel fid = none) : s.NoOther h fid := by
  intro h' hown
  have hheld := ht.kernel h' fid hown
  rw [hk] at hheld
  cases hheld

theorem tracks_new (ht : s.Tracks) : (s.new fid).Tracks := by
  have htable : ∀ f, (s.new fid).locksHeld f = some true ↔ s.locksHeld f = some true := by
    intro f
    unfold new
    split_ifs with hheld
    · rfl
    · show Function.update s.locksHeld fid (some false) f = some true ↔ _
      by_cases hf : f = fid
      · subst hf
        simp [hheld]
      · rw [Function.update_of_ne hf]
  have hkernel : (s.new fid).kernel = s.kernel := by
    unfold new
    split_ifs <;> rfl
  constructor
  · intro h h' f hown hown'
    exact ht.alone h h' f (owns_new.mp hown) (owns_new.mp hown')
  · intro f
    rw [htable, ht.table]
    exact exists_congr fun h => owns_new.symm
  · intro h f hown
    rw [hkernel]
    exact ht.kernel h f (owns_new.mp hown)

/-- To own a file is right just when no other object owns it. -/
theorem tracks_own_iff (ht : s.Tracks) (hlive : s.object h = some ⟨fid, b⟩) :
    (s.own h fid shared).Tracks ↔ s.NoOther h fid := by
  constructor
  · intro hnext h' hown
    by_contra hne
    exact hne (hnext.alone h' h fid ((owns_own hlive).mpr (by rwa [if_neg hne]))
      ((owns_own hlive).mpr (by rw [if_pos rfl])))
  · intro hno
    have hmine : ∀ h' f, (s.own h fid shared).Owns h' f → f = fid → h' = h := by
      intro h' f hown hf
      by_contra hne
      rw [owns_own hlive, if_neg hne, hf] at hown
      exact hne (hno h' hown)
    have hother : ∀ h' f, f ≠ fid → ((s.own h fid shared).Owns h' f ↔ s.Owns h' f) := by
      intro h' f hf
      rw [owns_own hlive]
      split_ifs with hh
      · subst hh
        rw [Owns, hlive]
        simp [hf, Ne.symm hf]
      · rfl
    constructor
    · intro h₁ h₂ f hown hown'
      by_cases hf : f = fid
      · rw [hmine h₁ f hown hf, hmine h₂ f hown' hf]
      · exact ht.alone h₁ h₂ f ((hother h₁ f hf).mp hown) ((hother h₂ f hf).mp hown')
    · intro f
      show Function.update s.locksHeld fid (some true) f = some true ↔ _
      by_cases hf : f = fid
      · subst hf
        rw [Function.update_self]
        exact iff_of_true rfl ⟨h, (owns_own hlive).mpr (by rw [if_pos rfl])⟩
      · rw [Function.update_of_ne hf, ht.table]
        exact exists_congr fun h' => (hother h' f hf).symm
    · intro h' f hown
      show (Function.update s.kernel fid (some (lockType shared)) f).isSome = true
      by_cases hf : f = fid
      · subst hf
        rw [Function.update_self]
        rfl
      · rw [Function.update_of_ne hf]
        exact ht.kernel h' f ((hother h' f hf).mp hown)

/-- The object gives its file up, or goes. -/
theorem tracks_release (ht : s.Tracks) (hlive : s.object h = some o) (hno : s.NoOther h o.fid)
    {o' : Option LockObject} (ho' : ∀ f, o' ≠ some ⟨f, true⟩) {b : Option Bool} (hb : b ≠ some true)
    {kernel : Int → Option LockType} (hkernel : ∀ f, f ≠ o.fid → kernel f = s.kernel f) :
    ({ (s.setObject h o').setTable o.fid b with kernel } : LockState).Tracks := by
  have hnone : ∀ h', ¬ (s.setObject h o').Owns h' o.fid := by
    intro h' hown
    rw [owns_set hlive] at hown
    split_ifs at hown with hh
    · exact ho' o.fid hown
    · exact hh (hno h' hown)
  have hother : ∀ h' f, f ≠ o.fid → ((s.setObject h o').Owns h' f ↔ s.Owns h' f) := by
    intro h' f hf
    rw [owns_set hlive]
    split_ifs with hh
    · subst hh
      rw [Owns, hlive]
      refine iff_of_false (ho' f) fun he => hf ?_
      rw [Option.some.inj he]
    · rfl
  constructor
  · intro h₁ h₂ f hown hown'
    by_cases hf : f = o.fid
    · subst hf
      exact absurd hown (hnone h₁)
    · exact ht.alone h₁ h₂ f ((hother h₁ f hf).mp hown) ((hother h₂ f hf).mp hown')
  · intro f
    show Function.update s.locksHeld o.fid b f = some true ↔ _
    by_cases hf : f = o.fid
    · subst hf
      rw [Function.update_self]
      exact iff_of_false hb fun ⟨h', hown⟩ => hnone h' hown
    · rw [Function.update_of_ne hf, ht.table]
      exact exists_congr fun h' => (hother h' f hf).symm
  · intro h' f hown
    by_cases hf : f = o.fid
    · subst hf
      exact absurd hown (hnone h')
    · have hheld := ht.kernel h' f ((hother h' f hf).mp hown)
      rwa [← hkernel f hf] at hheld

theorem tracks_unlock (ht : s.Tracks) (hlive : s.object h = some o) (done : Bool) :
    (s.unlock h o done).Tracks := by
  unfold unlock
  split_ifs with hkeep
  · exact ht
  · have howned : o.owned = true := by
      by_contra hne
      exact hkeep (Or.inl hne)
    refine tracks_release ht hlive (ht.noOther_of_owned hlive howned) (fun f he => ?_)
      (fun he => Bool.noConfusion (Option.some.inj he)) fun f hf => Function.update_of_ne hf _ _
    cases he

theorem drop_eq (s : LockState) (h : Nat) (o : LockObject) (done : Bool) :
    s.drop h o done =
      { (s.setObject h none).setTable o.fid none with
        kernel := if ¬o.owned ∨ ¬done then s.kernel else Function.update s.kernel o.fid none } := by
  unfold drop unlock
  split_ifs with hkeep
  · rfl
  · simp [setObject, setTable, setKernel]

theorem tracks_drop_iff (ht : s.Tracks) (hlive : s.object h = some o) (done : Bool) :
    (s.drop h o done).Tracks ↔ o.owned ∨ s.NoOther h o.fid := by
  rw [drop_eq]
  constructor
  · intro hnext
    by_contra hnot
    obtain ⟨hunowned, hother⟩ := not_or.mp hnot
    refine hother fun h' hown => ?_
    by_contra hne
    have hown' : (s.setObject h none).Owns h' o.fid := by rwa [owns_set hlive, if_neg hne]
    have htable : Function.update s.locksHeld o.fid none o.fid = some true :=
      (hnext.table o.fid).mpr ⟨h', hown'⟩
    rw [Function.update_self] at htable
    cases htable
  · intro hsafe
    have hno : s.NoOther h o.fid := hsafe.elim (ht.noOther_of_owned hlive) id
    refine tracks_release ht hlive hno (fun f he => by cases he) (fun he => by cases he) fun f hf => ?_
    split_ifs
    · rfl
    · exact Function.update_of_ne hf _ _

theorem setObject_self (hlive : s.object h = some o) : s.setObject h (some o) = s := by
  have hget : s.objects[h]? = some (some o) := Option.join_eq_some_iff.mp hlive
  have hlt : h < s.objects.length := (List.getElem?_eq_some_iff.mp hget).1
  have hset : s.objects.set h (some o) = s.objects := by
    ext1 i
    rw [List.getElem?_set, if_pos hlt]
    split_ifs with hi
    · rw [← hi, hget]
    · rfl
  rw [setObject, hset]

/-- An object that is refused its lock owns its file no more, whatever the table says. -/
theorem tracks_refused_iff (ht : s.Tracks) (hlive : s.object h = some o) :
    (s.setObject h (some ⟨o.fid, false⟩)).Tracks ↔ o.owned = false := by
  constructor
  · intro hnext
    by_contra howned
    rw [Bool.not_eq_false] at howned
    have hmine : s.Owns h o.fid := by rw [Owns, hlive, ← howned]
    obtain ⟨h', hown'⟩ := (hnext.table o.fid).mp ((ht.table o.fid).mpr ⟨h, hmine⟩)
    rw [owns_set hlive] at hown'
    split_ifs at hown' with hh
    · cases hown'
    · exact hh (ht.alone h' h o.fid hown' hmine)
  · intro howned
    have hsame := setObject_self hlive
    rw [show o = ⟨o.fid, false⟩ by rw [← howned]] at hsame
    exact hsame.symm ▸ ht

/-- Who owns the file is alone with it, and has the lock. -/
theorem Tracks.owner (ht : s.Tracks) (hlive : s.object h = some o) (howned : o.owned = true) :
    s.NoOther h o.fid ∧ (s.kernel o.fid).isSome = true := by
  have hmine : s.Owns h o.fid := by rw [Owns, hlive, ← howned]
  exact ⟨ht.noOther hmine, ht.kernel h o.fid hmine⟩

theorem lockRegion_given {nonblock : Bool} {answer : Answer} (h : s.Given fid shared answer) :
    lockRegion (s.kernel fid) shared nonblock answer = some true := by
  unfold lockRegion
  rcases h with h | rfl
  · rw [if_pos h]
  · split_ifs <;> rfl

theorem lockRegion_not_given {nonblock : Bool} {answer : Answer} (h : ¬s.Given fid shared answer) :
    lockRegion (s.kernel fid) shared nonblock answer =
      if answer = .refused ∧ nonblock = true then some false else none := by
  obtain ⟨hcovers, hanswer⟩ := not_or.mp h
  unfold lockRegion
  rw [if_neg hcovers]
  cases answer with
  | granted => exact absurd rfl hanswer
  | refused => simp
  | failed => simp

theorem tracks_trylock_iff (ht : s.Tracks) (hlive : s.object h = some o) (cyclic : Bool) (answer : Answer) :
    (s.trylock h o cyclic answer).Tracks ↔
      (o.owned → s.kernel o.fid = some .read → answer ≠ .refused) ∧
        (o.owned ∨ cyclic ∨ (s.Given o.fid false answer → s.NoOther h o.fid)) := by
  unfold trylock
  split_ifs with hcheck
  · exact iff_of_true ht ⟨fun howned => absurd howned hcheck.1, .inr (.inl hcheck.2)⟩
  by_cases hgiven : s.Given o.fid false answer
  · rw [lockRegion_given hgiven]
    refine (tracks_own_iff ht hlive).trans ⟨fun hno => ⟨fun _ hread hrefused => ?_, .inr (.inr fun _ => hno)⟩, ?_⟩
    · rw [Given, hread, hrefused] at hgiven
      simp [covers, lockType] at hgiven
    · rintro ⟨-, howned | hcyclic | hno⟩
      · exact (ht.owner hlive howned).1
      · exact (ht.owner hlive (by_contra fun hnot => hcheck ⟨hnot, hcyclic⟩)).1
      · exact hno hgiven
  · rw [lockRegion_not_given hgiven]
    by_cases hrefused : answer = .refused
    · rw [if_pos ⟨hrefused, rfl⟩]
      refine (tracks_refused_iff ht hlive).trans ⟨fun hfree => ?_, fun hsafe => ?_⟩
      · exact ⟨fun howned => absurd howned (by simp [hfree]), .inr (.inr fun h => absurd h hgiven)⟩
      · by_contra howned
        rw [Bool.not_eq_false] at howned
        have hheld := (ht.owner hlive howned).2
        cases hk : s.kernel o.fid with
        | none => rw [hk] at hheld; cases hheld
        | some type =>
          cases type with
          | read => exact hsafe.1 howned hk hrefused
          | write => exact hgiven (.inl (by rw [hk]; rfl))
    · rw [if_neg fun h => hrefused h.1]
      exact iff_of_true ht ⟨fun _ _ => hrefused, .inr (.inr fun h => absurd h hgiven)⟩

theorem tracks_waitlock_iff (ht : s.Tracks) (hlive : s.object h = some o) (cyclic : Bool) (answer : Answer) :
    (s.waitlock h o shared cyclic answer).Tracks ↔
      o.owned ∨ cyclic ∨ (s.Given o.fid shared answer → s.NoOther h o.fid) := by
  unfold waitlock
  split_ifs with hcheck
  · exact iff_of_true ht (.inr (.inl hcheck.2))
  by_cases hgiven : s.Given o.fid shared answer
  · rw [lockRegion_given hgiven]
    refine (tracks_own_iff ht hlive).trans ⟨fun hno => .inr (.inr fun _ => hno), ?_⟩
    rintro (howned | hcyclic | hno)
    · exact (ht.owner hlive howned).1
    · exact (ht.owner hlive (by_contra fun hnot => hcheck ⟨hnot, hcyclic⟩)).1
    · exact hno hgiven
  · rw [lockRegion_not_given hgiven, if_neg (by simp)]
    exact iff_of_true ht (.inr (.inr fun h => absurd h hgiven))

theorem forall_object (hlive : s.object h = some o) {P : LockObject → Prop} :
    (∀ o', s.object h = some o' → P o') ↔ P o := by
  constructor
  · exact fun hall => hall o hlive
  · intro hP o' hlive'
    rwa [Option.some.inj (hlive'.symm.trans hlive)]

/-- One call keeps objects, table and kernel together just when it is safe. -/
theorem tracks_step_iff (ht : s.Tracks) (c : LockCall) : (s.step c).Tracks ↔ c.Safe s := by
  have hdead : ∀ {h : Nat} {P : LockObject → Prop}, s.object h = none → (∀ o, s.object h = some o → P o) := by
    intro h P hnone o hsome
    rw [hnone] at hsome
    cases hsome
  cases c with
  | new fid => exact iff_of_true (tracks_new ht) trivial
  | check h => exact iff_of_true ht trivial
  | trylock h cyclic answer =>
    cases hlive : s.object h with
    | none =>
      rw [step, hlive]
      exact iff_of_true ht (hdead hlive)
    | some o =>
      rw [step, hlive, LockCall.Safe, forall_object hlive]
      exact tracks_trylock_iff ht hlive cyclic answer
  | waitlock h shared cyclic answer =>
    cases hlive : s.object h with
    | none =>
      rw [step, hlive]
      exact iff_of_true ht (hdead hlive)
    | some o =>
      rw [step, hlive, LockCall.Safe, forall_object hlive]
      exact tracks_waitlock_iff ht hlive cyclic answer
  | unlock h done =>
    refine iff_of_true ?_ trivial
    cases hlive : s.object h with
    | none =>
      rw [step, hlive]
      exact ht
    | some o =>
      rw [step, hlive]
      exact tracks_unlock ht hlive done
  | drop h done =>
    cases hlive : s.object h with
    | none =>
      rw [step, hlive]
      exact iff_of_true ht (hdead hlive)
    | some o =>
      rw [step, hlive, LockCall.Safe, forall_object hlive]
      exact tracks_drop_iff ht hlive done

theorem tracks_start (kernel : Int → Option LockType) : ({ kernel } : LockState).Tracks := by
  have hnone : ∀ h f, ¬ ({ kernel } : LockState).Owns h f := by
    intro h f hown
    cases hown
  constructor
  · exact fun h h' f hown => absurd hown (hnone h f)
  · exact fun f => iff_of_false (fun he => by cases he) fun ⟨h, hown⟩ => hnone h f hown
  · exact fun h f hown => absurd hown (hnone h f)

/-- In a run of calls from the start of the process, objects, table and kernel stay together just
when every call is safe. -/
theorem tracks_iff (kernel : Int → Option LockType) (l : List LockCall) :
    Throughout step Tracks { kernel } l ↔ EachStep step (fun s c => c.Safe s) { kernel } l :=
  throughout_iff (P := Tracks) step (fun _ c ht => tracks_step_iff ht c) (tracks_start kernel) l

/-- One that reads beside other readers tries to write. -/
example : (([.new 7, .waitlock 0 true false .granted, .trylock 0 false .refused] : List LockCall).foldl
    step {}).locksHeld 7 = some true ∧ ¬(([.new 7, .waitlock 0 true false .granted,
      .trylock 0 false .refused] : List LockCall).foldl step {}).Owns 0 7 := by decide

/-- Two objects of one file that both try to lock it. -/
def twoOwners : List LockCall :=
  [.new 7, .new 7, .trylock 0 false .granted, .trylock 1 false .refused]

theorem not_tracks : ¬ ∀ l : List LockCall, Throughout step Tracks {} l := by
  intro h
  have hlast := (h twoOwners).2.2.2.2
  exact absurd (hlast.alone 0 1 7 (by decide) (by decide)) (by decide)

end LockState
end Redo.Processes
