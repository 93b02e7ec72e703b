import Redo.Dirtiness.Walk
import Redo.Library.Transactions

/-! # The walk as a program of atomic statements

Each query of the walk, each look at the file system and each `update` is a statement
of its own, and anything may happen between two of them. The walk holds no lock on the
files whose rows it reads, and what it saves is the snapshot that it has read.
-/
namespace Redo.Concurrent
open State Dirtiness Library Program

/-- A row, with the date of the read that gave it. -/
structure Snapshot extends File where
  seen : ℕ

/-- The statements that write. Those of the walk are `set_checked_save` and the save of
a target whose file has vanished; a build may do anything to the tables. -/
inductive Update where
  | checked (f : Snapshot)
  | forgotten (f : Snapshot)
  | built (g : Db → Db)

def Update.apply : Update → Db → Db
  | checked f, db => db.save f.toFile
  | forgotten f, db => db.save f.toFile
  | built g, db => g db

abbrev Process := Program Db Disk Update

def readStamp (name : String) : Process Stamp := .look fun disk => .done (disk.readStamp name)

def pathExists (name : String) : Process Bool := .look fun disk => .done (disk.pathExists name)

def deps (R : RunId) (f : Snapshot) : Process (List (Char × Snapshot)) :=
  .read fun now db => .done ((db.depsOf R f.toFile).map fun p => (p.1, ⟨p.2, now⟩))

def refresh (R : RunId) (f : Snapshot) : Process Snapshot :=
  .read fun now db => .done (((db.byId R f.id).map (Snapshot.mk · now)).getD f)

def setCheckedSave (R : RunId) (f : Snapshot) : Process Unit :=
  .write (.checked { f with toFile := f.setChecked R }) (.done ())

def depDirty (walk : Snapshot → RunId → Process (Except WalkError DirtyResult)) (f : Snapshot)
    (p : Char × Snapshot) : Process (Except WalkError DirtyResult) :=
  if p.1 = 'c' then do
    let found ← pathExists p.2.name
    pure (.ok (if found then .dirty else .clean))
  else if p.1 = 'm' then walk p.2 f.lastSeen
  else pure (.ok .clean)

def depLoop (walk : Snapshot → RunId → Process (Except WalkError DirtyResult)) (f : Snapshot) :
    List (Char × Snapshot) → List File → Process (Except WalkError DirtyResult)
  | [], mustBuild => pure (.ok (if mustBuild.isEmpty then .clean else .mustBuild mustBuild))
  | p :: rest, mustBuild => do
    match ← depDirty walk f p with
    | .error e => pure (.error e)
    | .ok .clean => depLoop walk f rest mustBuild
    | .ok (.mustBuild v) => depLoop walk f rest (mustBuild ++ v)
    | .ok .dirty => pure (.ok (if f.csum.isNone then .dirty else .mustBuild [f.toFile]))

def forgetVanished (R : RunId) (newstamp : Stamp) (f : Snapshot) : Process Snapshot :=
  if newstamp = STAMP_MISSING ∧ f.stamp.isSome ∧ f.isGenerated then
    let f := { f with isGenerated := false, failedRunid := none }
    .write (.forgotten f) (refresh R f)
  else pure f

def isdirty (preflight : List FileId) (R : RunId) :
    ℕ → Snapshot → RunId → List FileId → Process (Except WalkError DirtyResult)
  | 0, _, _, _ => pure (.error .outOfFuel)
  | fuel + 1, f, maxChanged, alreadyChecked =>
    if alreadyChecked.contains f.id then pure (.error .cyclicDependency)
    else if f.failedRunid.isSome then pure (.ok .dirty)
    else if f.changedRunid.isNone then pure (.ok .dirty)
    else if f.changedRunid.getD 0 > maxChanged then pure (.ok .dirty)
    else if f.isChecked R || preflight.contains f.id then pure (.ok .clean)
    else if f.stamp.isNone then pure (.ok .dirty)
    else do
      let newstamp ← readStamp f.name
      if f.stamp ≠ some newstamp then
        let f ← forgetVanished R newstamp f
        pure (.ok (if f.csum.isSome then .mustBuild [f.toFile] else .dirty))
      else
        let deps ← deps R f
        let walk := fun f2 mx => isdirty preflight R fuel f2 mx (alreadyChecked ++ [f.id])
        match ← depLoop walk f deps [] with
        | .ok .clean =>
          setCheckedSave R f
          pure (.ok .clean)
        | result => pure result

/-- The row of the file is read, its dependencies are walked, and what was written is
committed. -/
def walker (preflight : List FileId) (R : RunId) (fuel : ℕ) (root : FileId) (maxChanged : RunId) :
    Process Unit :=
  .read fun now db =>
    match db.byId R root with
    | none => .done ()
    | some f => do
      let _ ← isdirty preflight R fuel ⟨f, now⟩ maxChanged []
      .commit (.done ())

section Alone
variable {preflight : List FileId} {R : RunId} {disk : Disk} {now : ℕ}

/-- By itself, the program does what the function does. -/
def Agrees (disk : Disk) (now : ℕ) (walk : Snapshot → RunId → Process (Except WalkError DirtyResult))
    (walk' : File → RunId → WalkState → Walked) : Prop :=
  ∀ f mx s c, (walk f mx).alone Update.apply disk now c s.db =
    ((walk' f.toFile mx s).result, c, (walk' f.toFile mx s).state.db)

@[simp] theorem alone_pure {α : Type} (a : α) (c t : Db) :
    (pure a : Process α).alone Update.apply disk now c t = (a, c, t) := rfl

theorem depDirty_alone {walk : Snapshot → RunId → Process (Except WalkError DirtyResult)}
    {walk' : File → RunId → WalkState → Walked} (h : Agrees disk now walk walk') (f : Snapshot)
    (p : Char × Snapshot) (s : WalkState) (c : Db) :
    (depDirty walk f p).alone Update.apply disk now c s.db =
      ((Dirtiness.depDirty walk' disk f.toFile (p.1, p.2.toFile) s).1, c,
        (Dirtiness.depDirty walk' disk f.toFile (p.1, p.2.toFile) s).2.db) := by
  by_cases hc : p.1 = 'c'
  · simp only [depDirty, Dirtiness.depDirty, hc, if_true]
    rfl
  by_cases hm : p.1 = 'm'
  · simp only [depDirty, Dirtiness.depDirty, hm, if_true]
    exact h p.2 f.lastSeen s c
  · simp only [depDirty, Dirtiness.depDirty, hc, hm, if_false]
    rfl

theorem depLoop_alone {walk : Snapshot → RunId → Process (Except WalkError DirtyResult)}
    {walk' : File → RunId → WalkState → Walked} (h : Agrees disk now walk walk') (f : Snapshot)
    (l : List (Char × Snapshot)) (mustBuild : List File) (s : WalkState) (c : Db) :
    (depLoop walk f l mustBuild).alone Update.apply disk now c s.db =
      ((Dirtiness.depLoop walk' disk f.toFile (l.map fun p => (p.1, p.2.toFile)) mustBuild s).1, c,
        (Dirtiness.depLoop walk' disk f.toFile (l.map fun p => (p.1, p.2.toFile)) mustBuild
          s).2.db) := by
  induction l generalizing mustBuild s with
  | nil => rfl
  | cons p rest ih =>
    rw [depLoop, alone_bind, depDirty_alone h, List.map_cons, Dirtiness.depLoop]
    generalize Dirtiness.depDirty walk' disk f.toFile (p.1, p.2.toFile) s = out
    rcases out with ⟨_ | r, s'⟩
    · rfl
    cases r with
    | clean => exact ih mustBuild s'
    | dirty => rfl
    | mustBuild v => exact ih (mustBuild ++ v) s'

theorem forgetVanished_alone (newstamp : Stamp) (f : Snapshot) (s : WalkState) (c : Db) :
    let out := (forgetVanished R newstamp f).alone Update.apply disk now c s.db
    (out.1.toFile, out.2) = ((Dirtiness.forgetVanished R newstamp f.toFile s).1, c,
      (Dirtiness.forgetVanished R newstamp f.toFile s).2.db) := by
  unfold forgetVanished Dirtiness.forgetVanished
  split_ifs
  · simp only [alone, refresh, Update.apply, Db.refresh]
    cases Db.byId _ R f.id <;> rfl
  · rfl

theorem isdirty_alone (fuel : ℕ) (path : List FileId) :
    Agrees disk now (fun f mx => isdirty preflight R fuel f mx path) fun f mx s =>
      Dirtiness.isdirty (builderClosures R preflight) disk R fuel f mx path s := by
  induction fuel generalizing path with
  | zero => exact fun f mx s c => rfl
  | succ fuel ih =>
    intro f mx s c
    simp only [isdirty, Dirtiness.isdirty]
    have hchecked : (builderClosures R preflight).isChecked s f.toFile =
        (f.isChecked R || preflight.contains f.id) := rfl
    rw [hchecked]
    by_cases h0 : path.contains f.id = true
    · rw [if_pos h0, if_pos h0]
      rfl
    rw [if_neg h0, if_neg h0]
    by_cases h1 : f.failedRunid.isSome = true
    · rw [if_pos h1, if_pos h1]
      rfl
    rw [if_neg h1, if_neg h1]
    by_cases h2 : f.changedRunid.isNone = true
    · rw [if_pos h2, if_pos h2]
      rfl
    rw [if_neg h2, if_neg h2]
    by_cases h3 : f.changedRunid.getD 0 > mx
    · rw [if_pos h3, if_pos h3]
      rfl
    rw [if_neg h3, if_neg h3]
    by_cases h4 : (f.isChecked R || preflight.contains f.id) = true
    · rw [if_pos h4, if_pos h4]
      rfl
    rw [if_neg h4, if_neg h4]
    by_cases h5 : f.stamp.isNone = true
    · rw [if_pos h5, if_pos h5]
      rfl
    rw [if_neg h5, if_neg h5]
    have hread : (readStamp f.name).alone Update.apply disk now c s.db =
        (disk.readStamp f.name, c, s.db) := rfl
    rw [alone_bind, hread]
    by_cases hstale : f.stamp ≠ some (disk.readStamp f.name)
    · have hforget := @forgetVanished_alone R disk now (disk.readStamp f.name) f s c
      rw [if_pos hstale, if_pos hstale, alone_bind]
      simp only at hforget
      obtain ⟨hfile, htables⟩ := Prod.mk.inj hforget
      rw [alone_pure, htables, hfile]
    · have hdeps : (deps R f).alone Update.apply disk now c s.db =
          ((s.db.depsOf R f.toFile).map fun p => (p.1, ⟨p.2, now⟩), c, s.db) := rfl
      have hloop := depLoop_alone (ih (path ++ [f.id])) f
        ((s.db.depsOf R f.toFile).map fun p => (p.1, ⟨p.2, now⟩)) [] s c
      rw [if_neg hstale, if_neg hstale, alone_bind, hdeps, alone_bind, hloop, List.map_map]
      have hid : (fun p : Char × Snapshot => (p.1, p.2.toFile)) ∘
          (fun p : Char × File => (p.1, (⟨p.2, now⟩ : Snapshot))) = id := rfl
      rw [hid, List.map_id]
      generalize Dirtiness.depLoop _ disk f.toFile (s.db.depsOf R f.toFile) [] s = out
      rcases out with ⟨_ | r, s'⟩
      · rfl
      cases r <;> rfl

/-- Without anyone else, the statements of the walk do what the walk does. -/
theorem isdirtyDefault_alone (f : Snapshot) (mx : RunId) (db : Db) :
    (isdirty preflight R (budget db) f mx []).alone Update.apply disk now db db =
      ((isdirtyDefault preflight disk R db f.toFile mx).result, db,
        (isdirtyDefault preflight disk R db f.toFile mx).state.db) :=
  isdirty_alone (budget db) [] f mx { db } db

end Alone

section Reads
variable {R : RunId} {reads : List (ℕ × Db)}

/-- The snapshot is what one of these reads gave. -/
def Snapshot.From (R : RunId) (reads : List (ℕ × Db)) (f : Snapshot) : Prop :=
  ∃ t, (f.seen, t) ∈ reads ∧ t.byId R f.id = some f.toFile

/-- What a walk may save after these reads. -/
def Update.From (R : RunId) (reads : List (ℕ × Db)) : Update → Prop
  | checked g => ∃ f : Snapshot, f.From R reads ∧ g = { f with toFile := f.setChecked R }
  | forgotten g => ∃ f : Snapshot, f.From R reads ∧
      g = { f with isGenerated := false, failedRunid := none }
  | built _ => False

theorem Snapshot.From.mono {f : Snapshot} {reads' : List (ℕ × Db)} (h : f.From R reads)
    (hsub : reads ⊆ reads') : f.From R reads' := by
  obtain ⟨t, hmem, hrow⟩ := h
  exact ⟨t, hsub hmem, hrow⟩

/-- From any snapshot that has been read, the walk saves only what it has read. -/
def Honest (R : RunId) (walk : Snapshot → RunId → Process (Except WalkError DirtyResult)) : Prop :=
  ∀ f mx reads, f.From R reads → (walk f mx).WritesFrom (Update.From R) reads

variable {walk : Snapshot → RunId → Process (Except WalkError DirtyResult)}

theorem depDirty_writesFrom (h : Honest R walk) (f : Snapshot) {p : Char × Snapshot}
    (hp : p.2.From R reads) : (depDirty walk f p).WritesFrom (Update.From R) reads := by
  unfold depDirty
  split_ifs
  · apply WritesFrom.bind
    · exact fun _ => trivial
    · exact fun _ _ _ => trivial
  · exact h p.2 f.lastSeen reads hp
  · trivial

theorem depLoop_writesFrom (h : Honest R walk) (f : Snapshot) {l : List (Char × Snapshot)}
    (hl : ∀ p ∈ l, p.2.From R reads) (mustBuild : List File) :
    (depLoop walk f l mustBuild).WritesFrom (Update.From R) reads := by
  induction l generalizing mustBuild reads with
  | nil => trivial
  | cons p rest ih =>
    rw [depLoop]
    apply (depDirty_writesFrom h f (hl p List.mem_cons_self)).bind
    intro r reads' hsub
    have hrest : ∀ q ∈ rest, q.2.From R reads' :=
      fun q hq => (hl q (List.mem_cons_of_mem p hq)).mono hsub
    rcases r with _ | r
    · trivial
    cases r with
    | clean => exact ih hrest mustBuild
    | dirty => trivial
    | mustBuild v => exact ih hrest (mustBuild ++ v)

theorem forgetVanished_writesFrom (newstamp : Stamp) {f : Snapshot} (hf : f.From R reads) :
    (forgetVanished R newstamp f).WritesFrom (Update.From R) reads := by
  unfold forgetVanished
  split_ifs
  · exact ⟨⟨f, hf, rfl⟩, fun _ _ => trivial⟩
  · trivial

theorem isdirty_writesFrom (preflight : List FileId) (fuel : ℕ) (path : List FileId) :
    Honest R fun f mx => isdirty preflight R fuel f mx path := by
  induction fuel generalizing path with
  | zero => exact fun f mx reads hf => trivial
  | succ fuel ih =>
    intro f mx reads hf
    simp only [isdirty]
    split_ifs
    · trivial
    · trivial
    · trivial
    · trivial
    · trivial
    · trivial
    intro disk
    change Program.WritesFrom (Update.From R) (ite _ _ _) reads
    split_ifs
    · apply (forgetVanished_writesFrom _ hf).bind
      exact fun _ _ _ => trivial
    · intro now db
      have hdeps : ∀ p ∈ (db.depsOf R f.toFile).map fun p => (p.1, (⟨p.2, now⟩ : Snapshot)),
          p.2.From R ((now, db) :: reads) := by
        intro p hp
        obtain ⟨q, hq, rfl⟩ := List.mem_map.mp hp
        exact ⟨db, List.mem_cons_self, Db.byId_of_mem_depsOf hq⟩
      apply (depLoop_writesFrom (ih (path ++ [f.id])) f hdeps []).bind
      intro r reads' hsub
      rcases r with _ | r
      · trivial
      cases r with
      | clean => exact ⟨⟨f, hf.mono fun r hr => hsub (List.mem_cons_of_mem _ hr), rfl⟩, trivial⟩
      | dirty => trivial
      | mustBuild v => trivial

theorem walker_writesFrom (preflight : List FileId) (fuel : ℕ) (root : FileId) (mx : RunId) :
    (walker preflight R fuel root mx).WritesFrom (Update.From R) [] := by
  intro now db
  cases hrow : db.byId R root with
  | none =>
    simp only [hrow]
    trivial
  | some f =>
    simp only [hrow]
    have hf : (⟨f, now⟩ : Snapshot).From R [(now, db)] := by
      refine ⟨db, List.mem_cons_self, ?_⟩
      have hid : f.id = root := Db.byId_id hrow
      exact hid ▸ hrow
    apply (isdirty_writesFrom preflight fuel [] ⟨f, now⟩ mx _ hf).bind
    exact fun _ _ _ => trivial

end Reads
end Redo.Concurrent
