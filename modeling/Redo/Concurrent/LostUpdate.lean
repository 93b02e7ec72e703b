import Redo.Completion.Builds
import Redo.Concurrent.Statements

/-! # Lost updates

A walk saves whole rows from its snapshots. After a build has committed the row of a
dependency, the row stays as committed if the walk saves it only from snapshots that it
has read since, and does not find the file missing. A snapshot from before the commit
brings the old row back.
-/
namespace Redo.Concurrent
open State Dirtiness Library Relation

inductive Party where
  | walker
  | builder
deriving DecidableEq, Repr

abbrev Processes := System Party Db Disk Update Unit

/-- Only the checked mark of the row may have changed. -/
structure SameColumns (r r' : File) : Prop where
  name : r'.name = r.name
  isGenerated : r'.isGenerated = r.isGenerated
  isOverride : r'.isOverride = r.isOverride
  changedRunid : r'.changedRunid = r.changedRunid
  failedRunid : r'.failedRunid = r.failedRunid
  stamp : r'.stamp = r.stamp
  csum : r'.csum = r.csum

/-- The row of the dependency `d` has been saved from a read at this date or later, and
its file has not been found missing. -/
def Timely (d : FileId) (date : ℕ) : Update → Prop
  | .checked f => f.id = d → date ≤ f.seen
  | .forgotten f => f.id ≠ d
  | .built _ => True

/-- The row of `d` is there, and as committed. -/
def HasColumns (d : FileId) (r : File) (db : Db) : Prop :=
  ∃ r', db.lookup d = some r' ∧ SameColumns r r'

theorem HasColumns.save_of_ne {d : FileId} {r : File} {db : Db} (h : HasColumns d r db) {f : File}
    (hf : f.id ≠ d) : HasColumns d r (db.save f) := by
  obtain ⟨r', hr', hsame⟩ := h
  exact ⟨r', by rw [Db.lookup_save_of_ne hf.symm, hr'], hsame⟩

/-- Marking a snapshot of the row as committed leaves the row as committed. -/
theorem HasColumns.save_checked {d : FileId} {r : File} {db t : Db} (h : HasColumns d r db)
    (hname : r.name ≠ ALWAYS) {R : RunId} {f : File} (ht : HasColumns d r t)
    (hf : t.byId R d = some f) : HasColumns d r (db.save (f.setChecked R)) := by
  obtain ⟨r', hr', hsame'⟩ := ht
  obtain ⟨r'', hr'', hsame''⟩ := h
  have hfr : f = r' := by
    rw [Db.byId, hr'] at hf
    rw [← Option.some.inj hf]
    exact File.fromRow_of_ne R r' (by rw [hsame'.name]; exact hname)
  subst hfr
  have hid : f.id = d := Db.byId_id hf
  refine ⟨_, Db.lookup_save_self (f := f.setChecked R) hid hr'', ?_⟩
  exact { hsame' with name := hsame''.name }

theorem timely_safe {R : RunId} {d : FileId} {r : File} (hname : r.name ≠ ALWAYS) {date : ℕ}
    (reads : List (ℕ × Db)) (w : Update) (t : Db) (hw : w.From R reads) (hm : Timely d date w)
    (hreads : ∀ p ∈ reads, date ≤ p.1 → HasColumns d r p.2) (ht : HasColumns d r t) :
    HasColumns d r (w.apply t) := by
  cases w with
  | checked g =>
    obtain ⟨f, ⟨t', hmem, hrow⟩, rfl⟩ := hw
    by_cases hid : f.id = d
    · rw [hid] at hrow
      exact ht.save_checked hname (hreads _ hmem (hm hid)) hrow
    · exact ht.save_of_ne hid
  | forgotten g => exact ht.save_of_ne hm
  | built g => exact absurd hw id

/-- One process walks over dependencies, the other one runs any program at all. -/
structure Start (R : RunId) (s : Processes) : Prop where
  walks : ∃ preflight fuel root mx, s.programs .walker = walker preflight R fuel root mx

/-- In every interleaving: the row that the build has committed last stays as committed,
if from then on the walk saves it only from what it has read since. -/
theorem built_row_kept {R : RunId} {d : FileId} {s₀ s s₁ s₂ : Processes} {r : File}
    (start : Start R s₀) (before : ReflTransGen (System.Step Update.apply) s₀ s)
    (build : System.Commits .builder s s₁) (finished : s₁.programs .builder = .done ())
    (row : s₁.committed.lookup d = some r) (path : r.name ≠ ALWAYS)
    (after : ReflTransGen (System.StepIf Update.apply .walker (Timely d s₁.clock)) s₁ s₂) :
    ∃ r', s₂.committed.lookup d = some r' ∧ SameColumns r r' := by
  have hdated : s₀.Dated (Update.From R) .walker s₀.clock := by
    obtain ⟨preflight, fuel, root, mx, hw⟩ := start.walks
    refine ⟨[], ?_, by simp⟩
    rw [hw]
    exact walker_writesFrom preflight fuel root mx
  have hothers : ∀ k, k ≠ Party.walker → ∃ a, s₁.programs k = .done a := by
    intro k hk
    cases k with
    | walker => exact absurd rfl hk
    | builder => exact ⟨(), finished⟩
  have hrow : HasColumns d r s₁.committed := ⟨r, row, ⟨rfl, rfl, rfl, rfl, rfl, rfl, rfl⟩⟩
  exact (System.holds_of_commit (fun reads w t => timely_safe path reads w t) hdated before build
    hothers hrow after).committed

/-- `top` depends on `dep`, which was built in run 1. -/
def tables (topChanged : RunId) : Db where
  files := [
    { id := 1, name := "top", isGenerated := true, changedRunid := some topChanged, stamp := some "t" },
    { id := 2, name := "dep", isGenerated := true, changedRunid := some 1, stamp := some "old" }]
  deps := [{ target := 1, source := 2, mode := 'm' }]

def seenDisk (dep : Stamp) : Disk where
  readStamp name := if name = "top" then "t" else dep
  pathExists _ := true

/-- The statements at the end of a build of `dep`. -/
def rebuild : Process Unit :=
  .read fun _ db => match db.byId 2 2 with
    | none => .done ()
    | some f =>
      .write (.built fun db => (db.zapDeps2 2).save (Completion.recordBuilt 2 "new" f))
        (.commit (.done ()))

def initial (topChanged : RunId) (dep : Stamp) : Processes where
  committed := tables topChanged
  clock := 0
  tx := none
  world := seenDisk dep
  programs
    | .walker => walker [] 2 3 1 2
    | .builder => rebuild

/-- The row of `dep` as the build saves it. -/
def rebuilt : File :=
  { id := 2, name := "dep", isGenerated := true, changedRunid := some 2, stamp := some "new" }

/-- The walk reads the row of `dep` after the build, and marks it. -/
theorem built_row_kept_marked : ∃ s₂ : Processes, s₂.programs .walker = .done () ∧
    ∃ r', s₂.committed.lookup 2 = some r' ∧ SameColumns rebuilt r' := by
  have start : Start 2 (initial 2 "new") := ⟨⟨[], 3, 1, 2, rfl⟩⟩
  have before : ReflTransGen (System.Step Update.apply) (initial 2 "new") _ :=
    .tail (.tail (.tail .refl (.read (i := .walker) rfl)) (.read (i := .builder) rfl))
      (.write (i := .builder) rfl (by rintro j t ⟨⟩))
  refine ⟨_, ?_, built_row_kept (r := rebuilt) start before ⟨_, _, rfl, rfl, rfl⟩ rfl rfl (by decide)
    (.tail (.tail (.tail (.tail (.tail (.tail (.tail .refl
      ⟨.look (i := .walker) rfl, ?_⟩) ⟨.read (i := .walker) rfl, ?_⟩)
      ⟨.look (i := .walker) rfl, ?_⟩) ⟨.read (i := .walker) rfl, ?_⟩)
      ⟨.write (i := .walker) rfl (by rintro j t ⟨⟩), ?_⟩)
      ⟨.write (i := .walker) rfl (by rintro j t ⟨⟩; rfl), ?_⟩)
      ⟨.commit (i := .walker) rfl rfl, ?_⟩)⟩
  · rfl
  all_goals intro w k hw
  · cases hw
  · cases hw
  · cases hw
  · cases hw
  · cases hw
    intro _
    exact Nat.le_refl 1
  · cases hw
    intro hid
    cases hid
  · cases hw

theorem not_built_row_kept : ¬∀ (R : RunId) (d : FileId) (s₀ s s₁ s₂ : Processes) (r : File),
    Start R s₀ → ReflTransGen (System.Step Update.apply) s₀ s → System.Commits .builder s s₁ →
    s₁.programs .builder = .done () → s₁.committed.lookup d = some r → r.name ≠ ALWAYS →
    ReflTransGen (System.Step Update.apply) s₁ s₂ → s₂.programs .walker = .done () →
    ∃ r', s₂.committed.lookup d = some r' ∧ SameColumns r r' := by
  intro h
  have start : Start 2 (initial 1 STAMP_MISSING) := ⟨⟨[], 3, 1, 2, rfl⟩⟩
  -- the walk has found `dep` missing, and is about to save the row that it has read
  have walked : ReflTransGen (System.Step Update.apply) (initial 1 STAMP_MISSING) _ :=
    .tail (.tail (.tail (.tail .refl (.read (i := .walker) rfl)) (.look (i := .walker) rfl))
      (.read (i := .walker) rfl)) (.look (i := .walker) rfl)
  have before : ReflTransGen (System.Step Update.apply) (initial 1 STAMP_MISSING) _ :=
    .tail (.tail (.tail walked (.world (seenDisk "new"))) (.read (i := .builder) rfl))
      (.write (i := .builder) rfl (by rintro j t ⟨⟩))
  have lost := h 2 2 (initial 1 STAMP_MISSING) _ _ _ _ start before ⟨_, _, rfl, rfl, rfl⟩ rfl rfl (by decide)
    (.tail (.tail (.tail .refl (.write (i := .walker) rfl (by rintro j t ⟨⟩)))
      (.read (i := .walker) rfl)) (.commit (i := .walker) rfl rfl)) rfl
  obtain ⟨r', hr', hsame⟩ := lost
  cases hr'
  exact absurd hsame.isGenerated (by decide)

end Redo.Concurrent
