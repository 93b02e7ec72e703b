import Mathlib.Data.List.Sort
import Redo.Dirtiness.Agreement
import Redo.Paths.Listed

/-! # Listings

`redo-sources`, `redo-targets` and `redo-ood` go through the rows by name. A row is printed as the
way to its file from the current directory.
-/
namespace Redo.Dirtiness
open State Paths Remote Library

def isSource (disk : Disk) (R : RunId) (f : File) : Bool :=
  let newstamp := disk.readStamp f.name
  if "//".toList.isPrefixOf f.name.toList then false
  else if f.isGenerated ∧ (¬f.isFailed R ∨ newstamp ≠ STAMP_MISSING) ∧ ¬f.isOverride ∧
      f.stamp = some newstamp then false
  else if (¬f.isGenerated ∨ f.stamp ≠ some newstamp) ∧ newstamp = STAMP_MISSING then false
  else true

def isTarget (disk : Disk) (R : RunId) (f : File) : Bool := f.isGenerated && !isSource disk R f

/-- `files`: all rows, by name. -/
def listFiles (R : RunId) (db : Db) : List File :=
  (db.files.map (File.fromRow R)).insertionSort fun f g => f.name ≤ g.name

def redoSources (p : Process) (disk : Disk) (R : RunId) (db : Db) : List Text :=
  ((listFiles R db).filter (isSource disk R)).map (p.shown ·.name.toList)

def redoTargets (p : Process) (disk : Disk) (R : RunId) (db : Db) : List Text :=
  ((listFiles R db).filter (isTarget disk R)).map (p.shown ·.name.toList)

/-- The loop of `redo-ood`: an error ends it. -/
def oodLoop (disk : Disk) (R : RunId) : List File → WalkState → List File × Option WalkError
  | [], _ => ([], none)
  | f :: rest, s =>
    if isTarget disk R f then
      match oodWalk disk R R f s with
      | (.error e, _) => ([], some e)
      | (.ok r, s) =>
        let out := oodLoop disk R rest s
        (if r = .clean then out.1 else f :: out.1, out.2)
    else oodLoop disk R rest s

/-- What is printed, and the error at the end. -/
def redoOod (p : Process) (disk : Disk) (R : RunId) (db : Db) : List Text × Option WalkError :=
  let out := oodLoop disk R (listFiles R db) { db }
  (out.1.map (p.shown ·.name.toList), out.2)

/-- The answers up to the first error. -/
def report : List (File × Except WalkError DirtyResult) → List File × Option WalkError
  | [] => ([], none)
  | (_, .error e) :: _ => ([], some e)
  | (f, .ok r) :: rest => (if r = .clean then (report rest).1 else f :: (report rest).1, (report rest).2)

variable {p : Process} {disk : Disk} {R : RunId} {db : Db} {fs : List File}

theorem oodLoop_eq (fs : List File) (s : WalkState) : oodLoop disk R fs s =
    report ((fs.filter (isTarget disk R)).zip
      (walkAll (oodWalk disk R R) (fs.filter (isTarget disk R)) s).1) := by
  induction fs generalizing s with
  | nil => rfl
  | cons f rest ih =>
    by_cases htarget : isTarget disk R f = true
    · rw [oodLoop, if_pos htarget, List.filter_cons_of_pos htarget]
      change _ = report ((f, (oodWalk disk R R f s).1) ::
        (rest.filter (isTarget disk R)).zip (walkAll _ _ (oodWalk disk R R f s).2).1)
      obtain ⟨r, s'⟩ := oodWalk disk R R f s
      cases r with
      | error e => rfl
      | ok r => simp only [report, ih]
    · rw [oodLoop, if_neg htarget, List.filter_cons_of_neg htarget, ih]

theorem report_spec {rs : List (Except WalkError DirtyResult)} {spec : File → Except WalkError Verdict}
    (h : verdicts rs = fs.map spec) :
    (report (fs.zip rs)).1 = (fs.takeWhile fun f => (spec f).isOk).filter (spec · ≠ .ok .clean) ∧
      ((report (fs.zip rs)).2 = none ↔ ∀ f ∈ fs, (spec f).isOk) := by
  induction fs generalizing rs with
  | nil => simp [report]
  | cons f fs ih =>
    obtain ⟨r, rs, rfl⟩ : ∃ r rs', rs = r :: rs' := by
      cases rs with
      | nil => simp [verdicts] at h
      | cons r rs => exact ⟨r, rs, rfl⟩
    simp only [verdicts, List.map_cons, List.cons.injEq] at h
    obtain ⟨hf, hrest⟩ := h
    have hih := ih hrest
    rw [List.zip_cons_cons]
    cases r with
    | error e =>
      have hspec : spec f = .error e := hf.symm
      simp [report, hspec, Except.isOk, Except.toBool]
    | ok r =>
      have hspec : spec f = .ok r.verdict := hf.symm
      have hclean : r = .clean ↔ spec f = .ok .clean := by
        rw [hspec]
        cases r <;> simp [DirtyResult.verdict]
      have hok : (spec f).isOk = true := by rw [hspec]; rfl
      rw [List.takeWhile_cons, if_pos hok, List.filter_cons]
      refine ⟨?_, ?_⟩
      · simp only [report, hclean, hih.1, decide_not, Bool.not_eq_true', decide_eq_false_iff_not]
        split_ifs <;> rfl
      · simp only [report, hih.2, List.forall_mem_cons, hok, true_and]

theorem find?_of_mem {r : File} {files : List File} (hids : (files.map (·.id)).Nodup) (hr : r ∈ files) :
    files.find? (·.id = r.id) = some r := by
  induction files with
  | nil => cases hr
  | cons a files ih =>
    rw [List.map_cons, List.nodup_cons] at hids
    rw [List.find?_cons]
    rcases List.mem_cons.mp hr with rfl | hr
    · simp
    · have hne : a.id ≠ r.id := fun heq => hids.1 (heq ▸ List.mem_map_of_mem hr)
      simp [hne, ih hids.2 hr]

/-- The rows that are listed are as the tables have them. -/
theorem byId_of_mem_listFiles (hids : (db.files.map (·.id)).Nodup) {f : File} (hf : f ∈ listFiles R db) :
    db.byId R f.id = some f := by
  rw [listFiles, List.mem_insertionSort] at hf
  obtain ⟨r, hr, rfl⟩ := List.mem_map.mp hf
  rw [File.fromRow_id, Db.byId, Db.lookup, find?_of_mem hids hr]
  rfl

/-- What the builder makes of a row that it looks at first. -/
def judged (disk : Disk) (R : RunId) (db : Db) (f : File) : Except WalkError DirtyResult :=
  (isdirtyDefault [] disk R db f R).result

theorem isOk_map (e : Except WalkError DirtyResult) : (e.map DirtyResult.verdict).isOk = e.isOk := by
  cases e <;> rfl

theorem map_eq_clean (e : Except WalkError DirtyResult) :
    e.map DirtyResult.verdict = .ok .clean ↔ e = .ok .clean := by
  cases e with
  | error e => simp [Except.map]
  | ok r => cases r <;> simp [Except.map, DirtyResult.verdict]

/-- A file that exists is a source or a target. -/
theorem isSource_of_present {f : File} (hname : "//".toList.isPrefixOf f.name.toList = false)
    (hpresent : disk.readStamp f.name ≠ STAMP_MISSING) :
    isSource disk R f = true ↔ isTarget disk R f = false := by
  have hgenerated : f.isGenerated = false → isSource disk R f = true := fun hg => by
    unfold isSource
    rw [hname]
    simp [hpresent, hg]
  rw [isTarget, Bool.and_eq_false_iff, Bool.not_eq_false']
  exact ⟨Or.inr, fun h => h.elim hgenerated id⟩

/-- After the last build of the diamond its source has been edited. -/
def editedDisk : Disk := ⟨fun name => if name = "in" then "10" else "9", fun _ => true⟩

end Redo.Dirtiness
