import Redo.Dirtiness.Agreement

/-! # What the builder's walk takes for up to date

A file with a checked mark of this run is not looked at again, whatever has happened to what is
below it. `Fresh` is the walk's own judgement, marks included. Going through fresh files the walk
adds marks and writes nothing else.
-/
namespace Redo.Dirtiness
open State Library Relation

section Definitions
variable (disk : Disk) (R : RunId) (db : Db)

inductive Fresh : RunId → File → Prop where
  | checked {mx : RunId} {f : File} (notFailed : f.failedRunid = none)
      (changed : f.changedRunid.isSome) (notAfter : f.changedRunid.getD 0 ≤ mx)
      (mark : f.isChecked R = true) : Fresh mx f
  | walked {mx : RunId} {f : File} (notFailed : f.failedRunid = none)
      (changed : f.changedRunid.isSome) (notAfter : f.changedRunid.getD 0 ≤ mx)
      (stamp : f.stamp = some (disk.readStamp f.name))
      (absent : ∀ g, ('c', g) ∈ db.depsOf R f → disk.pathExists g.name = false)
      (deps : ∀ g, ('m', g) ∈ db.depsOf R f → Fresh f.lastSeen g) : Fresh mx f

/-- A dependency along which the walk goes on. -/
def OpenEdge (a b : FileId) : Prop :=
  ∃ f g, db.byId R a = some f ∧ f.isChecked R = false ∧ ('m', g) ∈ db.depsOf R f ∧ g.id = b

/-- Rows have gained checked marks. -/
structure MarkedSince (db' : Db) : Prop where
  deps : db'.deps = db.deps
  rows : ∀ x, db'.byId R x = db.byId R x ∨ db'.byId R x = (db.byId R x).map (File.setChecked R)

end Definitions

variable {disk : Disk} {R : RunId} {db db' : Db}

theorem MarkedSince.refl (R : RunId) (db : Db) : MarkedSince R db db := ⟨rfl, fun _ => Or.inl rfl⟩

theorem MarkedSince.byId (h : MarkedSince R db db') {x : FileId} {f : File} (hf : db'.byId R x = some f) :
    ∃ f₀, db.byId R x = some f₀ ∧ (f = f₀ ∨ f = f₀.setChecked R) := by
  rcases h.rows x with hrow | hrow
  · rw [hrow] at hf
    exact ⟨f, hf, Or.inl rfl⟩
  · rw [hrow] at hf
    obtain ⟨f₀, hf₀, rfl⟩ := Option.map_eq_some_iff.mp hf
    exact ⟨f₀, hf₀, Or.inr rfl⟩

theorem MarkedSince.save (h : MarkedSince R db db') {f : File} (hf : db.byId R f.id = some f) :
    MarkedSince R db (db'.save (f.setChecked R)) where
  deps := h.deps
  rows x := by
    by_cases hx : x = f.id
    · subst hx
      right
      obtain ⟨r₀, hr₀, hsnap⟩ := Option.map_eq_some_iff.mp hf
      have hkeep : (f.setChecked R).fromRow R = f.setChecked R :=
        File.fromRow_with R r₀ _ (by rw [← hsnap]; exact r₀.fromRow_name R) (by rw [← hsnap]; rfl)
      have hsome : (db'.byId R f.id).isSome = true := by
        rcases h.rows f.id with hrow | hrow <;> simp [hrow, hf]
      obtain ⟨f', hf'⟩ := Option.isSome_iff_exists.mp hsome
      have hname : f'.name = f.name := by
        obtain ⟨f₀, hf₀, hor⟩ := h.byId hf'
        obtain rfl : f = f₀ := Option.some.inj (hf.symm.trans hf₀)
        rcases hor with rfl | rfl <;> rfl
      obtain ⟨r, hr, rfl⟩ := Option.map_eq_some_iff.mp hf'
      rw [File.fromRow_name] at hname
      have hrow : (db'.save (f.setChecked R)).lookup f.id = some (f.setChecked R) := by
        have hid : (f.setChecked R).id = f.id := rfl
        rw [Db.lookup_save_self hid hr, hname]
        rfl
      rw [Db.byId, hrow, hf]
      exact congrArg some hkeep
    · have hrow := h.rows x
      rw [Db.byId, Db.lookup_save_of_ne (f := f.setChecked R) hx]
      exact hrow

theorem Fresh.bound {mx mx' : RunId} {f : File} (h : Fresh disk R db mx f)
    (hmx : f.changedRunid.getD 0 ≤ mx') : Fresh disk R db mx' f := by
  cases h with
  | checked notFailed changed _ mark => exact .checked notFailed changed hmx mark
  | walked notFailed changed _ stamp absent deps =>
    exact .walked notFailed changed hmx stamp absent deps

theorem Fresh.acc {mx : RunId} {f : File} (h : Fresh disk R db mx f)
    (hf : db.byId R f.id = some f) : Acc (Function.swap (OpenEdge R db)) f.id := by
  induction h with
  | @checked mx f _ _ _ mark =>
    constructor
    rintro b ⟨f', g, hf', hopen, -, -⟩
    obtain rfl : f = f' := Option.some.inj (hf.symm.trans hf')
    rw [mark] at hopen
    cases hopen
  | @walked mx f _ _ _ _ _ deps ih =>
    constructor
    rintro b ⟨f', g, hf', -, hg, rfl⟩
    obtain rfl : f = f' := Option.some.inj (hf.symm.trans hf')
    exact ih g hg (Db.byId_of_mem_depsOf hg)

theorem Fresh.not_mem_path {mx : RunId} {f : File} (h : Fresh disk R db mx f)
    (hf : db.byId R f.id = some f) {path : List FileId}
    (hl : LeadsTo (OpenEdge R db) path f.id) : f.id ∉ path :=
  hl.not_mem fun hcycle => not_transGen_of_acc (h.acc hf) (transGen_swap.mpr hcycle)

/-- What the loop needs of a dependency. -/
structure DepFresh (disk : Disk) (R : RunId) (db : Db) (f : File) (p : Char × File) : Prop where
  absent : p.1 = 'c' → disk.pathExists p.2.name = false
  fresh : p.1 = 'm' → ∃ g, db.byId R g.id = some g ∧ Fresh disk R db f.lastSeen g ∧
    (p.2 = g ∨ p.2 = g.setChecked R) ∧ OpenEdge R db f.id g.id

theorem depDirty_fresh {walk : File → RunId → WalkState → Walked} {f : File} {p : Char × File}
    (hp : DepFresh disk R db f p) {s : WalkState} (hs : MarkedSince R db s.db)
    (hw : ∀ g g₀ s, db.byId R g₀.id = some g₀ → Fresh disk R db f.lastSeen g₀ →
      (g = g₀ ∨ g = g₀.setChecked R) → OpenEdge R db f.id g₀.id → MarkedSince R db s.db →
        (walk g f.lastSeen s).result = .ok .clean ∧ MarkedSince R db (walk g f.lastSeen s).state.db) :
    (depDirty walk disk f p s).1 = .ok .clean ∧
      MarkedSince R db (depDirty walk disk f p s).2.db := by
  unfold depDirty
  by_cases hc : p.1 = 'c'
  · rw [if_pos hc, hp.absent hc]
    exact ⟨rfl, hs⟩
  rw [if_neg hc]
  by_cases hm : p.1 = 'm'
  · rw [if_pos hm]
    obtain ⟨g, hg, hfresh, hseen, hedge⟩ := hp.fresh hm
    exact hw p.2 g s hg hfresh hseen hedge hs
  · rw [if_neg hm]
    exact ⟨rfl, hs⟩

theorem depLoop_fresh {walk : File → RunId → WalkState → Walked} {f : File}
    (hw : ∀ g g₀ s, db.byId R g₀.id = some g₀ → Fresh disk R db f.lastSeen g₀ →
      (g = g₀ ∨ g = g₀.setChecked R) → OpenEdge R db f.id g₀.id → MarkedSince R db s.db →
        (walk g f.lastSeen s).result = .ok .clean ∧ MarkedSince R db (walk g f.lastSeen s).state.db)
    {deps : List (Char × File)} (hdeps : ∀ p ∈ deps, DepFresh disk R db f p) {s : WalkState}
    (hs : MarkedSince R db s.db) :
    (depLoop walk disk f deps [] s).1 = .ok .clean ∧
      MarkedSince R db (depLoop walk disk f deps [] s).2.db := by
  induction deps generalizing s with
  | nil => exact ⟨rfl, hs⟩
  | cons p rest ih =>
    obtain ⟨hclean, hmarked⟩ := depDirty_fresh (hdeps p List.mem_cons_self) hs hw
    rw [depLoop]
    generalize depDirty walk disk f p s = out at hclean hmarked ⊢
    obtain ⟨r, s'⟩ := out
    obtain rfl : r = .ok .clean := hclean
    exact ih (fun q hq => hdeps q (List.mem_cons_of_mem p hq)) hmarked

/-- The dependencies, read while the walk is under way. -/
theorem MarkedSince.depFresh (h : MarkedSince R db db') {f : File} (hf : db.byId R f.id = some f)
    (hopen : f.isChecked R = false)
    (habsent : ∀ g, ('c', g) ∈ db.depsOf R f → disk.pathExists g.name = false)
    (hdeps : ∀ g, ('m', g) ∈ db.depsOf R f → Fresh disk R db f.lastSeen g) :
    ∀ p ∈ db'.depsOf R f, DepFresh disk R db f p := by
  rintro ⟨m, g⟩ hp
  obtain ⟨hov, hgen, d, hd, ht, hm, hsrc⟩ := Db.mem_depsOf.mp hp
  obtain ⟨g₀, hg₀, hseen⟩ := h.byId hsrc
  have hmem : (m, g₀) ∈ db.depsOf R f :=
    Db.mem_depsOf.mpr ⟨hov, hgen, d, h.deps ▸ hd, ht, hm, hg₀⟩
  constructor
  · intro hc
    obtain rfl : m = 'c' := hc
    have hname : g.name = g₀.name := by rcases hseen with rfl | rfl <;> rfl
    rw [hname]
    exact habsent g₀ hmem
  · intro hc
    obtain rfl : m = 'm' := hc
    have hg := Db.byId_of_mem_depsOf hmem
    exact ⟨g₀, hg, hdeps g₀ hmem, hseen, f, g₀, hf, hopen, hmem, rfl⟩

/-- The walk finds fresh files clean. The induction is on the budget; that it does not come by
its path again follows from the files on it being open. -/
theorem Fresh.isdirty_clean {preflight : List FileId} {fuel : ℕ} {f₀ f : File} {mx : RunId}
    {path : List FileId} {s : WalkState} (h : Fresh disk R db mx f₀)
    (hf₀ : db.byId R f₀.id = some f₀) (hseen : f = f₀ ∨ f = f₀.setChecked R)
    (hs : MarkedSince R db s.db) (hroom : Room (db.files.map (·.id)) fuel path)
    (hl : LeadsTo (OpenEdge R db) path f₀.id) :
    (isdirty (builderClosures R preflight) disk R fuel f mx path s).result = .ok .clean ∧
      MarkedSince R db (isdirty (builderClosures R preflight) disk R fuel f mx path s).state.db := by
  induction fuel generalizing f₀ f mx path s with
  | zero => exact hroom.pos.elim
  | succ fuel ih =>
    have hpath : f₀.id ∉ path := h.not_mem_path hf₀ hl
    have hid : f.id = f₀.id := by rcases hseen with rfl | rfl <;> rfl
    have hfailed : f.failedRunid = f₀.failedRunid := by rcases hseen with rfl | rfl <;> rfl
    have hchanged : f.changedRunid = f₀.changedRunid := by rcases hseen with rfl | rfl <;> rfl
    obtain ⟨notFailed, changed, notAfter⟩ : f₀.failedRunid = none ∧ f₀.changedRunid.isSome ∧
        f₀.changedRunid.getD 0 ≤ mx := by
      cases h with
      | checked notFailed changed notAfter _ => exact ⟨notFailed, changed, notAfter⟩
      | walked notFailed changed notAfter _ _ _ => exact ⟨notFailed, changed, notAfter⟩
    rw [isdirty, hid, hfailed, hchanged, if_neg (by simpa using hpath), if_neg (by simp [notFailed]),
      if_neg (by simpa [Option.isSome_iff_ne_none] using changed), if_neg (not_lt.mpr notAfter)]
    by_cases hchk : (builderClosures R preflight).isChecked s f = true
    · rw [if_pos hchk]
      exact ⟨rfl, hs⟩
    rw [if_neg hchk]
    simp only [builderClosures, Bool.not_eq_true, Bool.or_eq_false_iff] at hchk
    obtain rfl : f = f₀ := by
      rcases hseen with rfl | rfl
      · rfl
      · rw [isChecked_setChecked] at hchk
        cases hchk.1
    cases h with
    | checked _ _ _ mark =>
      rw [mark] at hchk
      cases hchk.1
    | walked _ _ _ stamp absent deps =>
      rw [if_neg (by simp [stamp]), if_neg (not_not.mpr stamp)]
      have hroom' := hroom.step (by simpa using hpath) (Db.id_mem_of_byId hf₀)
      have hloop : (depLoop (fun f2 mx s => isdirty (builderClosures R preflight) disk R fuel f2 mx
          (path ++ [f.id]) s) disk f (s.db.depsOf R f) [] s).1 = .ok .clean ∧
          MarkedSince R db (depLoop (fun f2 mx s => isdirty (builderClosures R preflight) disk R fuel f2
            mx (path ++ [f.id]) s) disk f (s.db.depsOf R f) [] s).2.db :=
        depLoop_fresh (fun g g₀ s hg₀ hfresh hseen hedge hs =>
          ih hfresh hg₀ hseen hs hroom' (hl.step hedge)) (hs.depFresh hf₀ hchk.1 absent deps) hs
      generalize depLoop _ disk f (s.db.depsOf R f) [] s = out at hloop ⊢
      obtain ⟨r, s'⟩ := out
      obtain ⟨hclean, hmarked⟩ := hloop
      obtain rfl : r = .ok .clean := hclean
      exact ⟨rfl, hmarked.save hf₀⟩

theorem Fresh.clean {preflight : List FileId} {f : File} {mx : RunId}
    (h : Fresh disk R db mx f) (hf : db.byId R f.id = some f) :
    (isdirtyDefault preflight disk R db f mx).result = .ok .clean :=
  (h.isdirty_clean hf (Or.inl rfl) (MarkedSince.refl R db) (Room.budget db) (leadsTo_nil f.id)).1

end Redo.Dirtiness
