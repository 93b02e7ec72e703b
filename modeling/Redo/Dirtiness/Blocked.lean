import Redo.Dirtiness.Overdue

/-! # All that a walk writes, and what it leaves alone

A walk marks files that it has found clean, turns vanished targets into sources, and writes down
that `//ALWAYS` counts as changed. Targets that one of their dependencies keeps from being clean
get no mark, nor do files that have been modified.
-/
namespace Redo.Dirtiness
open State

/-- A row during or after a walk, against the row before it; the files of `N` are not marked. -/
structure Touched (disk : Disk) (R : RunId) (N : FileId → Prop) (x : FileId) (r₀ r : File) :
    Prop where
  name : r.name = r₀.name
  override : r.isOverride = r₀.isOverride
  stamp : r.stamp = r₀.stamp
  csum : r.csum = r₀.csum
  failed : r.failedRunid = r₀.failedRunid
  changed : r.changedRunid = r₀.changedRunid ∨ r.changedRunid = (r₀.fromRow R).changedRunid
  checked : r.checkedRunid = r₀.checkedRunid ∨
    r.checkedRunid = some R ∧ r.changedRunid.isSome = true ∧ ¬N x
  generated : r.isGenerated = r₀.isGenerated ∨
    r.isGenerated = false ∧ r.stamp ≠ some (disk.readStamp r.name)

/-- The row of a target with a dependency that lets no walk find it clean. -/
structure BlockedRow (disk : Disk) (R : RunId) (db : Db) (N : FileId → Prop) (x : FileId)
    (r : File) : Prop where
  name : r.name ≠ ALWAYS
  generated : r.isGenerated = true
  override : r.isOverride = false
  dep : ∃ d ∈ db.deps, d.target = x ∧ ∃ s, db.lookup d.source = some s ∧
    (d.mode = 'c' ∧ disk.pathExists s.name = true ∨
      d.mode = 'm' ∧ (N d.source ∨ r.lastSeen < (s.fromRow R).changedRunid.getD 0))

/-- The files of `N` have failed, or have no mark of this run and have been modified or are
blocked. -/
def Blocked (disk : Disk) (R : RunId) (db : Db) (N : FileId → Prop) : Prop :=
  ∀ x r, N x → db.lookup x = some r → r.failedRunid.isSome = true ∨
    r.isChecked R = false ∧ (r.stamp ≠ some (disk.readStamp r.name) ∨ BlockedRow disk R db N x r)

variable {disk : Disk} {R : RunId} {db : Db} {N : FileId → Prop} {x : FileId} {r₀ r : File}

namespace Touched

theorem refl (disk : Disk) (R : RunId) (N : FileId → Prop) (x : FileId) (r : File) :
    Touched disk R N x r r :=
  ⟨rfl, rfl, rfl, rfl, rfl, Or.inl rfl, Or.inl rfl, Or.inl rfl⟩

theorem fromRow_changed (h : Touched disk R N x r₀ r) :
    (r.fromRow R).changedRunid = (r₀.fromRow R).changedRunid := by
  rcases h.changed with hc | hc
  · unfold File.fromRow
    rw [h.name, hc]
    split_ifs <;> simp [hc]
  · rw [File.fromRow_with R r₀ r h.name hc, hc]

theorem fromRow (h : Touched disk R N x r₀ r) : Touched disk R N x r₀ (r.fromRow R) := by
  have hsome : r.changedRunid.isSome = true → (r.fromRow R).changedRunid.isSome = true := by
    intro hs
    unfold File.fromRow
    split_ifs <;> simp [hs]
  have hfailed : (r.fromRow R).failedRunid = r.failedRunid := by
    unfold File.fromRow
    split <;> rfl
  have hcsum : (r.fromRow R).csum = r.csum := by
    unfold File.fromRow
    split <;> rfl
  exact
    { name := by simpa using h.name
      override := by simpa using h.override
      stamp := by simpa using h.stamp
      csum := hcsum.trans h.csum
      failed := hfailed.trans h.failed
      changed := Or.inr h.fromRow_changed
      checked := by
        rw [File.fromRow_checkedRunid]
        exact h.checked.imp_right fun hc => ⟨hc.1, hsome hc.2.1, hc.2.2⟩
      generated := by simpa using h.generated }

/-- A waiting row keeps its marks. -/
theorem lastSeen_eq (h : Touched disk R N x r₀ r) (hname : r₀.name ≠ ALWAYS)
    (hchecked : r.checkedRunid = r₀.checkedRunid) : r.lastSeen = r₀.lastSeen := by
  have hchanged : r.changedRunid = r₀.changedRunid := by
    rcases h.changed with hc | hc
    · exact hc
    · rw [hc, File.fromRow_of_ne R r₀ hname]
  rw [File.lastSeen, File.lastSeen, hchanged, hchecked]

theorem changed_isSome (h : Touched disk R N x r₀ r) (hs : r₀.changedRunid.isSome = true) :
    r.changedRunid.isSome = true := by
  rcases h.changed with heq | heq
  · rwa [heq]
  · rw [heq, File.fromRow]
    split_ifs <;> simp [hs]

theorem isChecked (h : Touched disk R N x r₀ r) (hc : r₀.isChecked R = true) :
    r.isChecked R = true := by
  rcases h.checked with heq | ⟨heq, -, -⟩
  · rwa [File.isChecked, heq]
  · simp [File.isChecked, heq]

theorem isChanged (h : Touched disk R N x r₀ r) (hc : r₀.isChanged R = true) :
    r.isChanged R = true := by
  rcases h.changed with heq | heq
  · rwa [File.isChanged, heq]
  · rw [File.isChanged, heq, File.fromRow]
    split
    · simp
    · exact hc

end Touched

/-- The row that the walk has found, and what has become of it. -/
def Traced (disk : Disk) (R : RunId) (db₀ : Db) (N : FileId → Prop) (x : FileId) (r : File) :
    Prop :=
  ∃ r₀, db₀.lookup x = some r₀ ∧ Touched disk R N x r₀ r

namespace Blocked

theorem not_cleanBelow (h : Blocked disk R db N) {root : FileId} {f : File} (hf : N f.id)
    (hrow : Traced disk R db N f.id f) :
    ¬CleanBelow disk R db root (Traced disk R db N) (fun x => ¬N x) f := by
  intro hbelow
  obtain ⟨r₀, hr₀, ht⟩ := hrow
  have hblocked : BlockedRow disk R db N f.id r₀ := by
    rcases h _ r₀ hf hr₀ with hfailed | ⟨-, hmodified | hblocked⟩
    · rw [← ht.failed, hbelow.notFailed] at hfailed
      cases hfailed
    · rw [← ht.stamp, ← ht.name] at hmodified
      exact absurd hbelow.stamp hmodified
    · exact hblocked
  have hov : f.isOverride = false := ht.override.trans hblocked.override
  have hgen : f.isGenerated = true := by
    rcases ht.generated with hg | ⟨-, hne⟩
    · rw [hg, hblocked.generated]
    · exact absurd hbelow.stamp hne
  have hchecked : f.checkedRunid = r₀.checkedRunid := ht.checked.resolve_right fun hc => hc.2.2 hf
  obtain ⟨d, hd, htarget, s, hs, ⟨hmode, hexists⟩ | ⟨hmode, hlate⟩⟩ := hblocked.dep
  · obtain ⟨g, ⟨s', hs', hg⟩, -, habsent⟩ :=
      hbelow.absent hov hgen d hd htarget hmode (by rw [hs]; rfl)
    obtain rfl : s = s' := Option.some.inj (hs.symm.trans hs')
    rw [hg.name, hexists] at habsent
    cases habsent
  · obtain ⟨g, ⟨s', hs', hg⟩, -, hsnap, -, hnot, hle⟩ :=
      hbelow.clean hov hgen d hd htarget hmode (by rw [hs]; rfl)
    obtain rfl : s = s' := Option.some.inj (hs.symm.trans hs')
    have hnew := hlate.resolve_left hnot
    rw [← hg.fromRow_changed, hsnap] at hnew
    rw [ht.lastSeen_eq hblocked.name hchecked] at hle
    exact absurd hle (not_le.mpr hnew)

theorem walkRule (h : Blocked disk R db N) {preflight : List FileId} (hpre : ∀ x ∈ preflight, ¬N x)
    (root : FileId) : WalkRule disk R preflight db root (fun _ => True) (Traced disk R db N)
      (fun x => ¬N x) where
  below _ _ _ _ := trivial
  fromRow := by
    rintro x r ⟨r₀, hr₀, ht⟩
    exact ⟨r₀, hr₀, ht.fromRow⟩
  saved := by
    rintro x f r ⟨r₀, hr₀, hf⟩ ⟨r₁, hr₁, hr⟩
    obtain rfl : r₀ = r₁ := Option.some.inj (hr₀.symm.trans hr₁)
    have hname : r.name = f.name := hr.name.trans hf.name.symm
    rw [hname]
    exact ⟨r₀, hr₀, hf⟩
  checked := by
    rintro f - ⟨r₀, hr₀, hf⟩ hfailed - hc hN
    have hchecked : f.checkedRunid = r₀.checkedRunid :=
      hf.checked.resolve_right fun hc => hc.2.2 hN
    have hopen : f.isChecked R = false := by
      rcases h _ r₀ hN hr₀ with hsome | ⟨hopen, -⟩
      · rw [← hf.failed, hfailed] at hsome
        cases hsome
      · rw [File.isChecked, hchecked]
        exact hopen
    rw [hopen, Bool.false_or, List.contains_iff_mem] at hc
    exact hpre f.id hc hN
  clean := by
    intro f _ hf _ hbelow
    have hnot : ¬N f.id := fun hN => h.not_cleanBelow hN hf hbelow
    obtain ⟨r₀, hr₀, ht⟩ := hf
    exact ⟨hnot, r₀, hr₀, { ht with checked := Or.inr ⟨rfl, hbelow.changed, hnot⟩ }⟩
  forgotten := by
    rintro f ⟨r₀, hr₀, ht⟩ hfailed - hstamp -
    exact ⟨r₀, hr₀, { ht with failed := hfailed.symm.trans ht.failed
                              generated := Or.inr ⟨rfl, hstamp⟩ }⟩

theorem walk (h : Blocked disk R db N) {preflight : List FileId} (hpre : ∀ x ∈ preflight, ¬N x)
    {f : File} (hf : db.byId R f.id = some f) (mx : RunId) :
    RuleHolds db (Traced disk R db N) (fun x => ¬N x) [] f mx
      (isdirtyDefault preflight disk R db f mx) :=
  isdirtyDefault_rule (h.walkRule hpre f.id)
    (fun x r hr => ⟨r, hr, Touched.refl disk R N x r⟩) trivial hf mx

theorem not_clean (h : Blocked disk R db N) {preflight : List FileId}
    (hpre : ∀ x ∈ preflight, ¬N x) {f : File} (hf : db.byId R f.id = some f) (hN : N f.id)
    (mx : RunId) : (isdirtyDefault preflight disk R db f mx).result ≠ .ok .clean :=
  fun hclean => ((h.walk hpre hf mx).clean hclean).1 hN

end Blocked

/-- Whatever there is to find, the walk touches the rows it comes by. -/
theorem isdirtyDefault_along {preflight : List FileId} {f : File} (hf : db.byId R f.id = some f)
    (mx : RunId) : Along db (Traced disk R db fun _ => False)
      (isdirtyDefault preflight disk R db f mx).state.db :=
  have hnone : Blocked disk R db fun _ => False := fun _ _ hN => hN.elim
  (hnone.walk (fun _ _ => not_false) hf mx).along

end Redo.Dirtiness
