import Redo.Dirtiness.Walk

/-! # A rule for walks

Properties `P` of rows that survive the two ways in which the walk writes rows survive the
whole walk. If moreover `G` follows wherever the walk finds a file clean, then it holds of
the file that the walk has started from when it ends clean.
-/
namespace Redo.Dirtiness
open State

/-- The rows are those of `db₀`, each with the property; the dependencies are the same. -/
structure Along (db₀ : Db) (P : FileId → File → Prop) (db : Db) : Prop where
  deps : db.deps = db₀.deps
  known : ∀ x, (db.lookup x).isSome = (db₀.lookup x).isSome
  rows : ∀ x r, db.lookup x = some r → P x r

/-- What the walk knows of a file when it has come through all its dependencies. It has not
come by its root again, which is on its path. -/
structure CleanBelow (disk : Disk) (R : RunId) (db₀ : Db) (root : FileId)
    (P : FileId → File → Prop) (G : FileId → Prop) (f : File) : Prop where
  notFailed : f.failedRunid = none
  changed : f.changedRunid.isSome = true
  stamp : f.stamp = some (disk.readStamp f.name)
  absent : f.isOverride = false → f.isGenerated = true → ∀ d ∈ db₀.deps, d.target = f.id →
    d.mode = 'c' → (db₀.lookup d.source).isSome = true →
      ∃ g, P d.source g ∧ g.id = d.source ∧ disk.pathExists g.name = false
  clean : f.isOverride = false → f.isGenerated = true → ∀ d ∈ db₀.deps, d.target = f.id →
    d.mode = 'm' → (db₀.lookup d.source).isSome = true →
      ∃ g, P d.source g ∧ g.id = d.source ∧ g.fromRow R = g ∧ d.source ≠ root ∧ G d.source ∧
        g.changedRunid.getD 0 ≤ f.lastSeen

/-- What `P`, `G` and the set `T` of files that the walk may come to have to satisfy. -/
structure WalkRule (disk : Disk) (R : RunId) (preflight : List FileId) (db₀ : Db) (root : FileId)
    (T : FileId → Prop) (P : FileId → File → Prop) (G : FileId → Prop) : Prop where
  below : ∀ d ∈ db₀.deps, d.mode = 'm' → T d.target → T d.source
  fromRow : ∀ {x r}, P x r → P x (r.fromRow R)
  saved : ∀ {x f r}, P x f → P x r → P x { f with name := r.name }
  checked : ∀ {f}, T f.id → P f.id f → f.failedRunid = none → f.changedRunid.isSome = true →
    (f.isChecked R || preflight.contains f.id) = true → G f.id
  clean : ∀ {f}, T f.id → P f.id f → f.isChecked R = false →
    CleanBelow disk R db₀ root P G f → G f.id ∧ P f.id (f.setChecked R)
  forgotten : ∀ {f}, P f.id f → f.failedRunid = none → f.isChecked R = false →
    f.stamp ≠ some (disk.readStamp f.name) → disk.readStamp f.name = STAMP_MISSING →
      P f.id { f with isGenerated := false, failedRunid := none }

variable {disk : Disk} {R : RunId} {preflight : List FileId} {db₀ db : Db} {root : FileId}
  {T : FileId → Prop} {P : FileId → File → Prop} {G : FileId → Prop}

namespace Along

theorem byId (h : Along db₀ P db) (hr : WalkRule disk R preflight db₀ root T P G) {x : FileId}
    {f : File} (hf : db.byId R x = some f) : P x f := by
  obtain ⟨r, hlookup, rfl⟩ := Option.map_eq_some_iff.mp hf
  exact hr.fromRow (h.rows x r hlookup)

theorem save (h : Along db₀ P db) (hr : WalkRule disk R preflight db₀ root T P G) {f : File}
    (hf : P f.id f) : Along db₀ P (db.save f) where
  deps := h.deps
  known x := by
    rw [← h.known x, Db.lookup_save]
    split <;> simp
  rows x r hlookup := by
    by_cases hx : x = f.id
    · subst hx
      rw [Db.lookup_save, if_pos rfl] at hlookup
      obtain ⟨r', hr', rfl⟩ := Option.map_eq_some_iff.mp hlookup
      exact hr.saved hf (h.rows f.id r' hr')
    · rw [Db.lookup_save_of_ne hx] at hlookup
      exact h.rows x r hlookup

theorem refresh (h : Along db₀ P db) (hr : WalkRule disk R preflight db₀ root T P G) {f : File}
    (hf : P f.id f) : (db.refresh R f).id = f.id ∧ P f.id (db.refresh R f) := by
  unfold Db.refresh
  cases hb : db.byId R f.id with
  | none => exact ⟨rfl, hf⟩
  | some g => exact ⟨Db.byId_id hb, h.byId hr hb⟩

end Along

/-- What a call of the walk on a file does. -/
structure RuleHolds (db₀ : Db) (P : FileId → File → Prop) (G : FileId → Prop)
    (path : List FileId) (f : File) (mx : RunId) (out : Walked) : Prop where
  along : Along db₀ P out.state.db
  id_eq : out.file.id = f.id
  file : P f.id out.file
  clean : out.result = .ok .clean →
    G f.id ∧ f.changedRunid.getD 0 ≤ mx ∧ f.id ∉ path
  nonempty : ∀ v, out.result = .ok (.mustBuild v) → v ≠ []

/-- The walk below a path does what the rule says. -/
def Obeys (db₀ : Db) (T : FileId → Prop) (P : FileId → File → Prop) (G : FileId → Prop)
    (path : List FileId) (walk : File → RunId → WalkState → Walked) : Prop :=
  ∀ f mx s, Along db₀ P s.db → T f.id → P f.id f → RuleHolds db₀ P G path f mx (walk f mx s)

/-- A dependency that the walk accepts. -/
structure DepClean (disk : Disk) (G : FileId → Prop) (path : List FileId) (f : File)
    (p : Char × File) : Prop where
  absent : p.1 = 'c' → disk.pathExists p.2.name = false
  clean : p.1 = 'm' → G p.2.id ∧ p.2.changedRunid.getD 0 ≤ f.lastSeen ∧ p.2.id ∉ path

variable (disk) in
theorem depDirty_rule {path : List FileId} {walk : File → RunId → WalkState → Walked}
    (hw : Obeys db₀ T P G path walk) (f : File) {p : Char × File} (hp : P p.2.id p.2)
    (hT : p.1 = 'm' → T p.2.id) {s : WalkState} (hs : Along db₀ P s.db) :
    Along db₀ P (depDirty walk disk f p s).2.db ∧
      ((depDirty walk disk f p s).1 = .ok .clean → DepClean disk G path f p) ∧
      ∀ v, (depDirty walk disk f p s).1 = .ok (.mustBuild v) → v ≠ [] := by
  unfold depDirty
  by_cases hc : p.1 = 'c'
  · rw [if_pos hc]
    refine ⟨hs, fun hclean => ⟨fun _ => ?_, fun hm => ?_⟩, fun v hv => ?_⟩
    · cases he : disk.pathExists p.2.name with
      | false => rfl
      | true => simp [he] at hclean
    · rw [hc] at hm
      exact absurd hm (by decide)
    · simp only [Except.ok.injEq] at hv
      split at hv <;> cases hv
  · rw [if_neg hc]
    by_cases hm : p.1 = 'm'
    · rw [if_pos hm]
      have h := hw p.2 f.lastSeen s hs (hT hm) hp
      exact ⟨h.along, fun hclean => ⟨fun h' => absurd h' hc, fun _ => h.clean hclean⟩, h.nonempty⟩
    · rw [if_neg hm]
      exact ⟨hs, fun _ => ⟨fun h' => absurd h' hc, fun h' => absurd h' hm⟩, nofun⟩

variable (disk) in
/-- The loop ends clean only if it has found every dependency clean. -/
theorem depLoop_rule {path : List FileId} {walk : File → RunId → WalkState → Walked}
    (hw : Obeys db₀ T P G path walk) (f : File) {deps : List (Char × File)}
    (hdeps : ∀ p ∈ deps, P p.2.id p.2 ∧ (p.1 = 'm' → T p.2.id)) (mustBuild : List File)
    {s : WalkState} (hs : Along db₀ P s.db) :
    Along db₀ P (depLoop walk disk f deps mustBuild s).2.db ∧
      ((depLoop walk disk f deps mustBuild s).1 = .ok .clean →
        mustBuild = [] ∧ ∀ p ∈ deps, DepClean disk G path f p) ∧
      ∀ v, (depLoop walk disk f deps mustBuild s).1 = .ok (.mustBuild v) → v ≠ [] := by
  induction deps generalizing mustBuild s with
  | nil =>
    rw [depLoop]
    cases mustBuild with
    | nil => simpa using hs
    | cons g gs => simpa using hs
  | cons p rest ih =>
    have ih' := fun mb {s} => @ih (fun q hq => hdeps q (List.mem_cons_of_mem p hq)) mb s
    obtain ⟨hp, hT⟩ := hdeps p List.mem_cons_self
    have hstep := depDirty_rule disk hw f hp hT hs
    rw [depLoop]
    generalize depDirty walk disk f p s = out at hstep ⊢
    obtain ⟨hal, hclean, hmust⟩ := hstep
    rcases out with ⟨_ | r, s'⟩
    · exact ⟨hal, fun h => absurd h (by simp), fun v hv => absurd hv (by simp)⟩
    cases r with
    | clean =>
      obtain ⟨hal', hrest, hne⟩ := ih' mustBuild hal
      refine ⟨hal', fun h => ?_, hne⟩
      obtain ⟨hmb, hall⟩ := hrest h
      exact ⟨hmb, List.forall_mem_cons.mpr ⟨hclean rfl, hall⟩⟩
    | dirty =>
      refine ⟨hal, fun h => ?_, fun v hv => ?_⟩
      · simp only [Except.ok.injEq] at h
        split at h <;> cases h
      · simp only [Except.ok.injEq] at hv
        split at hv
        · cases hv
        · cases hv
          simp
    | mustBuild v =>
      obtain ⟨hal', hrest, hne⟩ := ih' (mustBuild ++ v) hal
      refine ⟨hal', fun h => ?_, hne⟩
      exact absurd (List.append_eq_nil_iff.mp (hrest h).1).2 (hmust v rfl)

section Rule
variable (hr : WalkRule disk R preflight db₀ root T P G)
include hr

theorem depsOf_rule {s : WalkState} (hs : Along db₀ P s.db) {f : File} (hT : T f.id) :
    ∀ p ∈ s.db.depsOf R f, P p.2.id p.2 ∧ (p.1 = 'm' → T p.2.id) := by
  intro p hp
  refine ⟨hs.byId hr (Db.byId_of_mem_depsOf hp), fun hm => ?_⟩
  obtain ⟨-, -, d, hd, ht, hmode, hsrc⟩ := Db.mem_depsOf.mp hp
  rw [Db.byId_id hsrc]
  refine hr.below d (hs.deps ▸ hd) (hmode.trans hm) ?_
  rw [ht]
  exact hT

/-- What the loop has found says what the rule wants to know of the file itself. -/
theorem cleanBelow_of_loop {s : WalkState} (hs : Along db₀ P s.db) {f : File}
    (hfail : f.failedRunid = none) (hchanged : f.changedRunid.isSome = true)
    (hstamp : f.stamp = some (disk.readStamp f.name)) {path : List FileId} (hroot : root ∈ path)
    (h : ∀ p ∈ s.db.depsOf R f, DepClean disk G path f p) :
    CleanBelow disk R db₀ root P G f where
  notFailed := hfail
  changed := hchanged
  stamp := hstamp
  absent ho hg d hd ht hm hsrc := by
    rw [← hs.known] at hsrc
    obtain ⟨r, hlookup⟩ := Option.isSome_iff_exists.mp hsrc
    have hby : s.db.byId R d.source = some (r.fromRow R) := by rw [Db.byId, hlookup]; rfl
    have hmem : (d.mode, r.fromRow R) ∈ s.db.depsOf R f :=
      Db.mem_depsOf.mpr ⟨ho, hg, d, hs.deps ▸ hd, ht, rfl, hby⟩
    exact ⟨r.fromRow R, hs.byId hr hby, Db.byId_id hby, (h _ hmem).absent hm⟩
  clean ho hg d hd ht hm hsrc := by
    rw [← hs.known] at hsrc
    obtain ⟨r, hlookup⟩ := Option.isSome_iff_exists.mp hsrc
    have hby : s.db.byId R d.source = some (r.fromRow R) := by rw [Db.byId, hlookup]; rfl
    have hmem : (d.mode, r.fromRow R) ∈ s.db.depsOf R f :=
      Db.mem_depsOf.mpr ⟨ho, hg, d, hs.deps ▸ hd, ht, rfl, hby⟩
    obtain ⟨hG, hch, hnot⟩ := (h _ hmem).clean hm
    rw [Db.byId_id hby] at hG hnot
    refine ⟨r.fromRow R, hs.byId hr hby, Db.byId_id hby, File.fromRow_fromRow R r, ?_, hG, hch⟩
    rintro rfl
    exact hnot hroot

theorem forgetVanished_rule {f : File} {s : WalkState} (hs : Along db₀ P s.db) (hf : P f.id f)
    (hfail : f.failedRunid = none) (hcheck : f.isChecked R = false)
    (hstamp : f.stamp ≠ some (disk.readStamp f.name)) :
    Along db₀ P (forgetVanished R (disk.readStamp f.name) f s).2.db ∧
      (forgetVanished R (disk.readStamp f.name) f s).1.id = f.id ∧
      P f.id (forgetVanished R (disk.readStamp f.name) f s).1 := by
  unfold forgetVanished
  by_cases h : disk.readStamp f.name = STAMP_MISSING ∧ f.stamp.isSome ∧ f.isGenerated
  · rw [if_pos h]
    have hforgot := hr.forgotten hf hfail hcheck hstamp h.1
    generalize hg : ({ f with isGenerated := false, failedRunid := none } : File) = g at hforgot ⊢
    have hid : g.id = f.id := by rw [← hg]
    rw [← hid] at hforgot ⊢
    have hal : Along db₀ P (s.db.save g) := hs.save hr hforgot
    exact ⟨hal, hal.refresh hr hforgot⟩
  · rw [if_neg h]
    exact ⟨hs, rfl, hf⟩

/-- The induction is on the fuel. Either the walk is at its root or has the root on its path. -/
theorem isdirty_rule (fuel : ℕ) (path : List FileId) (f : File) (mx : RunId) (s : WalkState)
    (hs : Along db₀ P s.db) (hT : T f.id) (hf : P f.id f) (hroot : f.id = root ∨ root ∈ path) :
    RuleHolds db₀ P G path f mx
      (isdirty (builderClosures R preflight) disk R fuel f mx path s) := by
  induction fuel generalizing path f mx s with
  | zero =>
    rw [isdirty]
    exact ⟨hs, rfl, hf, nofun, nofun⟩
  | succ fuel ih =>
    have hstay : ∀ r, r ≠ .ok .clean → (∀ v, r ≠ .ok (.mustBuild v)) →
        RuleHolds db₀ P G path f mx ⟨r, f, s⟩ :=
      fun r hr hv => ⟨hs, rfl, hf, fun h => absurd h hr, fun v h => absurd h (hv v)⟩
    simp only [isdirty]
    split_ifs with hcyc hfail hnone hlate hchecked hnost hmis hcsum
    · exact hstay _ (by simp) (by simp)
    · exact hstay _ (by simp) (by simp)
    · exact hstay _ (by simp) (by simp)
    · exact hstay _ (by simp) (by simp)
    all_goals
      have hcyc' : f.id ∉ path := by simpa using hcyc
      have hfail' : f.failedRunid = none := by simpa using hfail
      have hchanged : f.changedRunid.isSome = true := by
        cases hc : f.changedRunid with
        | none => simp [hc] at hnone
        | some c => rfl
      have hmx : f.changedRunid.getD 0 ≤ mx := not_lt.mp hlate
    · refine ⟨hs, rfl, hf, fun _ => ⟨?_, hmx, hcyc'⟩, nofun⟩
      exact hr.checked hT hf hfail' hchanged hchecked
    · exact hstay _ (by simp) (by simp)
    all_goals
      have hcheck : f.isChecked R = false := by
        have h := hchecked
        simp only [builderClosures, Bool.or_eq_true, not_or, Bool.not_eq_true] at h
        exact h.1
    · obtain ⟨hal, hid, hp⟩ := forgetVanished_rule hr hs hf hfail' hcheck hmis
      refine ⟨hal, hid, hp, nofun, fun v hv => ?_⟩
      cases hv
      simp
    · obtain ⟨hal, hid, hp⟩ := forgetVanished_rule hr hs hf hfail' hcheck hmis
      exact ⟨hal, hid, hp, nofun, nofun⟩
    · have hmem : root ∈ path ++ [f.id] := by
        rcases hroot with h | h
        · simp [h]
        · exact List.mem_append_left _ h
      have hw : Obeys db₀ T P G (path ++ [f.id]) fun f2 mx2 s2 =>
          isdirty (builderClosures R preflight) disk R fuel f2 mx2 (path ++ [f.id]) s2 :=
        fun f2 mx2 s2 hs2 hT2 hf2 => ih (path ++ [f.id]) f2 mx2 s2 hs2 hT2 hf2 (Or.inr hmem)
      have hloop := depLoop_rule disk hw f (depsOf_rule hr hs hT) [] hs
      generalize depLoop _ disk f (s.db.depsOf R f) [] s = out at hloop ⊢
      obtain ⟨hal, hclean, hne⟩ := hloop
      rcases out with ⟨_ | r, s'⟩
      · exact ⟨hal, rfl, hf, nofun, nofun⟩
      cases r with
      | clean =>
        have hstamp : f.stamp = some (disk.readStamp f.name) := not_not.mp hmis
        have hbelow := cleanBelow_of_loop hr hs hfail' hchanged hstamp hmem (hclean rfl).2
        obtain ⟨hG, hmarked⟩ := hr.clean hT hf hcheck hbelow
        exact ⟨hal.save hr hmarked, rfl, hmarked, fun _ => ⟨hG, hmx, hcyc'⟩, nofun⟩
      | dirty => exact ⟨hal, rfl, hf, nofun, nofun⟩
      | mustBuild v => exact ⟨hal, rfl, hf, nofun, hne⟩

end Rule

/-- A walk from a root whose row has been read. -/
theorem isdirtyDefault_rule {f : File}
    (hr : WalkRule disk R preflight db₀ f.id T P G) (hrows : ∀ x r, db₀.lookup x = some r → P x r)
    (hT : T f.id) (hf : db₀.byId R f.id = some f) (mx : RunId) :
    RuleHolds db₀ P G [] f mx (isdirtyDefault preflight disk R db₀ f mx) := by
  have hal : Along db₀ P db₀ := ⟨rfl, fun _ => rfl, hrows⟩
  rw [isdirtyDefault]
  exact isdirty_rule hr (budget db₀) [] f mx { db := db₀ } hal hT (hal.byId hr hf) (Or.inl rfl)

section Kept

/-- A property of rows that marking, forgetting and reading back respect. -/
structure Kept (R : RunId) (P : File → Prop) : Prop where
  fromRow : ∀ r, P r → P (r.fromRow R)
  checked : ∀ f, P f → P (f.setChecked R)
  forgotten : ∀ f, P f → P { f with isGenerated := false, failedRunid := none }
  renamed : ∀ f n, P f → P { f with name := n }

/-- The row is there, and has the property. -/
def RowHas (id : FileId) (P : File → Prop) (db : Db) : Prop := ∃ r, db.lookup id = some r ∧ P r

variable {id : FileId} {P : File → Prop}

/-- A property of one row is kept by the walk, wherever it starts. -/
theorem isdirtyDefault_keeps (hk : Kept R P) (preflight : List FileId) (disk : Disk) {db : Db}
    (h : RowHas id P db) {f : File} (hf : db.byId R f.id = some f) (mx : RunId) :
    RowHas id P (isdirtyDefault preflight disk R db f mx).state.db := by
  have hr : WalkRule disk R preflight db f.id (fun _ => True) (fun x r => x = id → P r)
      (fun _ => True) :=
    { below := fun _ _ _ _ => trivial
      fromRow := fun h hx => hk.fromRow _ (h hx)
      saved := fun h _ hx => hk.renamed _ _ (h hx)
      checked := fun _ _ _ _ _ => trivial
      clean := fun _ h _ _ => ⟨trivial, fun hx => hk.checked _ (h hx)⟩
      forgotten := fun h _ _ _ _ hx => hk.forgotten _ (h hx) }
  obtain ⟨r, hlookup, hp⟩ := h
  have hrows : ∀ x r', db.lookup x = some r' → x = id → P r' := by
    rintro x r' hr' rfl
    rw [hlookup] at hr'
    cases hr'
    exact hp
  have hw := isdirtyDefault_rule hr hrows trivial hf mx
  have hknown := hw.along.known id
  rw [hlookup] at hknown
  obtain ⟨r', hr'⟩ := Option.isSome_iff_exists.mp hknown
  exact ⟨r', hr', hw.along.rows id r' hr' rfl⟩

end Kept
end Redo.Dirtiness
