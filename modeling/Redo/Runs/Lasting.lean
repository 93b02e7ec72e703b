import Redo.Runs.Growing
import Redo.Runs.Once

/-! # What a build leaves lasts

From one toplevel command to the next a target stays up to date as long as nobody touches the files
below it, whatever else is built in between.
-/
namespace Redo.Runs
open State Dirtiness Override Completion

/-- Nobody is at work on the file, and its row fits the file. -/
structure Resting (p : Work) (x : FileId) (r : File) : Prop where
  row : p.db.lookup x = some r
  notAlways : r.name ≠ ALWAYS
  idle : p.building x = none
  free : p.claimed x = none
  notFailed : r.failedRunid = none
  changed : r.changedRunid.isSome = true
  stamp : r.stamp = some (p.disk.readStamp r.name)

/-- The file is up to date by all that is recorded below it, without a checked mark. All files that
this rests on are in `N`. -/
inductive Lasting (p : Work) (N : FileId → Prop) : FileId → Prop where
  | intro {x : FileId} {r : File} (inside : N x) (resting : Resting p x r)
      (absent : HasDeps r → ∀ d ∈ p.db.deps, d.target = x → d.mode = 'c' → N d.source ∧
        ∃ r', p.db.lookup d.source = some r' ∧ p.disk.pathExists r'.name = false)
      (notAfter : HasDeps r → ∀ d ∈ p.db.deps, d.target = x → d.mode = 'm' →
        ∀ g, p.db.lookup d.source = some g → g.changedRunid.getD 0 ≤ r.lastSeen)
      (deps : HasDeps r → ∀ d ∈ p.db.deps, d.target = x → d.mode = 'm' → Lasting p N d.source) :
      Lasting p N x

/-- The files in `N` are not touched, and what does not exist is not created. -/
def KeepsFiles (p : Work) (N : FileId → Prop) (disk : Disk) : Prop :=
  ∀ z r, N z → p.db.lookup z = some r → disk.readStamp r.name = p.disk.readStamp r.name ∧
    (p.disk.pathExists r.name = false → disk.pathExists r.name = false)

/-- Neither a user nor a recipe touches the files in `N`, and nobody wants to have one of them whose
file is missing built without a look. -/
def Act.Spares (N : FileId → Prop) (p : Work) : Act → Prop
  | enter entry _ f => entry = .missing → ¬N f.id
  | other (.edit disk) | other (.finish _ _ disk) => KeepsFiles p N disk
  | _ => True

def SparingStep (N : FileId → Prop) (p p' : Work) : Prop :=
  ∃ a : Act, a.Fits p ∧ a.Spares N p ∧ p' = a.apply p

/-- All that the recipe has declared, itself or by the list of a job on a server, lasts. -/
def BuiltOn (p : Work) (N : FileId → Prop) (i : Input) : Prop :=
  ∀ db, i.Base db → ∀ d ∈ db.deps, d.target = i.sf.id → d.deleteMe = false →
    (d.mode = 'm' → Lasting p N d.source) ∧
      (d.mode = 'c' → N d.source ∧
        ∃ r, p.db.lookup d.source = some r ∧ p.disk.pathExists r.name = false)

def PlainStep (p p' : Work) : Prop :=
  ∃ a : Act, a.Fits p ∧ (a.event p).Plain p.toProject ∧ p' = a.apply p

/-- What other events leave of the row of a resting file. -/
structure Outlasts (r r' : File) : Prop where
  name : r'.name = r.name
  changed : r'.changedRunid = r.changedRunid
  seen : r.lastSeen ≤ r'.lastSeen
  notFailed : r'.failedRunid = none
  stamp : r'.stamp = r.stamp
  deps : HasDeps r' → HasDeps r

/-- The row `//ALWAYS` is the first. -/
structure Founded (s : Project) : Prop extends Tidy s, Dated s where
  always : ∃ r, s.db.lookup ALWAYS_ID = some r ∧ r.name = ALWAYS

variable {p p' q : Work} {N : FileId → Prop} {x : FileId} {r f : File} {a : Act} {s : Project}

theorem Founded.step (h : Founded s) {e : Event} (hfits : e.Fits s) : Founded (e.apply s) where
  toTidy := hfits.tidy h.toTidy
  toDated := hfits.dated h.toTidy h.toDated
  always := by
    obtain ⟨r, hr, hname⟩ := h.always
    obtain ⟨r', hr', hname'⟩ := hfits.row_name h.toTidy hr
    exact ⟨r', hr', hname'.trans hname⟩

theorem Work.Begun.founded {p₀ : Work} (h : p₀.Begun)
    (hreach : Relation.ReflTransGen WorkStep p₀ p) : Founded p.toProject := by
  induction hreach with
  | refl =>
    refine ⟨h.tidy, h.toStarted.dated, { id := ALWAYS_ID, name := ALWAYS }, ?_, rfl⟩
    rw [h.db]
    rfl
  | tail _ hstep ih =>
    obtain ⟨a, hfits, rfl⟩ := hstep
    rw [a.apply_toProject]
    exact ih.step hfits.event

namespace Resting

theorem byId (h : Resting p x r) : p.db.byId p.R x = some r := by
  rw [Db.byId, h.row, Option.map_some, File.fromRow_of_ne _ _ h.notAlways]

/-- What an event about another file makes of the row. -/
theorem beside (h : Resting p x r) (hfounded : Founded p.toProject) {r' : File}
    (hbeside : Beside p.toProject x r r') : Outlasts r r' := by
  have hread : r.fromRow p.R = r := File.fromRow_of_ne _ _ h.notAlways
  cases hbeside with
  | same => exact ⟨rfl, rfl, le_refl _, h.notFailed, rfl, id⟩
  | walked ht =>
    have hchanged : r'.changedRunid = r.changedRunid := by
      rcases ht.changed with hc | hc
      · exact hc
      · rw [hc, hread]
    refine ⟨ht.name, hchanged, ?_, ht.failed.trans h.notFailed, ht.stamp, ?_⟩
    · rcases ht.checked with hc | ⟨hc, -⟩
      · simp only [File.lastSeen, hchanged, hc, le_refl]
      · have hold : r.checkedRunid.getD 0 ≤ p.R := hfounded.checked (.inl h.row)
        simp only [File.lastSeen, hchanged, hc, Option.getD_some]
        exact max_le (le_max_left _ _) (hold.trans (le_max_right _ _))
    · rintro ⟨hov, hgen⟩
      refine ⟨ht.override.symm.trans hov, ?_⟩
      rcases ht.generated with hg | ⟨hg, -⟩
      · exact hg.symm.trans hgen
      · rw [hg] at hgen
        cases hgen
  | chosen =>
    have hkeep : r.updateStamp p.R (p.disk.readStamp r.name) = r := by
      simp [File.updateStamp, h.stamp]
    rw [hread, File.setStatic, hkeep]
    exact ⟨rfl, rfl, le_refl _, rfl, rfl, fun hd => absurd hd.2 Bool.false_ne_true⟩
  | always hx =>
    obtain ⟨a, ha, hname⟩ := hfounded.always
    rw [← hx, h.row] at ha
    obtain rfl := Option.some.inj ha
    exact absurd hname h.notAlways

end Resting

/-- Nobody is about to do anything to a resting file. -/
theorem Resting.target_ne (h : Resting p x r) (hfits : a.Fits p) : (a.event p).target ≠ some x := by
  intro htarget
  cases a with
  | enter entry oob f =>
    rw [Act.event] at htarget
    split at htarget <;> cases htarget
  | attempt q =>
    obtain rfl : q.sf.id = x := Option.some.inj htarget
    have hclaim := hfits.1
    rw [h.free] at hclaim
    cases hclaim
  | other e =>
    have hattempt : ∀ q, e ≠ .attempt q := by
      rintro q rfl
      exact hfits.2
    have hheld := hfits.1.held_target hattempt htarget
    rw [h.idle] at hheld
    cases hheld
  | _ => cases htarget

theorem Act.Spares.keepsFiles (h : a.Spares N p) : KeepsFiles p N (a.apply p).disk := by
  have hsame : (a.apply p).disk = p.disk → KeepsFiles p N (a.apply p).disk := by
    intro hdisk z r _ _
    rw [hdisk]
    exact ⟨rfl, id⟩
  cases a with
  | enter entry oob f =>
    apply hsame
    rw [Act.apply, Entry.look]
    split <;> rfl
  | attempt q => exact hsame (apply_disk rfl)
  | other e =>
    cases e with
    | edit | finish => exact h
    | _ => exact hsame (apply_disk rfl)
  | _ => exact hsame rfl

namespace Lasting

theorem inside (h : Lasting p N x) : N x := by
  cases h
  assumption

theorem resting (h : Lasting p N x) : ∃ r, Resting p x r := by
  cases h
  exact ⟨_, by assumption⟩

theorem fresh (h : Lasting p N x) (hf : p.db.byId p.R x = some f) {mx : RunId}
    (hmx : f.changedRunid.getD 0 ≤ mx) : Fresh p.disk p.R p.db mx f := by
  induction h generalizing f mx with
  | @intro x r inside resting absent notAfter deps ih =>
    have hid : f.id = x := Db.byId_id hf
    rw [resting.byId] at hf
    obtain rfl := Option.some.inj hf
    refine .walked resting.notFailed resting.changed hmx resting.stamp (fun g hg => ?_) fun g hg => ?_
    · obtain ⟨hov, hgen, d, hd, ht, hm, hs⟩ := Db.mem_depsOf.mp hg
      obtain ⟨-, r', hr', hpath⟩ := absent ⟨hov, hgen⟩ d hd (ht.trans hid) hm
      rw [Db.byId, hr'] at hs
      rw [← Option.some.inj hs, File.fromRow_name]
      exact hpath
    · obtain ⟨hov, hgen, d, hd, ht, hm, hs⟩ := Db.mem_depsOf.mp hg
      have htarget := ht.trans hid
      have hsource := deps ⟨hov, hgen⟩ d hd htarget hm
      obtain ⟨r', hr'⟩ := hsource.resting
      have hsame := hr'.byId
      rw [hs] at hsame
      obtain rfl := Option.some.inj hsame
      exact ih ⟨hov, hgen⟩ d hd htarget hm hs (notAfter ⟨hov, hgen⟩ d hd htarget hm g hr'.row)

/-- A process that looks finds nothing to do. -/
theorem verdict (h : Lasting p N f.id) (hfounded : Founded p.toProject)
    (hf : p.db.byId p.R f.id = some f) {entry : Entry} (hlooks : entry ≠ .missing) (oob : Bool) :
    entry.verdict oob p.toProject f = none := by
  have hwalks : entry.walks = true := by
    cases entry with
    | missing => exact absurd rfl hlooks
    | _ => rfl
  obtain ⟨r, hr⟩ := h.resting
  have hsame := hr.byId
  rw [hf] at hsame
  obtain rfl := Option.some.inj hsame
  have hclean : (isdirtyDefault [] p.disk p.R p.db f p.R).result = .ok .clean :=
    (h.fresh hf (hfounded.changed (.inl hr.row))).clean hf
  rw [Entry.verdict, if_pos hwalks, hclean]
  simp

theorem kept (h : Lasting p N x)
    (hnames : ∀ y r, p.db.lookup y = some r → ∃ r', p'.db.lookup y = some r' ∧ r'.name = r.name)
    (hdisk : KeepsFiles p N p'.disk)
    (hrow : ∀ z r, Lasting p N z → Resting p z r → ∃ r', Resting p' z r' ∧ Outlasts r r')
    (hdeps : ∀ z r, Resting p z r → SameDeps z p.db p'.db) : Lasting p' N x := by
  induction h with
  | @intro x r inside resting absent notAfter deps ih =>
    obtain ⟨r', hr', hout⟩ := hrow x r (.intro inside resting absent notAfter deps) resting
    have hmem := (hdeps x r resting).deps
    refine .intro inside hr' (fun hd d hmem' ht hm => ?_) (fun hd d hmem' ht hm g' hg' => ?_)
      fun hd d hmem' ht hm => ih (hout.deps hd) d ((hmem d ht).mp hmem') ht hm
    · obtain ⟨hin, g, hg, hpath⟩ := absent (hout.deps hd) d ((hmem d ht).mp hmem') ht hm
      obtain ⟨g', hg', hname⟩ := hnames _ _ hg
      refine ⟨hin, g', hg', ?_⟩
      rw [hname]
      exact (hdisk _ _ hin hg).2 hpath
    · have hold := (hmem d ht).mp hmem'
      have hsource := deps (hout.deps hd) d hold ht hm
      obtain ⟨g, hg⟩ := hsource.resting
      obtain ⟨g₁, hg₁, hgout⟩ := hrow _ g hsource hg
      have hrow₁ := hg₁.row
      rw [hg'] at hrow₁
      obtain rfl := Option.some.inj hrow₁
      rw [hgout.changed]
      exact (notAfter (hout.deps hd) d hold ht hm g hg.row).trans hout.seen

/-- Nobody decides to build it. -/
theorem claimed (h : Lasting p N x) (hfounded : Founded p.toProject) (hfits : a.Fits p)
    (hspares : a.Spares N p) : (a.apply p).claimed x = none := by
  obtain ⟨r, hr⟩ := h.resting
  cases a with
  | enter entry oob f =>
    by_cases hx : x = f.id
    · subst hx
      have hnone := h.verdict hfounded hfits.1 (fun hmissing => hspares hmissing h.inside) oob
      exact (Function.update_self _ _ _).trans hnone
    · exact (Function.update_of_ne hx _ _).trans hr.free
  | giveBack | attempt => exact update_none hr.free
  | _ => exact hr.free

theorem step (h : Lasting p N x) (hfounded : Founded p.toProject) (hfits : a.Fits p)
    (hspares : a.Spares N p) : Lasting (a.apply p) N x := by
  have hevent := hfits.event
  have hproject := a.apply_toProject p
  have hdisk := hspares.keepsFiles
  refine h.kept (fun y r hr => ?_) hdisk (fun z r hz hr => ?_) fun z r hr => ?_
  · rw [hproject]
    exact hevent.row_name hfounded.toTidy hr
  · have htarget := hr.target_ne hfits
    obtain ⟨r', hr', hbeside⟩ := hevent.beside hfounded.toTidy htarget hr.row
    have hout := hr.beside hfounded hbeside
    refine ⟨r', ⟨?_, ?_, ?_, hz.claimed hfounded hfits hspares, hout.notFailed, ?_, ?_⟩, hout⟩
    · rw [hproject]
      exact hr'
    · rw [hout.name]
      exact hr.notAlways
    · rw [hproject]
      exact building_of_target_ne hevent htarget hr.idle
    · rw [hout.changed]
      exact hr.changed
    · rw [hout.stamp, hout.name, (hdisk z r hz.inside hr.row).1]
      exact hr.stamp
  · have htarget := hr.target_ne hfits
    rw [hproject]
    exact hevent.sameDeps hfounded.ids (fun hs => htarget (target_of_sorts hs))
      fun hdec => htarget (target_of_declares hdec)

/-- The recipe is not started. -/
theorem executions (h : Lasting p N x) (hfits : a.Fits p) (hrun : ∀ R, a ≠ .newRun R) :
    (a.apply p).executions x = p.executions x := by
  cases a with
  | start id =>
    have hx : x ≠ id := by
      rintro rfl
      obtain ⟨r, hr⟩ := h.resting
      have hheld := hfits.1
      rw [hr.idle] at hheld
      cases hheld
    exact Function.update_of_ne hx _ _
  | newRun R => exact absurd rfl (hrun R)
  | _ => rfl

end Lasting

/-- Nothing has been executed since `q`: as much in its run, and nothing in a later one. -/
structure NotExecuted (q p : Work) (x : FileId) : Prop where
  run : q.R ≤ p.R
  same : p.R = q.R → p.executions x = q.executions x
  later : q.R < p.R → p.executions x = 0

theorem Lasting.notExecuted (h : Lasting p N x) (hfits : a.Fits p) (hq : NotExecuted q p x) :
    NotExecuted q (a.apply p) x := by
  by_cases hrun : ∃ R, a = .newRun R
  · obtain ⟨R, rfl⟩ := hrun
    have hR : p.R < R := hfits.1.2
    exact ⟨hq.run.trans hR.le, fun heq => absurd (hq.run.trans_lt hR) (not_lt.mpr heq.le), fun _ => rfl⟩
  · have hR := hfits.run fun R heq => hrun ⟨R, heq⟩
    have hsame := h.executions hfits fun R heq => hrun ⟨R, heq⟩
    constructor
    · rw [hR]
      exact hq.run
    · rw [hR, hsame]
      exact hq.same
    · rw [hR, hsame]
      exact hq.later

section Finish
variable {i : Input} {scheduled : Bool} {disk : Disk}

theorem PlainStep.step (h : PlainStep p p') : WorkStep p p' := by
  obtain ⟨a, hfits, -, hp⟩ := h
  exact ⟨a, hfits, hp⟩

theorem Work.Begun.inv_plain {p₀ : Work} (h : p₀.Begun)
    (hreach : Relation.ReflTransGen PlainStep p₀ p) : Inv p.toContext p.db := by
  induction hreach with
  | refl => exact h.inv h.absent
  | tail _ hstep ih =>
    obtain ⟨a, hfits, hplain, rfl⟩ := hstep
    have hrun : RunStep _ (a.apply _).toProject :=
      ⟨a.event _, hfits.event, hplain, a.apply_toProject _⟩
    exact hrun.inv ih

/-- While a target is being built nobody else decides about it. -/
theorem Work.Begun.free {p₀ : Work} (h : p₀.Begun) (hreach : Relation.ReflTransGen WorkStep p₀ p)
    (hx : (p.building x).isSome = true) : p.claimed x = none := by
  induction hreach with
  | refl => rw [h.claimed]
  | @tail p _ _ hstep ih =>
    obtain ⟨a, hfits, rfl⟩ := hstep
    have hheld : (∃ q, a.event p = .attempt q ∧ q.sf.id = x) ∨ (p.building x).isSome = true := by
      rw [a.apply_toProject] at hx
      rcases (building_iff hfits.event).mp hx with ⟨q, hq, hid⟩ | ⟨hheld, -⟩
      · exact .inl ⟨q, (starts_eq hq).1, hid⟩
      · exact .inr hheld
    cases a with
    | enter entry oob f =>
      have hsome : (p.building x).isSome = true := by
        rcases hheld with ⟨q, hq, -⟩ | hheld
        · rw [Act.event] at hq
          split at hq <;> cases hq
        · exact hheld
      have hne : x ≠ f.id := by
        rintro rfl
        rw [hfits.2.1] at hsome
        cases hsome
      exact (Function.update_of_ne hne _ _).trans (ih hsome)
    | giveBack id =>
      rcases hheld with ⟨q, hq, -⟩ | hheld
      · cases hq
      · exact update_none (ih hheld)
    | attempt q' =>
      rcases hheld with ⟨q, hq, hid⟩ | hheld
      · cases hq
        rw [← hid]
        exact Function.update_self _ _ _
      · exact update_none (ih hheld)
    | other e =>
      rcases hheld with ⟨q, hq, -⟩ | hheld
      · have hfits' := hfits.2
        rw [show e = .attempt q from hq] at hfits'
        exact hfits'.elim
      · exact ih hheld
    | start | newRun =>
      rcases hheld with ⟨q, hq, -⟩ | hheld
      · cases hq
      · exact ih hheld

/-- A completion leaves lasting what lasts with the new files. -/
theorem Lasting.finish (hx : Lasting { q with disk } N x)
    (hfits : (Act.other (.finish i scheduled disk)).Fits q) (htidy : Tidy q.toProject) :
    Lasting ((Act.other (.finish i scheduled disk)).apply q) N x := by
  have hevent : (Event.finish i scheduled disk).Fits q.toProject := hfits.1
  have hne : ∀ {z r}, Resting { q with disk } z r → z ≠ i.sf.id := by
    rintro z r hr rfl
    have hidle : q.building i.sf.id = none := hr.idle
    rw [hevent.1] at hidle
    cases hidle
  refine hx.kept (fun y r hr => hevent.row_name htidy hr) (fun z r _ _ => ⟨rfl, id⟩)
    (fun z r _ hr => ?_) fun z r hr => ?_
  · refine ⟨r, ⟨?_, hr.notAlways, ?_, hr.free, hr.notFailed, hr.changed, hr.stamp⟩,
      rfl, rfl, le_refl _, hr.notFailed, rfl, id⟩
    · exact (lookup_outcome (s := q.toProject) hevent (hne hr)).trans hr.row
    · exact (Function.update_of_ne (hne hr) _ _).trans hr.idle
  · exact hevent.sameDeps htidy.ids (fun hs => hne hr (Option.some.inj hs).symm)
      fun hd => by cases hd

/-- A recipe that has ended with code 0, on top of what lasts, leaves a target that lasts. -/
theorem finish_lasting {p₀ : Work} (hbegun : p₀.Begun)
    (hreach : Relation.ReflTransGen PlainStep p₀ q)
    (hfits : (Act.other (.finish i scheduled disk)).Fits q)
    (hplain : (Event.finish i scheduled disk).Plain q.toProject)
    (hcode : (outcome i scheduled).ended = .code 0) (hinside : N i.sf.id)
    (hdeps : BuiltOn { q with disk } N i) :
    Lasting ((Act.other (.finish i scheduled disk)).apply q) N i.sf.id := by
  have hevent : (Event.finish i scheduled disk).Fits q.toProject := hfits.1
  have hwork : Relation.ReflTransGen WorkStep p₀ q :=
    Relation.ReflTransGen.mono (fun _ _ => PlainStep.step) _ _ hreach
  have hold := hbegun.inv_plain hreach
  have htidy := hold.tidy
  have hinv := hbegun.inv_plain (hreach.tail ⟨_, hfits, hplain, rfl⟩)
  have hheld := hold.held hevent.1
  obtain ⟨r₀, hr₀, -⟩ := hheld.row
  obtain ⟨r, hr, -⟩ := hevent.row_name htidy hr₀
  have hrow := hinv.rows hr
  have hbuilt := hrow.rebuilt ((Function.update_self _ _ _).trans (decide_eq_true hcode))
  have hfree : q.claimed i.sf.id = none := hbegun.free hwork (by rw [hevent.1]; rfl)
  have hresting : Resting ((Act.other (.finish i scheduled disk)).apply q) i.sf.id r :=
    ⟨hr, fun hA => hheld.notAlways (hrow.name.mp hA), Function.update_self _ _ _, hfree,
      hbuilt.notFailed, hbuilt.changed, hbuilt.stamp⟩
  have hseen : q.R ≤ r.lastSeen := by
    rcases hbuilt.mark with hc | hc
    · exact (le_of_isChecked hc).trans (le_max_right _ _)
    · exact (le_of_isChanged hc).trans (le_max_left _ _)
  obtain ⟨db, r', hbase, -, hsaved⟩ := outcome_commits hevent.2.2.2.1
  have hkept : ∀ d ∈ ((Act.other (.finish i scheduled disk)).apply q).db.deps,
      d.target = i.sf.id → d ∈ db.deps ∧ d.deleteMe = false := by
    intro d hd ht
    have hmem : d ∈ ((db.zapDeps2 i.sf.id).save r').deps := by
      rw [← hsaved]
      exact hd
    simpa [Db.zapDeps2, ht] using hmem
  refine .intro hinside hresting (fun _ d hd ht hm => ?_) (fun _ d hd ht hm g hg => ?_)
    fun _ d hd ht hm => ?_
  · obtain ⟨hmem, hdelete⟩ := hkept d hd ht
    obtain ⟨hin, r₁, hr₁, hpath⟩ := (hdeps db hbase d hmem ht hdelete).2 hm
    obtain ⟨r₂, hr₂, hname₂⟩ := hevent.row_name htidy hr₁
    refine ⟨hin, r₂, hr₂, ?_⟩
    rw [hname₂]
    exact hpath
  · exact (hinv.rows hg).changed.trans hseen
  · obtain ⟨hmem, hdelete⟩ := hkept d hd ht
    exact ((hdeps db hbase d hmem ht hdelete).1 hm).finish hfits htidy

end Finish
section AskedAgain
/-! `f` has been built by `f.do`. Somebody creates `g` before the next `redo-ifchange f`. -/

theorem ConsiderateStep.plain (h : ConsiderateStep p p') (hinv : Inv p.toContext p.db) :
    PlainStep p p' := by
  obtain ⟨a, hfits, hcons, hp⟩ := h
  exact ⟨a, hfits, hcons.plain hinv, hp⟩

theorem Work.Begun.plain_run {p₀ : Work} (h : p₀.Begun)
    (hrun : Relation.ReflTransGen ConsiderateStep p₀ p) : Relation.ReflTransGen PlainStep p₀ p := by
  induction hrun with
  | refl => exact .refl
  | tail _ hstep ih => exact ih.tail (hstep.plain (h.inv_plain ih))

namespace Work

def filesOfF (x : FileId) : Prop := x = 2 ∨ x = 3

def withG : Disk where
  readStamp name := if name = "g" then "7.0-1" else (diskWith "9.0-1").readStamp name
  pathExists name := name = "g" || (diskWith "9.0-1").pathExists name

def editedOnce : Work := (Act.other (.edit withG)).apply ((Act.newRun 2).apply builtOnce)

theorem builtOnce_fits : (Act.other (.finish (endOfF heard.running.toProject 0 (some { mtime := 9 })
    (by decide)) true (diskWith "9.0-1"))).Fits heard.running :=
  ⟨by rw [Event.Fits]; decide, by decide, diskWith_stamps (by decide)⟩

theorem builtOnce_plain : (Event.finish (endOfF heard.running.toProject 0 (some { mtime := 9 })
    (by decide)) true (diskWith "9.0-1")).Plain heard.running.toProject := by
  have hclean : (heard.running.db.lookup 3).all (·.failedRunid = none) = true := by decide
  refine ⟨rfl, keepsRebuilt_of_none (fun x hx => running_rebuilt hx) _, trivial, fun _ r hr => ?_⟩
  rw [show heard.running.db.lookup 3 = some r from hr] at hclean
  exact Or.inl (by simpa using hclean)

theorem rule_lasts : Lasting { heard.running with disk := diskWith "9.0-1" } filesOfF 2 := by
  have hstatic : ¬HasDeps (rowOf heard.running.toProject 2 "f.do") := by
    rw [HasDeps]
    decide
  refine .intro (r := rowOf heard.running.toProject 2 "f.do") (.inl rfl)
    ⟨by decide, by decide, rfl, rfl, by decide, by decide, by decide⟩ ?_ ?_ ?_
  · exact fun hd => absurd hd hstatic
  · exact fun hd => absurd hd hstatic
  · exact fun hd => absurd hd hstatic

theorem builtOnce_on : BuiltOn { heard.running with disk := diskWith "9.0-1" } filesOfF
    (endOfF heard.running.toProject 0 (some { mtime := 9 }) (by decide)) := by
  intro db hbase d hd ht hdelete
  have hdeps : db.deps = [{ target := 3, source := 2, mode := 'm' }] := by
    cases hbase <;> decide
  rw [hdeps] at hd
  obtain rfl := List.mem_singleton.mp hd
  exact ⟨fun _ => rule_lasts, fun hm => absurd hm (by decide)⟩

theorem heard_run : Relation.ReflTransGen PlainStep empty heard.running :=
  empty_begun.plain_run running_run

theorem editedOnce_run :
    Relation.ReflTransGen (SparingStep filesOfF) builtOnce editedOnce.decided := by
  have hidle : ∀ x, builtOnce.building x = none := by
    intro x
    by_cases hx : x = 3
    · subst hx
      rfl
    · exact (Function.update_of_ne hx _ _).trans ((Function.update_of_ne hx _ _).trans rfl)
  have hfree : ∀ x, builtOnce.claimed x = none := by
    intro x
    by_cases hx : x = 3
    · subst hx
      rfl
    · exact (Function.update_of_ne hx _ _).trans ((Function.update_of_ne hx _ _).trans rfl)
  have hnew : SparingStep filesOfF builtOnce ((Act.newRun 2).apply builtOnce) :=
    ⟨.newRun 2, ⟨⟨hidle, by decide⟩, hfree⟩, trivial, rfl⟩
  have hkept : KeepsFiles ((Act.newRun 2).apply builtOnce) filesOfF withG := by
    have h2 : ((Act.newRun 2).apply builtOnce).db.lookup 2 =
        some (rowOf heard.running.toProject 2 "f.do") := by decide
    have h3 : (((Act.newRun 2).apply builtOnce).db.lookup 3).all (·.name = "f") = true := by decide
    rintro z r (rfl | rfl) hr
    · rw [h2] at hr
      obtain rfl := Option.some.inj hr
      decide
    · rw [hr] at h3
      have hname : r.name = "f" := by simpa using h3
      rw [hname]
      decide
  have hstamps : ∀ name, withG.readStamp name ≠ "" := by
    intro name
    rw [withG]
    simp only
    split_ifs
    · decide
    · exact diskWith_stamps (by decide) name
  have hedit : SparingStep filesOfF ((Act.newRun 2).apply builtOnce) editedOnce :=
    ⟨.other (.edit withG), ⟨trivial, hstamps⟩, hkept, rfl⟩
  have henter : editedOnce.enterF.Fits editedOnce := by
    rw [enterF, Act.Fits]
    decide
  have hlooks : editedOnce.enterF.Spares filesOfF editedOnce := fun hmissing => by cases hmissing
  exact ((Relation.ReflTransGen.single hnew).tail hedit).tail ⟨_, henter, hlooks, rfl⟩

end Work
end AskedAgain
end Redo.Runs
