import Redo.Runs.Tables

/-! # Targets that wait for `//ALWAYS`

A target whose last build has called `redo-always`, in an earlier run, waits, and so do modified
files and the unchecked targets that depend on what waits. Walks leave them waiting.
-/
namespace Redo.Runs
open State Dirtiness Completion

inductive Waits (c : Context) (db : Db) : FileId → Prop where
  | pending {x : FileId} {r : File} (hr : db.lookup x = some r) (generated : r.isGenerated = true)
      (override : r.isOverride = false) (called : c.calledAlways x = true)
      (earlier : c.recorded x < c.R) : Waits c db x
  | modified {x : FileId} {r : File} (hr : db.lookup x = some r)
      (unchecked : r.isChecked c.R = false) (stamp : r.stamp ≠ some (c.disk.readStamp r.name)) :
      Waits c db x
  | dependent {x : FileId} {r : File} {d : Dep} (hr : db.lookup x = some r)
      (generated : r.isGenerated = true) (override : r.isOverride = false)
      (unchecked : r.isChecked c.R = false) (hd : d ∈ db.deps) (target : d.target = x)
      (mode : d.mode = 'm') (hw : Waits c db d.source) : Waits c db x

variable {c : Context} {db : Db} {x : FileId} {f : File}

theorem Waits.lookup (h : Waits c db x) : ∃ r, db.lookup x = some r := by
  cases h with
  | pending hr => exact ⟨_, hr⟩
  | modified hr => exact ⟨_, hr⟩
  | dependent hr => exact ⟨_, hr⟩

namespace Inv

theorem name_ne_of_generated (h : Inv c db) {r : File} (hr : db.lookup x = some r)
    (hgen : r.isGenerated = true) : r.name ≠ ALWAYS := by
  intro hname
  have hrow := h.rows hr
  rw [(hrow.always (hrow.name.mp hname)).2] at hgen
  cases hgen

theorem unsettled (h : Inv c db) : Unsettled c.disk c.R db (Waits c db) := by
  intro x r hx hr
  cases hx with
  | pending hr' hgen hov hcalled hearlier =>
    obtain rfl := Option.some.inj (hr.symm.trans hr')
    refine ((h.rows hr).pending hcalled hearlier hgen hov).imp_right fun hold => ?_
    obtain ⟨a, ha⟩ := Option.isSome_iff_exists.mp h.always
    obtain ⟨d, hd, htarget, hsource, hmode, -⟩ := h.declared hcalled
    have hnow : ChangedNow c.R a := Or.inl ((h.rows ha).name.mpr rfl)
    refine ⟨isChecked_of_lastSeen_lt hold, Or.inr ?_⟩
    exact
      { name := h.name_ne_of_generated hr hgen
        generated := hgen
        override := hov
        dep := ⟨d, hd, htarget, hmode, a, by rw [hsource]; exact ha, Or.inr ⟨hnow, hold⟩⟩ }
  | modified hr' hopen hstamp =>
    obtain rfl := Option.some.inj (hr.symm.trans hr')
    exact Or.inr ⟨hopen, Or.inl hstamp⟩
  | dependent hr' hgen hov hopen hd htarget hmode hw =>
    obtain rfl := Option.some.inj (hr.symm.trans hr')
    obtain ⟨s, hs⟩ := hw.lookup
    refine Or.inr ⟨hopen, Or.inr ?_⟩
    exact
      { name := h.name_ne_of_generated hr hgen
        generated := hgen
        override := hov
        dep := ⟨_, hd, htarget, hmode, s, hs, Or.inl hw⟩ }

theorem not_clean (h : Inv c db) (hf : db.byId c.R f.id = some f) (hw : Waits c db f.id)
    (mx : RunId) : (isdirtyDefault [] c.disk c.R db f mx).result ≠ .ok .clean :=
  h.unsettled.not_clean (by simp) hf hw mx

/-- A row that the walk has gone over. -/
theorem touched {foundClean : FileId → Bool} {r₀ r : File} (h : Inv c db)
    (hr₀ : db.lookup x = some r₀) (ht : Touched c.disk c.R (Waits c db) x r₀ r)
    (hmarks : Marks { c with foundClean } x r) : RowInv { c with foundClean } x r := by
  have hrow := h.rows hr₀
  exact
    { toMarks := hmarks
      name := by
        rw [ht.name]
        exact hrow.name
      always := fun hx => by
        obtain ⟨hfailed, hgen⟩ := hrow.always hx
        refine ⟨ht.failed.trans hfailed, ?_⟩
        rcases ht.generated with heq | ⟨heq, -⟩
        · rw [heq, hgen]
        · exact heq
      pending := fun hcalled hearlier hgen hov => by
        have hgen₀ : r₀.isGenerated = true := by
          rcases ht.generated with heq | ⟨heq, -⟩
          · rwa [← heq]
          · rw [heq] at hgen
            cases hgen
        have hov₀ : r₀.isOverride = false := ht.override.symm.trans hov
        have hw : Waits c db x := .pending hr₀ hgen₀ hov₀ hcalled hearlier
        have hchecked : r.checkedRunid = r₀.checkedRunid :=
          ht.checked.resolve_right fun hc => hc.2.2 hw
        rw [ht.failed, ht.lastSeen_eq (h.name_ne_of_generated hr₀ hgen₀) hchecked]
        exact hrow.pending hcalled hearlier hgen₀ hov₀
      rebuilt := fun hb => by
        have hbuilt := hrow.rebuilt hb
        refine ⟨ht.failed.trans hbuilt.notFailed, ht.changed_isSome hbuilt.changed, ?_, ?_⟩
        · rw [ht.stamp, ht.name]
          exact hbuilt.stamp
        · exact hbuilt.mark.imp ht.isChecked ht.isChanged }

theorem isdirty (h : Inv c db) (hf : db.byId c.R f.id = some f) (mx : RunId) :
    let db' := (isdirtyDefault [] c.disk c.R db f mx).state.db
    Inv { c with foundClean := fun x => c.foundClean x ||
      (Project.marked c.R db' x && !Project.marked c.R db x) } db' := by
  intro db'
  have halong : Along db (Traced c.disk c.R db (Waits c db)) db' :=
    (h.unsettled.walk (by simp) hf mx).along
  have htraced : ∀ {y r}, db'.lookup y = some r →
      ∃ r₀, db.lookup y = some r₀ ∧ Touched c.disk c.R (Waits c db) y r₀ r :=
    fun hr => halong.rows _ _ hr
  exact
    { positive := h.positive
      absent := h.absent
      always := (halong.known ALWAYS_ID).trans h.always
      rows := fun {y r} hr => by
        obtain ⟨r₀, hr₀, ht⟩ := htraced hr
        refine h.touched hr₀ ht ((h.rows hr₀).toMarks.touched ht rfl ?_ ?_)
        · intro hfound
          simp [hfound]
        · intro hnew hold
          simp [Project.marked, hr, hr₀, hnew, hold]
      held := fun {y sf} hb => by
        have hheld := h.held hb
        exact
          { hheld with
            first := fun hcsum hc => by simp [hheld.first hcsum hc]
            row := by
              obtain ⟨r₀, hr₀, hname⟩ := hheld.row
              have hsome := halong.known y
              rw [hr₀] at hsome
              obtain ⟨r, hr⟩ := Option.isSome_iff_exists.mp hsome
              obtain ⟨r₁, hr₁, ht⟩ := htraced hr
              rw [hr₀] at hr₁
              cases hr₁
              exact ⟨r, hr, ht.name.trans hname⟩ }
      known := fun hb => (halong.known _).trans (h.known hb)
      idle := h.idle
      declared := fun hc => by
        obtain ⟨d, hd, hrest⟩ := h.declared hc
        exact ⟨d, halong.deps ▸ hd, hrest⟩
      current := fun hc => by
        obtain ⟨d, hd, hrest⟩ := h.current hc
        exact ⟨d, halong.deps ▸ hd, hrest⟩
      stamped := fun ⟨d, hd, hs⟩ r hr => by
        obtain ⟨r₀, hr₀, ht⟩ := htraced hr
        rw [ht.stamp]
        exact h.stamped ⟨d, halong.deps ▸ hd, hs⟩ r₀ hr₀ }

end Inv
end Redo.Runs
