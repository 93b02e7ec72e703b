import Redo.Runs.Reachable

/-! # Completion, and the invariant of all reachable projects -/
namespace Redo.Runs
open State Dirtiness Override Completion

variable {c : Context} {i : Input} {o : Outcome}

/-- The end of a recipe, with everything it has been recorded from. -/
structure Recording (c : Context) (i : Input) (o : Outcome) (disk : Disk) : Prop where
  held : c.building i.sf.id = some i.sf
  R : i.R = c.R
  commits : i.Commits o
  stamp : i.calls.readStamp o.paths.target = disk.readStamp i.sf.name
  stampNe : disk.readStamp i.sf.name ≠ ""
  absent : disk.readStamp ALWAYS = STAMP_MISSING
  remote : OrdinaryRemote i.remote
  clears : o.ended = .code 0 → ∀ r, i.db.lookup i.sf.id = some r → ClearsFailure c.R r

namespace Inv

theorem applyRemoteDeps {db : Db} (h : Inv c db) (id : FileId) {l : List (Char × Option FileId)}
    (hl : ∀ p ∈ l, p.2 ≠ some ALWAYS_ID) : Inv c (Input.applyRemoteDeps id l db).2 := by
  induction l generalizing db with
  | nil => exact h
  | cons p rest ih =>
    obtain ⟨mode, source⟩ := p
    have hrest : ∀ q ∈ rest, q.2 ≠ some ALWAYS_ID := fun q hq => hl q (List.mem_cons_of_mem _ hq)
    cases source with
    | none => exact h
    | some s =>
      have hs : s ≠ ALWAYS_ID := fun heq => hl _ List.mem_cons_self (congrArg some heq)
      exact ih (h.addDep hs id mode) hrest

theorem base {db : Db} (h : Inv c i.db) (hremote : OrdinaryRemote i.remote) (hb : i.Base db) :
    Inv c db := by
  cases hb with
  | tables => exact h
  | remote =>
    unfold Input.applyRemote
    cases hr : i.remote with
    | off => exact h
    | unreadable => exact h
    | deps l =>
      rw [hr] at hremote
      exact h.applyRemoteDeps i.sf.id hremote

end Inv

/-- What is written in the end has the marks in order. -/
theorem Recording.marks {disk : Disk} {r : File} (h : Recording c i o disk) (hinv : Inv c i.db)
    (hw : i.Written o r) : Marks c i.sf.id r ∧ r.name = i.sf.name := by
  obtain ⟨hby, hname⟩ := hinv.refresh h.held
  have hsf := (hinv.held h.held).toMarks
  have hrow := (hinv.byId hby).toMarks
  cases hw with
  | built =>
    rw [h.R, recordBuilt_name]
    exact ⟨hrow.recordBuilt _, hname⟩
  | @failed rv sf _ _ hheld =>
    have hmarks : Marks c i.sf.id sf ∧ sf.name = i.sf.name := by
      cases hheld with
      | snapshot => exact ⟨hsf, rfl⟩
      | built n =>
        rw [h.R, recordBuilt_name]
        exact ⟨hsf.recordBuilt n, rfl⟩
      | refreshed n =>
        rw [h.R, recordBuilt_name]
        exact ⟨hrow.recordBuilt n, hname⟩
    rw [h.R, File.setFailed_name]
    exact ⟨hmarks.1.setFailed _, hmarks.2⟩

/-- A build with code 0 leaves the row of a built target, where a failure is cleared. -/
theorem Recording.built {disk : Disk} {r : File} (h : Recording c i o disk) (hinv : Inv c i.db)
    (hw : i.Written o r) (hzero : o.ended = .code 0) : BuiltRow c.R disk r := by
  cases hw with
  | failed hend hrv _ =>
    rw [hzero] at hend
    exact absurd (Ended.code.inj hend).symm hrv
  | built _ =>
    obtain ⟨hby, hname⟩ := hinv.refresh h.held
    obtain ⟨r₀, hr₀, hsnap⟩ := Option.map_eq_some_iff.mp hby
    have hclear := h.clears hzero r₀ hr₀
    have hrow := hinv.rows hr₀
    have hne : r₀.name ≠ ALWAYS :=
      fun hA => (hinv.held h.held).notAlways (hrow.name.mp hA)
    rw [File.fromRow_of_ne c.R r₀ hne] at hsnap
    rw [← hsnap] at hname
    rw [h.R, h.stamp, ← hsnap]
    by_cases hm : Marked c.R r₀
    · rw [recordBuilt_marked _ hm]
      refine ⟨hclear.resolve_right (not_not.mpr hm), ?_, ?_, hm⟩
      · exact hrow.toMarks.changed_of_marked hm
      · exact congrArg some (congrArg disk.readStamp hname.symm)
    · rw [recordBuilt_unmarked _ hm]
      refine ⟨rfl, rfl, ?_, Or.inr (by simp [File.isChanged])⟩
      have hstamp : (if r₀.stamp.getD "" ≠ disk.readStamp i.sf.name then
          some (disk.readStamp i.sf.name) else r₀.stamp) = some (disk.readStamp i.sf.name) := by
        split_ifs with hs
        · rfl
        · rw [not_not] at hs
          cases hk : r₀.stamp with
          | none =>
            rw [hk] at hs
            exact absurd hs.symm h.stampNe
          | some n =>
            rw [hk] at hs
            exact congrArg some hs
      exact hstamp.trans (congrArg some (congrArg disk.readStamp hname.symm))

namespace Inv

/-- What has just been built is remembered as such. -/
theorem remember {db : Db} {x : FileId} (h : Inv c db) {b : Bool}
    (hrow : b = true → ∃ r, db.lookup x = some r ∧ BuiltRow c.R c.disk r)
    (hidle : c.building x = none) :
    Inv { c with rebuilt := Function.update c.rebuilt x b } db :=
  { h with
    rows := fun {y r} hr =>
      have hold := h.rows hr
      { changed := hold.changed
        checked := hold.checked
        known := hold.known
        first := hold.first
        name := hold.name
        always := hold.always
        pending := hold.pending
        rebuilt := fun hb => by
          by_cases hy : y = x
          · subst hy
            obtain ⟨r', hr', hbuilt⟩ := hrow (by simpa using hb)
            rw [hr] at hr'
            cases hr'
            exact hbuilt
          · exact hold.rebuilt (by simpa [Function.update_of_ne hy] using hb) }
    held := fun {y sf} hb => by
      have hheld := h.held hb
      have hy : y ≠ x := by
        rintro rfl
        rw [show c.building y = some sf from hb] at hidle
        cases hidle
      exact ⟨⟨hheld.changed, hheld.checked, hheld.known, hheld.first⟩, hheld.id, hheld.notAlways,
        hheld.row, (Function.update_of_ne hy _ _).trans hheld.notRebuilt⟩
    known := fun {y} hb => by
      by_cases hy : y = x
      · subst hy
        obtain ⟨r, hr, -⟩ := hrow (by simpa using hb)
        rw [hr]
        rfl
      · exact h.known (by simpa [Function.update_of_ne hy] using hb) }

theorem finish {disk : Disk} (hinv : Inv c i.db) (h : Recording c i o disk)
    (hkept : ∀ x r, c.rebuilt x = true → ¬x = i.sf.id → i.db.lookup x = some r →
      disk.readStamp r.name = c.disk.readStamp r.name) :
    Inv { c.ended i.sf.id (c.callsAlways i.sf.id) with
      disk
      rebuilt := Function.update c.rebuilt i.sf.id (o.ended = .code 0) } o.db := by
  have hedit : Inv { c with disk } i.db := by
    refine hinv.edit h.absent fun x r hb hr => hkept x r hb ?_ hr
    rintro rfl
    rw [(hinv.held h.held).notRebuilt] at hb
    cases hb
  obtain ⟨db, r, hbase, hw, hdb⟩ := h.commits
  obtain ⟨hmarks, hname⟩ := h.marks hinv hw
  have hbased : Inv { c with disk } db := hedit.base h.remote hbase
  -- from here on the last build is the one that ends
  have hrecorded : Inv { c with
      disk
      calledAlways := Function.update c.calledAlways i.sf.id (c.callsAlways i.sf.id)
      recorded := Function.update c.recorded i.sf.id c.R } db := by
    refine hbased.record i.sf.id fun hc => ?_
    obtain ⟨d, hd, ht, hs, hm, -⟩ := hbased.current hc
    exact ⟨d, hd, ht, hs, hm, trivial⟩
  have hzapped : Inv _ (db.zapDeps2 i.sf.id) := hrecorded.zapDeps2 (by simp)
  have hsaved : Inv { c with
      disk
      calledAlways := Function.update c.calledAlways i.sf.id (c.callsAlways i.sf.id)
      recorded := Function.update c.recorded i.sf.id c.R } o.db := by
    rw [hdb]
    exact hzapped.save_held h.held hw.id_eq hname
      ⟨hmarks.changed, hmarks.checked, hmarks.known, hmarks.first⟩
      (Or.inl (Function.update_self _ _ _))
  refine (hsaved.release i.sf.id).remember (fun hzero => ⟨r, ?_, ?_⟩) (Function.update_self _ _ _)
  · obtain ⟨r₀, hr₀, -⟩ := (hinv.held h.held).row
    have hr₁ : (db.zapDeps2 i.sf.id).lookup i.sf.id = some r₀ := (hbase.lookup _).trans hr₀
    have hname₀ : r₀.name = r.name := by
      obtain ⟨r₂, hr₂, hname₂⟩ := (hinv.held h.held).row
      rw [hr₀] at hr₂
      cases hr₂
      exact hname₂.trans hname.symm
    rw [hdb, Db.lookup_save_self hw.id_eq hr₁, hname₀]
  · exact h.built hinv hw (of_decide_eq_true hzero)

end Inv

variable {s s' : Project}

theorem Event.Fits.inv_attempt {q : Cache.Request} (h : Inv s.toContext s.db)
    (hfits : (Event.attempt q).Fits s) (hname : q.sf.name ≠ ALWAYS) :
    Inv ((Event.attempt q).apply s).toContext ((Event.attempt q).apply s).db := by
  obtain ⟨hR, hsf, hidle, hpool, hcand⟩ := hfits
  have hreads : Inv.Reads s.toContext s.db q := ⟨hR, hsf, hname, hidle, hcand⟩
  rw [Event.apply]
  cases hout : q.scheduleBuildOne false noCalls s.world with
  | none => exact h
  | some out =>
    obtain ⟨o, db, disk⟩ := out
    have hends : q.Ends s.world o db := Cache.Request.scheduleBuildOne_ends hpool hout
    cases hends with
    | skipped => exact h.forget q.sf.id
    | kept hf => exact h.save_kept hreads hf
    | unruled ho hf =>
      have hsaved := h.save_unruled hreads hf
      cases o with
      | recipe => exact absurd rfl ho
      | _ => exact hsaved
    | recipe => exact h.start hreads

theorem RunStep.inv (h : RunStep s s') (hinv : Inv s.toContext s.db) :
    Inv s'.toContext s'.db := by
  obtain ⟨e, hfits, hplain, rfl⟩ := h
  cases e with
  | newRun R => exact hinv.newRun hfits.1 hfits.2
  | edit disk => exact hinv.edit hplain.1 fun x r hb hr => hplain.2 x r hb not_false hr
  | insert id name => exact hinv.insert hfits
  | isdirty f mx => exact hinv.isdirty hfits mx
  | attempt q => exact Event.Fits.inv_attempt hinv hfits hplain
  | cacheHit id =>
    obtain ⟨sf, hb, hcsum, hdeps⟩ := hfits
    rw [Event.apply, hb]
    exact (hinv.hit hb hcsum hdeps _).release id
  | giveUp id =>
    obtain ⟨sf, hb⟩ := Option.isSome_iff_exists.mp hfits
    rw [Event.apply, hb]
    exact (hinv.giveUp hb _).release id
  | ifchange id source =>
    obtain ⟨sf, hb⟩ := Option.isSome_iff_exists.mp hfits.1
    rw [Event.apply]
    cases hf : s.db.byId s.R id with
    | none => exact hinv
    | some f => exact (hinv.addDep hplain id 'm').save_byId hf (hinv.held hb).notAlways
  | ifcreate id source => exact hinv.addDep hplain id 'c'
  | always id =>
    obtain ⟨sf, hb⟩ := Option.isSome_iff_exists.mp hfits
    rw [Event.apply]
    cases hf : s.db.byId s.R id with
    | none => exact hinv
    | some f =>
      cases hr : s.db.byId s.R ALWAYS_ID with
      | none => exact hinv
      | some r =>
        have hne : ALWAYS_ID ≠ f.id := by
          rw [Db.byId_id hf]
          exact Ne.symm (hinv.held hb).notAlways
        have hr' : (s.db.save f).byId s.R ALWAYS_ID = some r := by
          rw [Db.byId, Db.lookup_save_of_ne hne]
          exact hr
        have hsaved := (hinv.save_byId hf (hinv.held hb).notAlways).save_always hr'
        refine hsaved.declareAlways hfits fun r' hlookup => ?_
        have hid : ALWAYS_ID = (redoAlways s.R r).id := (Db.byId_id hr).symm
        rw [Db.lookup_save, if_pos hid] at hlookup
        obtain ⟨-, -, rfl⟩ := Option.map_eq_some_iff.mp hlookup
        rfl
  | stamp id csum =>
    rw [Event.apply]
    cases hf : s.db.byId s.R id with
    | none => exact hinv
    | some f => exact hinv.stamp hfits hf csum
  | finish i scheduled disk =>
    obtain ⟨hheld, hR, hdb, hend, hstamp, hne⟩ := hfits
    obtain ⟨habsent, hkept, hremote, hclears⟩ := hplain
    rw [← hdb] at hinv hclears
    exact hinv.finish ⟨hheld, hR, outcome_commits hend, hstamp, hne, habsent, hremote, hclears⟩
      fun x r hb hx hr => hkept x r hb hx (hdb ▸ hr)
  | die id =>
    refine (hinv.record id fun hc => ?_).release id
    rcases Bool.or_eq_true _ _ ▸ hc with hcalled | hcalls
    · exact hinv.declared hcalled
    · obtain ⟨d, hd, ht, hs, hm, -⟩ := hinv.current hcalls
      exact ⟨d, hd, ht, hs, hm, trivial⟩

theorem Started.inv (h : Started s) (habsent : s.disk.readStamp ALWAYS = STAMP_MISSING) :
    Inv s.toContext s.db := by
  have hdb := h.db
  have hlookup : ∀ {x r}, s.db.lookup x = some r → x = ALWAYS_ID ∧
      r = { id := ALWAYS_ID, name := ALWAYS } := by
    intro x r hr
    rw [hdb] at hr
    by_cases hx : x = ALWAYS_ID
    · subst hx
      cases hr
      exact ⟨rfl, rfl⟩
    · simp [Db.lookup, Ne.symm hx] at hr
  exact
    { positive := h.positive
      absent := habsent
      always := by
        rw [hdb]
        rfl
      rows := by
        intro x r hr
        obtain ⟨rfl, rfl⟩ := hlookup hr
        exact
          { changed := le_of_lt h.positive
            checked := le_of_lt h.positive
            known := by rintro (hc | hc) <;> cases hc
            first := nofun
            name := iff_of_true rfl rfl
            always := fun _ => ⟨rfl, rfl⟩
            pending := fun _ _ hgen => nomatch hgen
            rebuilt := fun hb => by
              rw [h.rebuilt] at hb
              cases hb }
      held := fun hb => by
        rw [h.building] at hb
        cases hb
      known := fun hb => by
        rw [h.rebuilt] at hb
        cases hb
      idle := fun {x} _ => by rw [h.callsAlways]
      declared := fun hc => by
        rw [h.calledAlways] at hc
        cases hc
      current := fun hc => by
        rw [h.callsAlways] at hc
        cases hc
      stamped := by
        rintro ⟨d, hd, -⟩
        rw [hdb] at hd
        cases hd }

theorem Started.run_inv (h : Started s) (habsent : s.disk.readStamp ALWAYS = STAMP_MISSING)
    (hrun : Relation.ReflTransGen RunStep s s') : Inv s'.toContext s'.db := by
  induction hrun with
  | refl => exact h.inv habsent
  | tail _ hstep ih => exact hstep.inv ih

end Redo.Runs
