import Redo.Dirtiness.Blocked

/-! # Targets that wait for `//ALWAYS`

Targets that are not checked yet and wait for one another, and in the end for `//ALWAYS`, are
never found clean.
-/
namespace Redo.Dirtiness
open State

/-- The row of a target that depends on a file of `N`, or is older than a dependency that counts
as changed in this run. -/
structure WaitingRow (R : RunId) (db : Db) (N : FileId → Prop) (x : FileId) (r : File) :
    Prop where
  name : r.name ≠ ALWAYS
  generated : r.isGenerated = true
  override : r.isOverride = false
  dep : ∃ d ∈ db.deps, d.target = x ∧ d.mode = 'm' ∧ ∃ s, db.lookup d.source = some s ∧
    (N d.source ∨ ChangedNow R s ∧ r.lastSeen < R)

/-- The files of `N` have failed, or have no mark of this run and wait or have been modified. -/
def Unsettled (disk : Disk) (R : RunId) (db : Db) (N : FileId → Prop) : Prop :=
  ∀ x r, N x → db.lookup x = some r → r.failedRunid.isSome = true ∨
    r.isChecked R = false ∧ (r.stamp ≠ some (disk.readStamp r.name) ∨ WaitingRow R db N x r)

variable {disk : Disk} {R : RunId} {db : Db} {N : FileId → Prop}

theorem ChangedNow.fromRow_le {r : File} (h : ChangedNow R r) :
    R ≤ (r.fromRow R).changedRunid.getD 0 :=
  h.fromRow.le (r.fromRow_fromRow R)

namespace Unsettled

theorem blocked (h : Unsettled disk R db N) : Blocked disk R db N := by
  intro x r hN hr
  refine (h x r hN hr).imp_right fun ⟨hopen, hwhy⟩ => ⟨hopen, hwhy.imp_right fun hwait => ?_⟩
  obtain ⟨d, hd, htarget, hm, s, hs, hlate⟩ := hwait.dep
  have hblocks : N d.source ∨ r.lastSeen < (s.fromRow R).changedRunid.getD 0 :=
    hlate.imp_right fun ⟨hnow, hold⟩ => lt_of_lt_of_le hold hnow.fromRow_le
  exact ⟨hwait.name, hwait.generated, hwait.override, d, hd, htarget, s, hs, .inr ⟨hm, hblocks⟩⟩

theorem walk (h : Unsettled disk R db N) {preflight : List FileId} (hpre : ∀ x ∈ preflight, ¬N x)
    {f : File} (hf : db.byId R f.id = some f) (mx : RunId) :
    RuleHolds db (Traced disk R db N) (fun x => ¬N x) [] f mx
      (isdirtyDefault preflight disk R db f mx) :=
  h.blocked.walk hpre hf mx

theorem not_clean (h : Unsettled disk R db N) {preflight : List FileId}
    (hpre : ∀ x ∈ preflight, ¬N x) {f : File} (hf : db.byId R f.id = some f) (hN : N f.id)
    (mx : RunId) : (isdirtyDefault preflight disk R db f mx).result ≠ .ok .clean :=
  h.blocked.not_clean hpre hf hN mx

end Unsettled
end Redo.Dirtiness
