import Redo.Library.Relations
import Redo.Library.Utf8
import Redo.Logs.Lines

/-! # Logs in logs

Where a log mentions a target, that target's log is read in place. The names met so far end the
recursion: a name as it was mentioned, and its normal form once its log has been read.
-/
namespace Redo.Logs
open Library Remote Cache Paths

/-- What `redo-log` finds: the rows of `Files` with their ids, and the logs. -/
structure Records where
  process : Process
  files : List (Text × ℕ)
  logs : ℕ → Option (List UInt8)

/-- `File::by_name` without adding a row. -/
def Records.byName (w : Records) (t : Text) : Option ℕ := w.files.lookup (w.process.byName t)

structure Reading where
  already : List Text := []
  /-- The targets whose logs are read, in the order in which that is begun. -/
  opened : List ℕ := []
  /-- What is printed, and from whose log. -/
  out : List (ℕ × Text) := []
deriving DecidableEq, Repr

/-- How a call ends: as it should, with exit code 24, or with an error of `read_line`. -/
inductive End where
  | done
  | unknown
  | notText
deriving DecidableEq, Repr

namespace Reading

def note (r : Reading) (name : Text) : Reading := { r with already := name :: r.already }

def begin (r : Reading) (fid : ℕ) : Reading := { r with opened := r.opened ++ [fid] }

def print (r : Reading) (fid : ℕ) (lines : List Text) : Reading :=
  { r with out := r.out ++ lines.map (fid, ·) }

end Reading

section
variable (o : Options) (w : Records)

/-- The loop over the lines of a log. `read` is the recursive call. -/
def eachLine (read : Text → Reading → Option (End × Reading)) (fid : ℕ) (mydir : Text) :
    List (List UInt8) → Reading → Option (End × Reading)
  | [], r => some (.done, r)
  | bytes :: rest, r =>
    match decode bytes with
    | none => some (.notText, r)
    | some line =>
      let r := r.print fid (shown o w.process r.already mydir line)
      match child o mydir line with
      | none => eachLine read fid mydir rest r
      | some child =>
        if o.recursive then
          match read child r with
          | some (.done, r) => eachLine read fid mydir rest (r.note (normalize child))
          | stopped => stopped
        else eachLine read fid mydir rest (r.note (normalize child))

/-- The end of a log that has no newline is printed as it is. -/
def lastLine (fid : ℕ) (content : List UInt8) : End × Reading → End × Reading
  | (.done, r) =>
    match decode (openLine content) with
    | none => (.notText, r)
    | some line => (.done, r.print fid (if line ≠ [] ∧ o.details then [line] else []))
  | stopped => stopped

/-- `catlog` without `follow`. -/
def catlog : ℕ → Text → Reading → Option (End × Reading)
  | 0, _, _ => none
  | fuel + 1, t, r =>
    if t ∈ r.already then some (.done, r)
    else
      let r := r.note t
      match w.byName t with
      | none => some (.unknown, r)
      | some fid =>
        match w.logs fid with
        | none => some (.done, r)
        | some content =>
          (eachLine o w (catlog fuel) fid (directory t) (wholeLines content) (r.begin fid)).map
            (lastLine o fid content)

/-- The recursion comes to an end, and no log is read twice. -/
def ReadsOnce (t : Text) : Prop :=
  ∃ fuel e r, catlog o w fuel t {} = some (e, r) ∧ r.opened.Nodup

/-! ## A walk over the targets

It goes by targets and not by names, and so it ends. A target met again under a name that is
not noted is a stranger to `redo-log`.
-/

structure Tour where
  names : List Text := []
  gone : List ℕ := []
  strangers : List Text := []
deriving DecidableEq, Repr

def Tour.note (s : Tour) (name : Text) : Tour := { s with names := name :: s.names }

def Tour.leave (s : Tour) (fid : ℕ) : Tour := { s with gone := s.gone ++ [fid] }

/-- The names in a log, up to a line that is no text, and whether there is none such. -/
def mentioned (mydir : Text) : List (List UInt8) → List Text × Bool
  | [] => ([], true)
  | bytes :: rest =>
    match decode bytes with
    | none => ([], false)
    | some line => ((child o mydir line).toList ++ (mentioned mydir rest).1, (mentioned mydir rest).2)

def eachMention (visit : Text → Tour → Option (Bool × Tour)) : List Text → Tour → Option (Bool × Tour)
  | [], s => some (true, s)
  | name :: rest, s =>
    match if o.recursive then visit name s else some (true, s) with
    | some (true, s) => eachMention visit rest (s.note (normalize name))
    | stopped => stopped

def tour : ℕ → Text → Tour → Option (Bool × Tour)
  | 0, _, _ => none
  | fuel + 1, t, s =>
    if t ∈ s.names then some (true, s)
    else
      match w.byName t with
      | none => some (false, s.note t)
      | some fid =>
        if fid ∈ s.gone then some (true, { s with strangers := s.strangers ++ [t] })
        else
          match w.logs fid with
          | none => some (true, s.note t)
          | some content =>
            let log := mentioned o (directory t) (wholeLines content)
            (eachMention o (tour fuel) log.1 ((s.note t).leave fid)).map fun x =>
              (x.1 && log.2 && (decode (openLine content)).isSome, x.2)

def strangers (t : Text) : List Text :=
  ((tour o w (w.files.length + 1) t {}).map fun x => x.2.strangers).getD []

end

variable {o : Options} {w : Records}
variable {t name mydir : Text} {fuel fid : ℕ} {b : Bool} {e : End} {r r' : Reading} {s s' : Tour}

/-! ## The walk ends -/

/-- What a part of the walk leaves: nothing is forgotten. -/
structure Tour.Grows (s s' : Tour) : Prop where
  gone : s.gone <+: s'.gone
  strangers : s.strangers <+: s'.strangers

theorem Tour.Grows.refl (s : Tour) : s.Grows s := ⟨List.prefix_rfl, List.prefix_rfl⟩

theorem Tour.Grows.trans {s'' : Tour} (h : s.Grows s') (h' : s'.Grows s'') : s.Grows s'' :=
  ⟨h.gone.trans h'.gone, h.strangers.trans h'.strangers⟩

theorem eachMention_grows {visit : Text → Tour → Option (Bool × Tour)} {names : List Text}
    (hvisit : ∀ {name s b s'}, visit name s = some (b, s') → s.Grows s')
    (h : eachMention o visit names s = some (b, s')) : s.Grows s' := by
  induction names generalizing s with
  | nil =>
    rw [eachMention] at h
    cases h
    exact .refl _
  | cons name rest ih =>
    rw [eachMention] at h
    split at h
    · next s₁ hfirst =>
      have hstep : s.Grows s₁ := by
        split_ifs at hfirst
        · exact hvisit hfirst
        · cases hfirst
          exact .refl _
      have hnote : s₁.Grows (s₁.note (normalize name)) := ⟨List.prefix_rfl, List.prefix_rfl⟩
      exact (hstep.trans hnote).trans (ih h)
    · next hstop =>
      split_ifs at h
      · exact hvisit h
      · cases h
        exact .refl _

theorem tour_grows (h : tour o w fuel t s = some (b, s')) : s.Grows s' := by
  induction fuel generalizing t s b s' with
  | zero => cases h
  | succ fuel ih =>
    rw [tour] at h
    split_ifs at h with hnoted
    · cases h
      exact .refl _
    · split at h
      · cases h
        exact ⟨List.prefix_rfl, List.prefix_rfl⟩
      · next fid _ =>
        split_ifs at h with hgone
        · cases h
          exact ⟨List.prefix_rfl, List.prefix_append _ _⟩
        · split at h
          · cases h
            exact ⟨List.prefix_rfl, List.prefix_rfl⟩
          · obtain ⟨x, hlog, hx⟩ := Option.map_eq_some_iff.mp h
            cases hx
            have hbegin : s.Grows ((s.note t).leave fid) :=
              ⟨List.prefix_append _ _, List.prefix_rfl⟩
            exact hbegin.trans (eachMention_grows ih hlog)

/-- Every target that is gone has a row, and there is fuel for all others. -/
abbrev Tour.Bounded (w : Records) (fuel : ℕ) (s : Tour) : Prop := Room (w.files.map Prod.snd) fuel s.gone

theorem byName_mem (h : w.byName t = some fid) : fid ∈ w.files.map Prod.snd := by
  rw [Records.byName, List.lookup_eq_some_iff] at h
  obtain ⟨l, l', hfiles, _⟩ := h
  rw [hfiles]
  simp

theorem eachMention_total {visit : Text → Tour → Option (Bool × Tour)} {names : List Text}
    (hvisit : ∀ {name s}, s.Bounded w fuel → ∃ b s', visit name s = some (b, s') ∧ s'.Bounded w fuel)
    (hs : s.Bounded w fuel) : ∃ b s', eachMention o visit names s = some (b, s') ∧ s'.Bounded w fuel := by
  induction names generalizing s with
  | nil => exact ⟨true, s, rfl, hs⟩
  | cons name rest ih =>
    have hfirst : ∃ b s₁, (if o.recursive then visit name s else some (true, s)) = some (b, s₁) ∧
        s₁.Bounded w fuel := by
      split_ifs
      · exact hvisit hs
      · exact ⟨true, s, rfl, hs⟩
    obtain ⟨b, s₁, hfirst, hs₁⟩ := hfirst
    rw [eachMention, hfirst]
    cases b with
    | false => exact ⟨false, s₁, rfl, hs₁⟩
    | true => exact ih hs₁

theorem tour_total (hs : s.Bounded w fuel) :
    ∃ b s', tour o w fuel t s = some (b, s') ∧ s'.Bounded w fuel := by
  induction fuel generalizing t s with
  | zero => exact hs.pos.elim
  | succ fuel ih =>
    rw [tour]
    split_ifs with hnoted
    · exact ⟨true, s, rfl, hs⟩
    · cases hname : w.byName t with
      | none => exact ⟨false, s.note t, rfl, hs⟩
      | some fid =>
        dsimp only
        split_ifs with hgone
        · exact ⟨true, _, rfl, hs⟩
        · cases hlog : w.logs fid with
          | none => exact ⟨true, s.note t, rfl, hs⟩
          | some content =>
            have hbegin : ((s.note t).leave fid).Bounded w fuel :=
              hs.step hgone (byName_mem hname)
            obtain ⟨b, s', heach, hs'⟩ : ∃ b s', eachMention o (tour o w fuel)
                (mentioned o (directory t) (wholeLines content)).1 ((s.note t).leave fid) = some (b, s') ∧
                  s'.Bounded w fuel := eachMention_total ih hbegin
            dsimp only
            rw [heach]
            have hbudget := hs'.budget
            exact ⟨_, s', rfl, hs'.nodup, hs'.subset, by omega⟩

theorem eachMention_mono {visit visit' : Text → Tour → Option (Bool × Tour)} {names : List Text}
    {x : Bool × Tour} (hvisit : ∀ {name s x}, visit name s = some x → visit' name s = some x)
    (h : eachMention o visit names s = some x) : eachMention o visit' names s = some x := by
  induction names generalizing s with
  | nil => exact h
  | cons name rest ih =>
    have hfirst : ∀ {y}, (if o.recursive then visit name s else some (true, s)) = some y →
        (if o.recursive then visit' name s else some (true, s)) = some y := by
      intro y hy
      split_ifs at hy ⊢
      · exact hvisit hy
      · exact hy
    rw [eachMention] at h ⊢
    split at h
    · next s₁ hsome =>
      rw [hfirst hsome]
      exact ih h
    · next hstop =>
      obtain ⟨b, s₁⟩ := x
      rw [hfirst h]
      cases b with
      | false => rfl
      | true => exact absurd h (hstop s₁)

theorem tour_mono {x : Bool × Tour} (h : tour o w fuel t s = some x) :
    tour o w (fuel + 1) t s = some x := by
  induction fuel generalizing t s x with
  | zero => cases h
  | succ fuel ih =>
    rw [tour] at h ⊢
    split_ifs at h ⊢ with hnoted
    · exact h
    · split at h
      · exact h
      · split_ifs at h ⊢ with hgone
        · exact h
        · split at h
          · exact h
          · obtain ⟨y, hlog, hy⟩ := Option.map_eq_some_iff.mp h
            dsimp only
            rw [eachMention_mono ih hlog, Option.map_some, hy]

theorem tour_le {x : Bool × Tour} {fuel' : ℕ} (hle : fuel ≤ fuel') (h : tour o w fuel t s = some x) :
    tour o w fuel' t s = some x := by
  induction hle with
  | refl => exact h
  | step _ ih => exact tour_mono ih

/-! ## The walk and the recursion -/

/-- A state of the recursion as one of the walk. -/
def Reading.walked (r : Reading) (strangers : List Text) : Tour := ⟨r.already, r.opened, strangers⟩

@[simp] theorem Reading.walked_print (r : Reading) (fid : ℕ) (lines met : List Text) :
    (r.print fid lines).walked met = r.walked met := rfl

variable {met : List Text} {lines : List (List UInt8)}

theorem eachLine_of_eachMention {read : Text → Reading → Option (End × Reading)}
    {visit : Text → Tour → Option (Bool × Tour)}
    (hgrows : ∀ {name s b s'}, visit name s = some (b, s') → s.Grows s')
    (hread : ∀ {name r b s'}, visit name (r.walked met) = some (b, s') → s'.strangers = met →
      ∃ e r', read name r = some (e, r') ∧ s' = r'.walked met ∧ (b = true ↔ e = .done))
    (h : eachMention o visit (mentioned o mydir lines).1 (r.walked met) = some (b, s'))
    (hmet : s'.strangers = met) :
    ∃ e r', eachLine o w read fid mydir lines r = some (e, r') ∧ s' = r'.walked met ∧
      (b = true ∧ (mentioned o mydir lines).2 = true ↔ e = .done) := by
  induction lines generalizing r with
  | nil =>
    cases h
    exact ⟨.done, r, rfl, rfl, by simp [mentioned]⟩
  | cons bytes rest ih =>
    rw [mentioned] at h ⊢
    rw [eachLine]
    cases hdecode : decode bytes with
    | none =>
      rw [hdecode] at h
      cases h
      exact ⟨.notText, r, rfl, rfl, by simp⟩
    | some line =>
      rw [hdecode] at h
      dsimp only at h ⊢
      cases hchild : child o mydir line with
      | none =>
        rw [hchild] at h
        exact ih (r := r.print fid _) h
      | some name =>
        rw [hchild] at h
        change eachMention o visit (name :: (mentioned o mydir rest).1) _ = _ at h
        rw [eachMention] at h
        dsimp only
        by_cases hrec : o.recursive = true
        · rw [if_pos hrec] at h ⊢
          split at h
          · next s₁ hfirst =>
            have hmid : s₁.strangers = met := by
              have hbefore := (hgrows hfirst).strangers
              have hafter := (eachMention_grows hgrows h).strangers
              rw [hmet] at hafter
              exact hafter.eq_of_length (le_antisymm hafter.length_le hbefore.length_le)
            obtain ⟨e, r₁, hr₁, rfl, he⟩ := hread (r := r.print fid _) hfirst hmid
            rw [hr₁, he.mp rfl]
            exact ih (r := r₁.note (normalize name)) h
          · next hstop =>
            have hb : b = false := by
              cases b with
              | false => rfl
              | true => exact absurd h (hstop s')
            obtain ⟨e, r₁, hr₁, hs', he⟩ := hread (r := r.print fid _) h hmet
            have hne : e ≠ .done := fun hdone => by
              rw [he.mpr hdone] at hb
              cases hb
            refine ⟨e, r₁, ?_, hs', by simp [hb, hne]⟩
            rw [hr₁]
            cases e with
            | done => exact absurd rfl hne
            | unknown => rfl
            | notText => rfl
        · rw [if_neg hrec] at h ⊢
          exact ih (r := (r.print fid _).note (normalize name)) h

variable (met) in
theorem lastLine_walked (fid : ℕ) (content : List UInt8) (x : End × Reading) :
    (lastLine o fid content x).2.walked met = x.2.walked met := by
  obtain ⟨e, r⟩ := x
  cases e with
  | done =>
    rw [lastLine]
    cases decode (openLine content) <;> rfl
  | unknown => rfl
  | notText => rfl

theorem lastLine_done (fid : ℕ) (content : List UInt8) (x : End × Reading) :
    (lastLine o fid content x).1 = .done ↔ x.1 = .done ∧ (decode (openLine content)).isSome = true := by
  obtain ⟨e, r⟩ := x
  cases e with
  | done =>
    rw [lastLine]
    cases decode (openLine content) <;> simp
  | unknown => simp [lastLine]
  | notText => simp [lastLine]

variable (met) in
theorem catlog_of_tour (h : tour o w fuel t (r.walked met) = some (b, s')) (hmet : s'.strangers = met) :
    ∃ e r', catlog o w fuel t r = some (e, r') ∧ s' = r'.walked met ∧ (b = true ↔ e = .done) := by
  induction fuel generalizing t r b s' with
  | zero => cases h
  | succ fuel ih =>
    rw [tour] at h
    rw [catlog]
    change (if t ∈ r.already then _ else _) = _ at h
    split_ifs at h ⊢ with hnoted
    · cases h
      exact ⟨.done, r, rfl, rfl, by simp⟩
    · cases hname : w.byName t with
      | none =>
        rw [hname] at h
        cases h
        exact ⟨.unknown, r.note t, rfl, rfl, by simp⟩
      | some fid =>
        rw [hname] at h
        dsimp only at h ⊢
        split_ifs at h with hgone
        · cases h
          simp [Reading.walked] at hmet
        · cases hlog : w.logs fid with
          | none =>
            rw [hlog] at h
            cases h
            exact ⟨.done, r.note t, rfl, rfl, by simp⟩
          | some content =>
            rw [hlog] at h
            dsimp only at h ⊢
            obtain ⟨⟨b₁, s₁⟩, heach, hs₁⟩ := Option.map_eq_some_iff.mp h
            cases hs₁
            obtain ⟨e, r₁, hr₁, rfl, he⟩ :
                ∃ e r', eachLine o w (catlog o w fuel) fid (directory t) (wholeLines content)
                  ((r.note t).begin fid) = some (e, r') ∧ s₁ = r'.walked met ∧ _ :=
              eachLine_of_eachMention tour_grows ih heach hmet
            rw [hr₁]
            have hwalked := lastLine_walked (o := o) met fid content (e, r₁)
            have hdone := lastLine_done (o := o) fid content (e, r₁)
            refine ⟨(lastLine o fid content (e, r₁)).1, (lastLine o fid content (e, r₁)).2, rfl, hwalked.symm, ?_⟩
            rw [hdone, ← he, Bool.and_eq_true, Bool.and_eq_true]

/-- Only logs that there are have been opened. -/
def Reading.Logged (w : Records) (r : Reading) : Prop := ∀ fid ∈ r.opened, (w.logs fid).isSome = true

structure Reading.Later (w : Records) (r r' : Reading) : Prop where
  opened : r.opened <+: r'.opened
  logged : r.Logged w → r'.Logged w

theorem Reading.Later.refl (r : Reading) : r.Later w r := ⟨List.prefix_rfl, id⟩

theorem Reading.Later.trans {r'' : Reading} (h : r.Later w r') (h' : r'.Later w r'') : r.Later w r'' :=
  ⟨h.opened.trans h'.opened, h'.logged ∘ h.logged⟩

theorem Reading.Later.note (h : r.Later w r') (name : Text) : r.Later w (r'.note name) := ⟨h.opened, h.logged⟩

theorem Reading.Later.print (h : r.Later w r') (fid : ℕ) (lines : List Text) :
    r.Later w (r'.print fid lines) := ⟨h.opened, h.logged⟩

theorem Reading.Later.begin {content : List UInt8} (h : r.Later w r') (hlog : w.logs fid = some content) :
    r.Later w ((r'.note t).begin fid) := by
  constructor
  · exact h.opened.trans (List.prefix_append _ _)
  · intro hr f hf
    rcases List.mem_append.mp hf with hf | hf
    · exact h.logged hr f hf
    · rw [List.mem_singleton.mp hf, hlog]
      rfl

theorem eachLine_later {read : Text → Reading → Option (End × Reading)}
    (hread : ∀ {name r e r'}, read name r = some (e, r') → r.Later w r')
    (h : eachLine o w read fid mydir lines r = some (e, r')) : r.Later w r' := by
  induction lines generalizing r with
  | nil =>
    cases h
    exact .refl _
  | cons bytes rest ih =>
    rw [eachLine] at h
    split at h
    · cases h
      exact .refl _
    · have hprint := (Reading.Later.refl (w := w) r).print fid
      dsimp only at h
      split at h
      · exact (hprint _).trans (ih h)
      · split_ifs at h
        · split at h
          · next hfirst => exact ((hprint _).trans ((hread hfirst).note _)).trans (ih h)
          · exact (hprint _).trans (hread h)
        · exact ((hprint _).note _).trans (ih h)

theorem lastLine_later (fid : ℕ) (content : List UInt8) (x : End × Reading) :
    x.2.Later w (lastLine o fid content x).2 := by
  obtain ⟨e, r⟩ := x
  cases e with
  | done =>
    rw [lastLine]
    cases decode (openLine content) with
    | none => exact .refl r
    | some line => exact (Reading.Later.refl r).print _ _
  | unknown => exact .refl r
  | notText => exact .refl r

theorem catlog_later (h : catlog o w fuel t r = some (e, r')) : r.Later w r' := by
  induction fuel generalizing t r e r' with
  | zero => cases h
  | succ fuel ih =>
    rw [catlog] at h
    split_ifs at h
    · cases h
      exact .refl _
    · dsimp only at h
      split at h
      · cases h
        exact (Reading.Later.refl r).note t
      · next fid _ =>
        split at h
        · cases h
          exact (Reading.Later.refl r).note t
        · next content hlog =>
          obtain ⟨x, heach, hx⟩ := Option.map_eq_some_iff.mp h
          have hbegin : r.Later w ((r.note t).begin fid) := (Reading.Later.refl r).begin hlog
          have hlast := lastLine_later (o := o) (w := w) fid content x
          rw [hx] at hlast
          exact (hbegin.trans (eachLine_later ih heach)).trans hlast

theorem eachMention_of_eachLine {read : Text → Reading → Option (End × Reading)}
    {visit : Text → Tour → Option (Bool × Tour)}
    (h : eachLine o w read fid mydir lines r = some (e, r'))
    (hlater : ∀ {name r e r'}, read name r = some (e, r') → r.Later w r')
    (hvisit : ∀ {name r e r'}, read name r = some (e, r') → r.Logged w → r'.opened.Nodup →
      ∃ b, visit name (r.walked met) = some (b, r'.walked met) ∧ (b = true ↔ e = .done))
    (hr : r.Logged w) (hnodup : r'.opened.Nodup) :
    ∃ b, eachMention o visit (mentioned o mydir lines).1 (r.walked met) = some (b, r'.walked met) ∧
      (b = true ∧ (mentioned o mydir lines).2 = true ↔ e = .done) := by
  induction lines generalizing r with
  | nil =>
    cases h
    exact ⟨true, rfl, by simp [mentioned]⟩
  | cons bytes rest ih =>
    rw [mentioned]
    rw [eachLine] at h
    cases hdecode : decode bytes with
    | none =>
      rw [hdecode] at h
      cases h
      exact ⟨true, rfl, by simp⟩
    | some line =>
      rw [hdecode] at h
      dsimp only at h ⊢
      cases hchild : child o mydir line with
      | none =>
        rw [hchild] at h
        exact ih (r := r.print fid _) h hr
      | some name =>
        rw [hchild] at h
        change ∃ b, eachMention o visit (name :: (mentioned o mydir rest).1) _ = _ ∧ _
        rw [eachMention]
        dsimp only at h
        by_cases hrec : o.recursive = true
        · rw [if_pos hrec] at h ⊢
          split at h
          · next r₁ hfirst =>
            have hlogged : (r₁.note (normalize name)).Logged w := (hlater hfirst).logged hr
            have hmid : r₁.opened.Nodup := hnodup.sublist (eachLine_later hlater h).opened.sublist
            obtain ⟨b, hv, hb⟩ := hvisit hfirst hr hmid
            rw [Reading.walked_print] at hv
            rw [hv, hb.mpr rfl]
            exact ih (r := r₁.note (normalize name)) h hlogged
          · next hstop =>
            obtain ⟨b, hv, hb⟩ := hvisit h hr hnodup
            have hne : e ≠ .done := fun hdone => hstop r' (hdone ▸ h)
            have hfalse : b = false := by
              rw [← Bool.not_eq_true, hb]
              exact hne
            refine ⟨b, ?_, by simp [hfalse, hne]⟩
            rw [Reading.walked_print] at hv
            rw [hv, hfalse]
        · rw [if_neg hrec] at h ⊢
          exact ih (r := (r.print fid _).note (normalize name)) h hr

variable (met) in
theorem tour_of_catlog (h : catlog o w fuel t r = some (e, r')) (hr : r.Logged w)
    (hnodup : r'.opened.Nodup) :
    ∃ b, tour o w fuel t (r.walked met) = some (b, r'.walked met) ∧ (b = true ↔ e = .done) := by
  induction fuel generalizing t r e r' with
  | zero => cases h
  | succ fuel ih =>
    rw [catlog] at h
    rw [tour]
    change ∃ b, (if t ∈ r.already then _ else _) = _ ∧ _
    split_ifs at h ⊢ with hnoted
    · cases h
      exact ⟨true, rfl, by simp⟩
    · cases hname : w.byName t with
      | none =>
        rw [hname] at h
        cases h
        exact ⟨false, rfl, by simp⟩
      | some fid =>
        rw [hname] at h
        dsimp only at h ⊢
        cases hlog : w.logs fid with
        | none =>
          rw [hlog] at h
          cases h
          have hgone : fid ∉ (r.walked met).gone := fun hmem => by
            have hsome := hr fid hmem
            rw [hlog] at hsome
            cases hsome
          exact ⟨true, if_neg hgone, by simp⟩
        | some content =>
          rw [hlog] at h
          dsimp only at h ⊢
          obtain ⟨⟨e₁, r₁⟩, heach, hx⟩ := Option.map_eq_some_iff.mp h
          have hlast := lastLine_later (o := o) (w := w) fid content (e₁, r₁)
          have hwalked := lastLine_walked (o := o) met fid content (e₁, r₁)
          have hdone := lastLine_done (o := o) fid content (e₁, r₁)
          rw [hx] at hlast hwalked hdone
          have hmid : r₁.opened.Nodup := hnodup.sublist hlast.opened.sublist
          have hbegun := hmid.sublist (eachLine_later catlog_later heach).opened.sublist
          have hgone : fid ∉ r.opened := by
            have hpair := (List.nodup_append.mp hbegun).2.2
            exact fun hmem => hpair fid hmem fid (List.mem_singleton_self fid) rfl
          have hlogged : ((r.note t).begin fid).Logged w :=
            ((Reading.Later.refl r).begin hlog).logged hr
          obtain ⟨b, hb, he⟩ := eachMention_of_eachLine heach catlog_later ih hlogged hmid
          refine ⟨b && (mentioned o (directory t) (wholeLines content)).2 &&
            (decode (openLine content)).isSome, ?_, ?_⟩
          · rw [if_neg (show fid ∉ (r.walked met).gone from hgone)]
            change Option.map _ (eachMention o (tour o w fuel) _ (((r.note t).begin fid).walked met)) = _
            rw [hb, Option.map_some, hwalked]
          · rw [Bool.and_eq_true, Bool.and_eq_true, hdone, he]

/-- `redo-log -r` ends and reads no log twice exactly when the walk over the targets, from the
requested one, meets no stranger. -/
theorem readsOnce_iff (o : Options) (w : Records) (t : Text) :
    ReadsOnce o w t ↔ strangers o w t = [] := by
  have hstart : Tour.Bounded w (w.files.length + 1) {} := by
    have hroom := Room.start (w.files.map Prod.snd)
    rwa [List.length_map] at hroom
  obtain ⟨b, s, htour, hs⟩ := tour_total (o := o) (t := t) hstart
  have hstrangers : strangers o w t = s.strangers := by
    rw [strangers, htour]
    rfl
  rw [hstrangers]
  constructor
  · rintro ⟨fuel, e, r, hcatlog, hnodup⟩
    have hempty : Reading.Logged w {} := fun fid hfid => absurd hfid List.not_mem_nil
    obtain ⟨b', hwalk, _⟩ := tour_of_catlog [] hcatlog hempty hnodup
    have hlong := tour_le (Nat.le_max_left fuel (w.files.length + 1)) hwalk
    have hlong' := tour_le (Nat.le_max_right fuel (w.files.length + 1)) htour
    rw [show ({} : Tour) = ({} : Reading).walked [] from rfl, hlong] at hlong'
    cases hlong'
    rfl
  · intro hnone
    obtain ⟨e, r, hcatlog, hr, _⟩ := catlog_of_tour (r := {}) [] htour hnone
    refine ⟨_, e, r, hcatlog, ?_⟩
    have hnodup := hs.nodup
    rw [hr] at hnodup
    exact hnodup

end Redo.Logs
