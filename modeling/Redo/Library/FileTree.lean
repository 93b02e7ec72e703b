import Mathlib.Data.List.Infix
import Mathlib.Logic.Function.Basic
import Redo.Library.Scripts

/-! # File trees with symbolic links

The operations of a kernel are programs that look at entries and change them. The way
along a path follows the links that it meets, wherever they lead.
-/
namespace Redo.Library

inductive Hop (ν : Type)
  | here
  | slash
  | up
  | down (name : ν)
deriving DecidableEq, Repr

inductive Node (ν β : Type)
  | file (content : List β) (mode : ℕ)
  | dir
  | link (fromRoot : Bool) (target : List (Hop ν))
deriving DecidableEq, Repr

def Node.isDir {ν β : Type} : Node ν β → Bool
  | dir => true
  | _ => false

/-- Entries under their way from the root; `names` has all that exist. -/
structure Tree (ν β : Type) where
  node : List ν → Option (Node ν β)
  names : List (List ν)
  complete : ∀ p, (node p).isSome → p ∈ names

/-- What a kernel looks at and changes. -/
inductive Access (ν β : Type)
  | look (p : List ν)
  | put (p : List ν) (n : Node ν β)
  | isEmpty (p : List ν)
  | move (a b : List ν)
  | clear (p : List ν)

abbrev Access.Answer {ν β : Type} : Access ν β → Type
  | look _ => Option (Node ν β)
  | put _ _ => Unit
  | isEmpty _ => Bool
  | move _ _ => Unit
  | clear _ => Unit

/-- An entry, or an entry and all below it. -/
inductive Area (ν : Type)
  | entry (p : List ν)
  | below (p : List ν)
deriving DecidableEq, Repr

def Area.covers {ν : Type} : Area ν → List ν → Prop
  | entry p, q => q = p
  | below p, q => p <+: q

def Area.changes {ν : Type} : Area ν → List ν → Prop
  | entry _, _ => False
  | below p, q => p <+: q

section
variable {ν β : Type} [DecidableEq ν]

namespace Tree

def put (t : Tree ν β) (p : List ν) (n : Node ν β) : Tree ν β where
  node := Function.update t.node p (some n)
  names := p :: t.names
  complete := by
    intro q hq
    by_cases h : q = p
    · exact List.mem_cons.mpr (.inl h)
    · rw [Function.update_of_ne h] at hq
      exact List.mem_cons_of_mem _ (t.complete q hq)

def ofEntries (entries : List (List ν × Node ν β)) : Tree ν β :=
  entries.foldr (fun entry t => t.put entry.1 entry.2)
    { node := fun _ => none, names := [], complete := fun _ h => by cases h }

def isEmpty (t : Tree ν β) (p : List ν) : Bool :=
  t.names.all fun q => !decide (p <+: q ∧ q ≠ p ∧ (t.node q).isSome)

def move (t : Tree ν β) (a b : List ν) : Tree ν β where
  node q :=
    if b <+: q then t.node (a ++ q.drop b.length) else if a <+: q then none else t.node q
  names := t.names ++ t.names.map fun q => b ++ q.drop a.length
  complete := by
    intro q hq
    split at hq
    · next h =>
      obtain ⟨rest, rfl⟩ := h
      rw [List.drop_left] at hq
      refine List.mem_append_right _ (List.mem_map.mpr ⟨_, t.complete _ hq, ?_⟩)
      rw [List.drop_left]
    · split at hq
      · cases hq
      · exact List.mem_append_left _ (t.complete q hq)

def clear (t : Tree ν β) (p : List ν) : Tree ν β where
  node q := if p <+: q then none else t.node q
  names := t.names
  complete := by
    intro q hq
    split at hq
    · cases hq
    · exact t.complete q hq

theorem isEmpty_iff (t : Tree ν β) (p : List ν) :
    t.isEmpty p ↔ ∀ q, p <+: q → q ≠ p → t.node q = none := by
  simp only [isEmpty, List.all_eq_true, Bool.not_eq_true', decide_eq_false_iff_not]
  constructor
  · intro h q hp hne
    by_contra hsome
    have hq := Option.isSome_iff_ne_none.mpr hsome
    exact h q (t.complete q hq) ⟨hp, hne, hq⟩
  · intro h q _ hq
    rw [h q hq.1 hq.2.1] at hq
    exact absurd hq.2.2 (by simp)

def access : (a : Access ν β) → Tree ν β → Outcome (Tree ν β) (Area ν) a.Answer
  | .look p, t => ⟨t.node p, t, [.entry p]⟩
  | .put p n, t => ⟨(), t.put p n, [.below p]⟩
  | .isEmpty p, t => ⟨t.isEmpty p, t, [.below p]⟩
  | .move a b, t => ⟨(), t.move a b, [.below a, .below b]⟩
  | .clear p, t => ⟨(), t.clear p, [.below p]⟩

@[simp] theorem node_put (t : Tree ν β) (p : List ν) (n : Node ν β) :
    (t.put p n).node = Function.update t.node p (some n) := rfl

@[simp] theorem node_move (t : Tree ν β) (a b q : List ν) :
    (t.move a b).node q = if b <+: q then t.node (a ++ q.drop b.length)
      else if a <+: q then none else t.node q := rfl

@[simp] theorem node_clear (t : Tree ν β) (p q : List ν) :
    (t.clear p).node q = if p <+: q then none else t.node q := rfl

/-- An entry that was only looked at is not changed. -/
theorem access_frames (a : Access ν β) :
    Frames Area.changes Tree.node (access a) := by
  intro t q h
  cases a with
  | look p => rfl
  | isEmpty p => rfl
  | put p n =>
    have hp : ¬p <+: q := h (.below p) (List.mem_singleton.mpr rfl)
    have hne : q ≠ p := by
      rintro rfl
      exact hp (List.prefix_refl q)
    simp [access, hne]
  | clear p =>
    have hp : ¬p <+: q := h (.below p) (List.mem_singleton.mpr rfl)
    simp [access, hp]
  | move a b =>
    have ha : ¬a <+: q := h (.below a) (by simp [access])
    have hb : ¬b <+: q := h (.below b) (by simp [access])
    simp [access, ha, hb]

theorem access_after (a : Access ν β) {t t' : Tree ν β}
    (h : Agree Area.covers node (access a t).touched t t') :
    Agree Area.covers node (access a t).touched (access a t).after (access a t').after := by
  cases a with
  | look p => exact h
  | isEmpty p => exact h
  | put p n =>
    intro area harea q hq
    have hsame := h area harea q hq
    simp only [access, node_put, Function.update_apply]
    split
    · rfl
    · exact hsame
  | clear p =>
    intro area harea q hq
    have hsame := h area harea q hq
    simp only [access, node_clear]
    split
    · rfl
    · exact hsame
  | move a b =>
    intro area harea q hq
    have hsame := h area harea q hq
    have hbelow := h (.below a) (by simp [access])
    simp only [access, node_move]
    split
    · exact hbelow _ (List.prefix_append _ _)
    · split
      · rfl
      · exact hsame

/-- What an access answers and changes depends on the areas that it touches. -/
theorem access_local (a : Access ν β) : Local Area.covers node (access a) where
  frame := by
    intro t q h
    apply access_frames a t q
    intro area harea hq
    cases area with
    | entry p => exact hq
    | below p => exact h _ harea hq
  answer := by
    intro t t' h
    cases a with
    | look p =>
      exact (h (.entry p) (List.mem_singleton.mpr rfl) p rfl).symm
    | isEmpty p =>
      have hbelow := h (.below p) (List.mem_singleton.mpr rfl)
      have hiff : t'.isEmpty p = true ↔ t.isEmpty p = true := by
        rw [isEmpty_iff, isEmpty_iff]
        constructor
        · intro he q hp hne
          rw [hbelow q hp]
          exact he q hp hne
        · intro he q hp hne
          rw [← hbelow q hp]
          exact he q hp hne
      exact Bool.eq_iff_iff.mpr hiff
    | put p n => rfl
    | clear p => rfl
    | move a b => rfl
  touched := by
    intro t t' h
    cases a <;> rfl
  after _ _ h := access_after a h

end Tree

abbrev Kernel (ν β α : Type) := Script (Access ν β) Access.Answer α

/-- What `stat` tells of a file or a directory. -/
inductive Kind
  | dir
  | file (size mode : ℕ)
deriving DecidableEq, Repr

namespace Kernel
open Script

def look (p : List ν) : Kernel ν β (Option (Node ν β)) := Script.perform (Access.look p)

def put (p : List ν) (n : Node ν β) : Kernel ν β Unit := Script.perform (Access.put p n)

def isEmpty (p : List ν) : Kernel ν β Bool := Script.perform (Access.isEmpty p)

def move (a b : List ν) : Kernel ν β Unit := Script.perform (Access.move a b)

def clear (p : List ν) : Kernel ν β Unit := Script.perform (Access.clear p)

def isDir (p : List ν) : Kernel ν β Bool := do
  return (← look p).any Node.isDir

/-- The way along a path; `follow` goes on behind a link. -/
def wayWith (follow : List ν → List (Hop ν) → Kernel ν β (Option (List ν))) :
    List ν → List (Hop ν) → Kernel ν β (Option (List ν))
  | here, [] => pure (some here)
  | here, hop :: rest => do
    match ← isDir here with
    | false => pure none
    | true =>
      match hop with
      | .here => wayWith follow here rest
      | .slash => wayWith follow here rest
      | .up => wayWith follow here.dropLast rest
      | .down name =>
        match ← look (here ++ [name]) with
        | some (.link fromRoot target) => follow (if fromRoot then [] else here) (target ++ rest)
        | _ => wayWith follow (here ++ [name]) rest

def way : ℕ → List ν → List (Hop ν) → Kernel ν β (Option (List ν))
  | 0 => wayWith fun _ _ => pure none
  | links + 1 => wayWith (way links)

/-- All links are followed, at most 40. -/
def resolve (path : List (Hop ν)) : Kernel ν β (Option (List ν)) := way 40 [] path

/-- The last name of a path, and whether a slash stands behind it. -/
def splitLast (path : List (Hop ν)) : Option (List (Hop ν) × ν × Bool) :=
  match path.reverse with
  | .down name :: front => some (front.reverse, name, false)
  | .slash :: .down name :: front => some (front.reverse, name, true)
  | _ => none

/-- The place that a path names in its directory; a link there is not followed. -/
def place (path : List (Hop ν)) : Kernel ν β (Option (List ν × Bool)) :=
  match splitLast path with
  | none => pure none
  | some (front, name, slash) => do
    match ← resolve front with
    | none => pure none
    | some dir =>
      match ← isDir dir with
      | false => pure none
      | true => pure (some (dir ++ [name], slash))

def lookAt (path : List (Hop ν)) : Kernel ν β (Option (Node ν β)) := do
  match ← resolve path with
  | none => pure none
  | some p => look p

def metadata (path : List (Hop ν)) : Kernel ν β (Option Kind) := do
  match ← lookAt path with
  | some .dir => pure (some .dir)
  | some (.file content mode) => pure (some (.file content.length mode))
  | _ => pure none

def read (path : List (Hop ν)) : Kernel ν β (Option (List β)) := do
  match ← lookAt path with
  | some (.file content _) => pure (some content)
  | _ => pure none

/-- Opens for writing; an existing file is emptied and keeps its mode. -/
def create (mode : ℕ) (path : List (Hop ν)) : Kernel ν β Bool := do
  match ← resolve path with
  | none => pure false
  | some p =>
    match ← look p with
    | some (.file _ old) => do
      put p (.file [] old)
      pure true
    | none => do
      put p (.file [] mode)
      pure true
    | _ => pure false

def append (path : List (Hop ν)) (more : List β) : Kernel ν β Bool := do
  match ← resolve path with
  | none => pure false
  | some p =>
    match ← look p with
    | some (.file content mode) => do
      put p (.file (content ++ more) mode)
      pure true
    | _ => pure false

def setMode (path : List (Hop ν)) (mode : ℕ) : Kernel ν β Bool := do
  match ← resolve path with
  | none => pure false
  | some p =>
    match ← look p with
    | some (.file content _) => do
      put p (.file content mode)
      pure true
    | _ => pure false

def mkdir (path : List (Hop ν)) : Kernel ν β Bool := do
  match ← place path with
  | none => pure false
  | some (p, _) =>
    match ← look p with
    | none => do
      put p .dir
      pure true
    | _ => pure false

def unlink (path : List (Hop ν)) : Kernel ν β Bool := do
  match ← place path with
  | some (p, false) =>
    match ← look p with
    | none => pure false
    | some .dir => pure false
    | _ => do
      clear p
      pure true
  | _ => pure false

def removeAll (path : List (Hop ν)) : Kernel ν β Bool := do
  match ← place path with
  | none => pure false
  | some (p, _) =>
    match ← look p with
    | some .dir => do
      clear p
      pure true
    | _ => pure false

/-- Whether `b` can be replaced by what is at `a`. -/
def replaces (a b : List ν) (isDir : Bool) : Option (Node ν β) → Kernel ν β Bool
  | none => pure (!decide (a <+: b))
  | some .dir => if isDir && !decide (a <+: b) then isEmpty b else pure false
  | _ => pure (!isDir)

def rename (source target : List (Hop ν)) : Kernel ν β Bool := do
  match ← place source, ← place target with
  | some (a, slash), some (b, slash') =>
    match ← look a with
    | none => pure false
    | some node =>
      let isDir := node.isDir
      if (slash || slash') && !isDir then pure false
      else if a = b then pure true
      else
        match ← replaces a b isDir (← look b) with
        | false => pure false
        | true => do
          move a b
          pure true
  | _, _ => pure false

def on {α : Type} (k : Kernel ν β α) (t : Tree ν β) : Outcome (Tree ν β) (Area ν) α :=
  k.run Tree.access t

theorem on_frames {α : Type} (k : Kernel ν β α) : Frames Area.changes Tree.node k.on :=
  Script.run_frames Tree.access_frames k

theorem on_local {α : Type} (k : Kernel ν β α) : Local Area.covers Tree.node k.on :=
  Script.run_local Tree.access_local k

end Kernel

/-- No link stands on the way to `p`, nor at `p`. -/
def Tree.Plain (t : Tree ν β) (p : List ν) : Prop :=
  ∀ q, q <+: p → ∀ fromRoot target, t.node q ≠ some (.link fromRoot target)

/-- The entries on the way from `here` are directories. -/
def Tree.DirsOn (t : Tree ν β) (here rest : List ν) : Prop :=
  ∀ k < rest.length, t.node (here ++ rest.take k) = some .dir

omit [DecidableEq ν] in
theorem Tree.dirsOn_cons {t : Tree ν β} {here rest : List ν} {name : ν} :
    t.DirsOn here (name :: rest) ↔ t.node here = some .dir ∧ t.DirsOn (here ++ [name]) rest := by
  constructor
  · intro h
    constructor
    · simpa using h 0 (by simp)
    · intro k hk
      simpa using h (k + 1) (by simpa using hk)
  · rintro ⟨hhere, hrest⟩ k hk
    cases k with
    | zero => simpa using hhere
    | succ k => simpa using hrest k (by simpa using hk)

omit [DecidableEq ν] in
theorem Node.any_isDir {n : Option (Node ν β)} : n.any Node.isDir = true ↔ n = some .dir := by
  cases n with
  | none => simp
  | some n => cases n <;> simp [Node.isDir]

namespace Kernel

@[simp] theorem on_bind {α γ : Type} (k : Kernel ν β α) (f : α → Kernel ν β γ) (t : Tree ν β) :
    on (k >>= f) t =
      ⟨((f (k.on t).answer).on (k.on t).after).answer,
        ((f (k.on t).answer).on (k.on t).after).after,
        (k.on t).touched ++ ((f (k.on t).answer).on (k.on t).after).touched⟩ :=
  Script.run_bind k f t

@[simp] theorem on_pure {α : Type} (a : α) (t : Tree ν β) :
    on (pure a : Kernel ν β α) t = ⟨a, t, []⟩ := rfl

@[simp] theorem on_done {α : Type} (a : α) (t : Tree ν β) :
    on (.done a : Kernel ν β α) t = ⟨a, t, []⟩ := rfl

@[simp] theorem look_on (p : List ν) (t : Tree ν β) : (look p).on t = ⟨t.node p, t, [.entry p]⟩ :=
  rfl

@[simp] theorem put_on (p : List ν) (n : Node ν β) (t : Tree ν β) :
    (put p n).on t = ⟨(), t.put p n, [.below p]⟩ := rfl

@[simp] theorem isEmpty_on (p : List ν) (t : Tree ν β) :
    (isEmpty p).on t = ⟨t.isEmpty p, t, [.below p]⟩ := rfl

@[simp] theorem move_on (a b : List ν) (t : Tree ν β) :
    (move a b).on t = ⟨(), t.move a b, [.below a, .below b]⟩ := rfl

@[simp] theorem clear_on (p : List ν) (t : Tree ν β) :
    (clear p).on t = ⟨(), t.clear p, [.below p]⟩ := rfl

@[simp] theorem isDir_on (p : List ν) (t : Tree ν β) :
    (isDir p).on t = ⟨(t.node p).any Node.isDir, t, [.entry p]⟩ := rfl

theorem wayWith_of_not_dir (follow : List ν → List (Hop ν) → Kernel ν β (Option (List ν)))
    {t : Tree ν β} {here : List ν} (hop : Hop ν) (rest : List (Hop ν))
    (hdir : t.node here ≠ some .dir) :
    (wayWith follow here (hop :: rest)).on t = ⟨none, t, [.entry here]⟩ := by
  have hany : (t.node here).any Node.isDir = false := by
    rw [← Bool.not_eq_true, Node.any_isDir]
    exact hdir
  simp [wayWith, hany]

theorem wayWith_down (follow : List ν → List (Hop ν) → Kernel ν β (Option (List ν)))
    {t : Tree ν β} {here : List ν} {name : ν} (rest : List (Hop ν))
    (hdir : t.node here = some .dir)
    (hlink : ∀ fromRoot target, t.node (here ++ [name]) ≠ some (.link fromRoot target)) :
    (wayWith follow here (.down name :: rest)).on t =
      ⟨((wayWith follow (here ++ [name]) rest).on t).answer,
        ((wayWith follow (here ++ [name]) rest).on t).after,
        .entry here :: .entry (here ++ [name]) ::
          ((wayWith follow (here ++ [name]) rest).on t).touched⟩ := by
  have hany : (t.node here).any Node.isDir = true := Node.any_isDir.mpr hdir
  cases hnode : t.node (here ++ [name]) with
  | none => simp [wayWith, hany, hnode]
  | some n =>
    cases n with
    | file content mode => simp [wayWith, hany, hnode]
    | dir => simp [wayWith, hany, hnode]
    | link fromRoot target => exact absurd hnode (hlink fromRoot target)

/-- Without links a way leads where it says, if only through directories. -/
theorem wayWith_plain {t : Tree ν β} (follow : List ν → List (Hop ν) → Kernel ν β (Option (List ν)))
    (here rest : List ν) (h : ∀ k ≤ rest.length, ∀ fromRoot target,
      t.node (here ++ rest.take k) ≠ some (.link fromRoot target)) :
    (∀ p, ((wayWith follow here (rest.map .down)).on t).answer = some p ↔
        p = here ++ rest ∧ t.DirsOn here rest) ∧
      ∀ a ∈ ((wayWith follow here (rest.map .down)).on t).touched,
        ∃ k ≤ rest.length, a = .entry (here ++ rest.take k) := by
  induction rest generalizing here with
  | nil => simp [wayWith, Tree.DirsOn, eq_comm]
  | cons name rest ih =>
    have hnext : here ++ [name] ++ rest = here ++ name :: rest := by simp
    obtain ⟨hanswer, htouched⟩ := ih (here ++ [name]) fun k hk => by
      simpa using h (k + 1) (by simpa using hk)
    rw [List.map_cons]
    by_cases hdir : t.node here = some .dir
    · have hlink := h 1 (by simp)
      simp only [List.take_succ_cons, List.take_zero] at hlink
      rw [wayWith_down follow _ hdir hlink]
      refine ⟨?_, ?_⟩
      · intro p
        rw [hanswer, hnext, Tree.dirsOn_cons]
        simp [hdir]
      · intro a ha
        simp only [List.mem_cons] at ha
        rcases ha with rfl | rfl | ha
        · exact ⟨0, by simp, by simp⟩
        · exact ⟨1, by simp, by simp⟩
        · obtain ⟨k, hk, rfl⟩ := htouched a ha
          exact ⟨k + 1, by simpa using hk, by simp⟩
    · rw [wayWith_of_not_dir follow _ _ hdir]
      refine ⟨?_, ?_⟩
      · intro p
        rw [Tree.dirsOn_cons]
        simp [hdir]
      · intro a ha
        simp only [List.mem_singleton] at ha
        exact ⟨0, by simp, by simpa using ha⟩

theorem wayWith_after {follow : List ν → List (Hop ν) → Kernel ν β (Option (List ν))}
    (hfollow : ∀ here rest (t : Tree ν β), ((follow here rest).on t).after = t) (here : List ν)
    (rest : List (Hop ν)) (t : Tree ν β) : ((wayWith follow here rest).on t).after = t := by
  induction rest generalizing here with
  | nil => simp [wayWith]
  | cons hop rest ih =>
    by_cases hdir : t.node here = some .dir
    · have hany : (t.node here).any Node.isDir = true := Node.any_isDir.mpr hdir
      cases hop with
      | down name =>
        cases hnode : t.node (here ++ [name]) with
        | none => simp [wayWith, hany, hnode, ih]
        | some n => cases n <;> simp [wayWith, hany, hnode, ih, hfollow]
      | _ => simp [wayWith, hany, ih]
    · rw [wayWith_of_not_dir follow hop rest hdir]

theorem way_after (links : ℕ) (here : List ν) (path : List (Hop ν)) (t : Tree ν β) :
    ((way links here path).on t).after = t := by
  induction links generalizing here path t with
  | zero => exact wayWith_after (fun _ _ _ => rfl) here path t
  | succ links ih => exact wayWith_after ih here path t

/-- Finding the way changes nothing. -/
@[simp] theorem resolve_after (path : List (Hop ν)) (t : Tree ν β) :
    ((resolve path).on t).after = t :=
  way_after 40 [] path t

theorem lookAt_after (path : List (Hop ν)) (t : Tree ν β) : ((lookAt path).on t).after = t := by
  cases hans : ((resolve path).on t).answer <;> simp [lookAt, hans]

theorem metadata_after (path : List (Hop ν)) (t : Tree ν β) :
    ((metadata path).on t).after = t := by
  cases hans : ((lookAt path).on t).answer with
  | none => simp [metadata, hans, lookAt_after]
  | some n => cases n <;> simp [metadata, hans, lookAt_after]

theorem read_after (path : List (Hop ν)) (t : Tree ν β) : ((read path).on t).after = t := by
  cases hans : ((lookAt path).on t).answer with
  | none => simp [read, hans, lookAt_after]
  | some n => cases n <;> simp [read, hans, lookAt_after]

theorem append_touched (path : List (Hop ν)) (more more' : List β) (t : Tree ν β) :
    ((append path more).on t).touched = ((append path more').on t).touched := by
  cases hans : ((resolve path).on t).answer with
  | none => simp [append, hans]
  | some p =>
    cases hnode : t.node p with
    | none => simp [append, hans, hnode]
    | some n => cases n <;> simp [append, hans, hnode]

omit [DecidableEq ν] in
theorem take_append_nil {p : List ν} (t : Tree ν β) (h : t.Plain p) (k : ℕ) (fromRoot : Bool)
    (target : List (Hop ν)) : t.node ([] ++ p.take k) ≠ some (.link fromRoot target) :=
  h _ (List.take_prefix k p) fromRoot target

section
variable {t : Tree ν β} {p : List ν} (h : t.Plain p)
include h

theorem resolve_answer (q : List ν) :
    ((resolve (p.map .down)).on t).answer = some q ↔ q = p ∧ t.DirsOn [] p :=
  (wayWith_plain _ [] p fun k _ => take_append_nil t h k).1 q

theorem resolve_cases : ((resolve (p.map .down)).on t).answer = none ∨
    ((resolve (p.map .down)).on t).answer = some p := by
  cases hans : ((resolve (p.map .down)).on t).answer with
  | none => exact .inl rfl
  | some q => exact .inr (by rw [((resolve_answer h q).mp hans).1])

theorem create_cases (mode : ℕ) :
    (((create mode (p.map .down)).on t).answer = false ∧
      ((create mode (p.map .down)).on t).after = t) ∨
    (((create mode (p.map .down)).on t).answer = true ∧
      ∃ m, ((create mode (p.map .down)).on t).after = t.put p (.file [] m)) := by
  rcases resolve_cases h with hans | hans
  · simp [create, hans]
  · cases hnode : t.node p with
    | none =>
      simp only [create, on_bind, hans, resolve_after, look_on, hnode, put_on, on_pure]
      exact .inr ⟨trivial, mode, rfl⟩
    | some n =>
      cases n with
      | file content m =>
        simp only [create, on_bind, hans, resolve_after, look_on, hnode, put_on, on_pure]
        exact .inr ⟨trivial, m, rfl⟩
      | _ => simp [create, hans, hnode]

theorem append_cases (more : List β) :
    (((append (p.map .down) more).on t).answer = false ∧
      ((append (p.map .down) more).on t).after = t) ∨
    (((append (p.map .down) more).on t).answer = true ∧
      ∃ content m, t.node p = some (.file content m) ∧
        ((append (p.map .down) more).on t).after = t.put p (.file (content ++ more) m)) := by
  rcases resolve_cases h with hans | hans
  · simp [append, hans]
  · cases hnode : t.node p with
    | none => simp [append, hans, hnode]
    | some n => cases n <;> simp [append, hans, hnode]

theorem read_iff (content : List β) :
    ((read (p.map .down)).on t).answer = some content ↔
      t.DirsOn [] p ∧ ∃ m, t.node p = some (.file content m) := by
  cases hans : ((resolve (p.map .down)).on t).answer with
  | none =>
    have hdirs : ¬t.DirsOn [] p := by
      intro hd
      rw [(resolve_answer h p).mpr ⟨rfl, hd⟩] at hans
      cases hans
    simp [read, lookAt, hans, hdirs]
  | some q =>
    obtain ⟨rfl, hdirs⟩ := (resolve_answer h q).mp hans
    cases hnode : t.node q with
    | none => simp [read, lookAt, hans, hnode]
    | some n => cases n <;> simp [read, lookAt, hans, hnode, hdirs]

end

omit [DecidableEq ν] in
theorem splitLast_down (dir : List ν) (name : ν) :
    splitLast ((dir ++ [name]).map Hop.down) = some (dir.map .down, name, false) := by
  simp [splitLast, ← List.map_reverse]

section
variable {t : Tree ν β} {dir : List ν} (h : t.Plain dir) (name : ν)
include h

theorem place_cases :
    ((place ((dir ++ [name]).map .down)).on t).after = t ∧
    (((place ((dir ++ [name]).map .down)).on t).answer = none ∨
      ((place ((dir ++ [name]).map .down)).on t).answer = some (dir ++ [name], false)) := by
  rw [place, splitLast_down]
  rcases resolve_cases h with hans | hans
  · simp [hans]
  · cases hdir : (t.node dir).any Node.isDir <;> simp [hans, hdir]

/-- A place is found through directories. -/
theorem place_dirsOn {p : List ν × Bool}
    (hans : ((place ((dir ++ [name]).map .down)).on t).answer = some p) : t.DirsOn [] (dir ++ [name]) := by
  rw [place, splitLast_down] at hans
  rcases resolve_cases h with hway | hway
  · simp [hway] at hans
  · obtain ⟨-, hdirs⟩ := (resolve_answer h dir).mp hway
    have hdir : t.node dir = some .dir := by
      by_contra hnot
      have hany : (t.node dir).any Node.isDir = false := by
        rw [← Bool.not_eq_true, Node.any_isDir]
        exact hnot
      simp [hway, hany] at hans
    intro k hk
    rw [List.length_append, List.length_singleton] at hk
    rcases Nat.lt_succ_iff_lt_or_eq.mp hk with hlt | rfl
    · rw [List.take_append_of_le_length hlt.le]
      exact hdirs k hlt
    · rw [List.take_left, List.nil_append]
      exact hdir

theorem mkdir_cases :
    ((mkdir ((dir ++ [name]).map .down)).on t).after = t ∨
    (t.node (dir ++ [name]) = none ∧
      ((mkdir ((dir ++ [name]).map .down)).on t).after = t.put (dir ++ [name]) .dir) := by
  obtain ⟨hafter, hans | hans⟩ := place_cases h name
  · simp [-List.map_append, mkdir, hans, hafter]
  · cases hnode : t.node (dir ++ [name]) <;> simp [-List.map_append, mkdir, hans, hafter, hnode]

theorem unlink_cases :
    ((unlink ((dir ++ [name]).map .down)).on t).after = t ∨
    ((unlink ((dir ++ [name]).map .down)).on t).after = t.clear (dir ++ [name]) := by
  obtain ⟨hafter, hans | hans⟩ := place_cases h name
  · simp [-List.map_append, unlink, hans, hafter]
  · cases hnode : t.node (dir ++ [name]) with
    | none => simp [-List.map_append, unlink, hans, hafter, hnode]
    | some n => cases n <;> simp [-List.map_append, unlink, hans, hafter, hnode]

/-- A file takes the place of nothing or of another file, or stays. -/
theorem rename_file {dir' : List ν} (h' : t.Plain dir') (name' : ν) {content : List β} {mode : ℕ}
    (hfile : t.node (dir ++ [name]) = some (.file content mode))
    (hne : dir ++ [name] ≠ dir' ++ [name']) :
    (((rename ((dir ++ [name]).map .down) ((dir' ++ [name']).map .down)).on t).answer = false ∧
      ((rename ((dir ++ [name]).map .down) ((dir' ++ [name']).map .down)).on t).after = t) ∨
    (((rename ((dir ++ [name]).map .down) ((dir' ++ [name']).map .down)).on t).answer = true ∧
      t.DirsOn [] (dir' ++ [name']) ∧ t.node (dir' ++ [name']) ≠ some .dir ∧
      ((rename ((dir ++ [name]).map .down) ((dir' ++ [name']).map .down)).on t).after =
        t.move (dir ++ [name]) (dir' ++ [name'])) := by
  obtain ⟨hafter, hans | hans⟩ := place_cases h name <;>
    obtain ⟨hafter', hans' | hans'⟩ := place_cases h' name'
  · simp [-List.map_append, rename, hans, hafter, hafter']
  · simp [-List.map_append, rename, hans, hafter, hafter']
  · simp [-List.map_append, rename, hans, hans', hafter, hafter']
  · have hdirs := place_dirsOn h' name' hans'
    cases hnode : t.node (dir' ++ [name']) with
    | none =>
      by_cases hp : dir ++ [name] <+: dir' ++ [name'] <;>
        simp [-List.map_append, rename, hans, hans', hafter, hafter', hfile, hnode, Node.isDir, replaces,
          hne, hp, hdirs]
    | some n =>
      cases n <;>
        simp [-List.map_append, rename, hans, hans', hafter, hafter', hfile, hnode, Node.isDir, replaces,
          hne, hdirs]

theorem rename_cases {dir' : List ν} (h' : t.Plain dir') (name' : ν) {content : List β} {mode : ℕ}
    (hfile : t.node (dir ++ [name]) = some (.file content mode))
    (hne : dir ++ [name] ≠ dir' ++ [name']) :
    ((rename ((dir ++ [name]).map .down) ((dir' ++ [name']).map .down)).on t).after = t ∨
    (t.node (dir' ++ [name']) ≠ some .dir ∧
      ((rename ((dir ++ [name]).map .down) ((dir' ++ [name']).map .down)).on t).after =
        t.move (dir ++ [name]) (dir' ++ [name'])) := by
  rcases rename_file h name h' name' hfile hne with ⟨-, hsame⟩ | ⟨-, -, hnot, hmoved⟩
  · exact .inl hsame
  · exact .inr ⟨hnot, hmoved⟩

end

end Kernel

end

end Redo.Library
