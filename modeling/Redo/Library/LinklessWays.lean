import Redo.Library.FileTree

/-! # Ways without links

A path that does not lead up and meets no link leads where its names say, or nowhere. An operation
on it looks at the entries on that way only, and changes at most its end.
-/
namespace Redo.Library
variable {ν β : Type}

def Hop.name : Hop ν → Option ν
  | .down name => some name
  | _ => none

def Hop.names (path : List (Hop ν)) : List ν := path.filterMap Hop.name

@[simp] theorem names_nil : Hop.names ([] : List (Hop ν)) = [] := rfl

@[simp] theorem names_append (path path' : List (Hop ν)) :
    Hop.names (path ++ path') = Hop.names path ++ Hop.names path' :=
  List.filterMap_append ..

@[simp] theorem names_down (p : List ν) : Hop.names (p.map .down) = p := by
  induction p with
  | nil => rfl
  | cons name p ih => exact congrArg (name :: ·) ih

theorem Tree.Plain.above {t : Tree ν β} {p q : List ν} (h : t.Plain p) (hq : q <+: p) : t.Plain q :=
  fun r hr => h r (hr.trans hq)

/-- What the tree of a list of entries has is in the list. -/
theorem Tree.mem_of_ofEntries [DecidableEq ν] {entries : List (List ν × Node ν β)} {p : List ν} {n : Node ν β}
    (h : (ofEntries entries).node p = some n) : (p, n) ∈ entries := by
  induction entries with
  | nil => cases h
  | cons entry entries ih =>
    rw [ofEntries, List.foldr_cons, node_put, Function.update_apply] at h
    split at h
    · next heq =>
      subst heq
      cases h
      exact List.mem_cons_self
    · exact List.mem_cons_of_mem _ (ih h)

/-- The last name of a path that has one is the last of its names. -/
theorem names_of_splitLast {path front : List (Hop ν)} {name : ν} {slash : Bool}
    (h : Kernel.splitLast path = some (front, name, slash)) :
    Hop.names path = Hop.names front ++ [name] ∧ ∀ hop ∈ front, hop ∈ path := by
  rw [Kernel.splitLast] at h
  split at h
  · next rest hpath =>
    cases h
    rw [← List.reverse_reverse path, hpath]
    exact ⟨by simp [Hop.names, Hop.name], fun hop hmem => by simp_all⟩
  · next rest hpath =>
    cases h
    rw [← List.reverse_reverse path, hpath]
    exact ⟨by simp [Hop.names, Hop.name], fun hop hmem => by simp_all⟩
  · cases h

/-- What an operation on the entry `p` looks at and changes: entries on the way there, and at most
that entry, if it is no directory. -/
structure Tree.Near [DecidableEq ν] (t : Tree ν β) (p : List ν) (touched : List (Area ν)) (after : Tree ν β) :
    Prop where
  touched : ∀ a ∈ touched, (∃ q, q <+: p ∧ a = .entry q) ∨ a = .below p ∧ t.node p ≠ some .dir
  after : after = t ∨ t.node p ≠ some .dir ∧
    ((∃ n, (∀ fromRoot target, n ≠ .link fromRoot target) ∧ after = t.put p n) ∨ after = t.clear p)

namespace Kernel
variable [DecidableEq ν] {t : Tree ν β}

theorem wayWith_linkless (follow : List ν → List (Hop ν) → Kernel ν β (Option (List ν))) (here : List ν)
    (path : List (Hop ν)) (hup : Hop.up ∉ path) (h : t.Plain (here ++ Hop.names path)) :
    (((wayWith follow here path).on t).answer = none ∨
        ((wayWith follow here path).on t).answer = some (here ++ Hop.names path)) ∧
      ∀ a ∈ ((wayWith follow here path).on t).touched, ∃ q, q <+: here ++ Hop.names path ∧ a = .entry q := by
  induction path generalizing here with
  | nil => simp [wayWith]
  | cons hop rest ih =>
    have hhere : here <+: here ++ Hop.names (hop :: rest) := List.prefix_append _ _
    by_cases hdir : t.node here = some .dir
    · have hany : (t.node here).any Node.isDir = true := Node.any_isDir.mpr hdir
      have hrest : Hop.up ∉ rest := fun hmem => hup (List.mem_cons_of_mem _ hmem)
      cases hop with
      | up => exact absurd List.mem_cons_self hup
      | down name =>
        have hnext : here ++ [name] ++ Hop.names rest = here ++ Hop.names (.down name :: rest) := by
          simp [Hop.names, Hop.name]
        obtain ⟨hanswer, htouched⟩ := ih (here ++ [name]) hrest (hnext ▸ h)
        have hstep : here ++ [name] <+: here ++ Hop.names (.down name :: rest) := hnext ▸ List.prefix_append _ _
        rw [wayWith_down follow rest hdir (h _ hstep), ← hnext]
        refine ⟨hanswer, fun a ha => ?_⟩
        rcases List.mem_cons.mp ha with rfl | ha
        · exact ⟨here, hnext ▸ hhere, rfl⟩
        · rcases List.mem_cons.mp ha with rfl | ha
          · exact ⟨here ++ [name], hnext ▸ hstep, rfl⟩
          · exact htouched a ha
      | here | slash =>
        obtain ⟨hanswer, htouched⟩ := ih here hrest h
        have hon : ∀ hop, (hop = Hop.here ∨ hop = Hop.slash) → (wayWith follow here (hop :: rest)).on t =
            ⟨((wayWith follow here rest).on t).answer, ((wayWith follow here rest).on t).after,
              .entry here :: ((wayWith follow here rest).on t).touched⟩ := by
          rintro hop (rfl | rfl) <;> simp [wayWith, hany]
        rw [hon _ (by simp)]
        refine ⟨hanswer, fun a ha => ?_⟩
        rcases List.mem_cons.mp ha with rfl | ha
        · exact ⟨here, hhere, rfl⟩
        · exact htouched a ha
    · rw [wayWith_of_not_dir follow hop rest hdir]
      refine ⟨.inl rfl, fun a ha => ⟨here, hhere, List.mem_singleton.mp ha⟩⟩

theorem near_of_looking {p : List ν} {touched : List (Area ν)}
    (ht : ∀ a ∈ touched, ∃ q, q <+: p ∧ a = .entry q) : t.Near p touched t :=
  ⟨fun a ha => .inl (ht a ha), .inl rfl⟩

theorem near_of_not_put {p : List ν} {touched : List (Area ν)}
    (ht : ∀ a ∈ touched, ∃ q, q <+: p ∧ a = .entry q) :
    t.Near p (touched ++ [.entry p]) t := by
  apply near_of_looking
  simp only [List.mem_append, List.mem_singleton]
  rintro a (ha | rfl)
  · exact ht a ha
  · exact ⟨_, List.prefix_refl _, rfl⟩

omit [DecidableEq ν] in
theorem touched_of_put {p : List ν} {touched : List (Area ν)}
    (ht : ∀ a ∈ touched, ∃ q, q <+: p ∧ a = .entry q) (hdir : t.node p ≠ some .dir) :
    ∀ a ∈ touched ++ [.entry p, .below p],
      (∃ q, q <+: p ∧ a = .entry q) ∨ a = .below p ∧ t.node p ≠ some .dir := by
  simp only [List.mem_append, List.mem_cons, List.not_mem_nil, or_false]
  rintro a (ha | rfl | rfl)
  · exact .inl (ht a ha)
  · exact .inl ⟨_, List.prefix_refl _, rfl⟩
  · exact .inr ⟨rfl, hdir⟩

/-- A file or a directory is put where none is. -/
theorem near_of_put {p : List ν} {touched : List (Area ν)} {n : Node ν β}
    (ht : ∀ a ∈ touched, ∃ q, q <+: p ∧ a = .entry q) (hdir : t.node p ≠ some .dir)
    (hn : ∀ fromRoot target, n ≠ .link fromRoot target) :
    t.Near p (touched ++ [.entry p, .below p]) (t.put p n) :=
  ⟨touched_of_put ht hdir, .inr ⟨hdir, .inl ⟨n, hn, rfl⟩⟩⟩

theorem near_of_clear {p : List ν} {touched : List (Area ν)}
    (ht : ∀ a ∈ touched, ∃ q, q <+: p ∧ a = .entry q) (hdir : t.node p ≠ some .dir) :
    t.Near p (touched ++ [.entry p, .below p]) (t.clear p) :=
  ⟨touched_of_put ht hdir, .inr ⟨hdir, .inr rfl⟩⟩

section
variable {path : List (Hop ν)} (hup : Hop.up ∉ path) (h : t.Plain (Hop.names path))
include hup h

theorem resolve_linkless :
    (((resolve path).on t).answer = none ∨ ((resolve path).on t).answer = some (Hop.names path)) ∧
    ∀ a ∈ ((resolve path).on t).touched, ∃ q, q <+: Hop.names path ∧ a = .entry q :=
  wayWith_linkless _ [] path hup h

theorem place_linkless : (((place path).on t).answer = none ∨
      ∃ slash, ((place path).on t).answer = some (Hop.names path, slash)) ∧ ((place path).on t).after = t ∧
    ∀ a ∈ ((place path).on t).touched, ∃ q, q <+: Hop.names path ∧ a = .entry q := by
  rw [place]
  cases hsplit : splitLast path with
  | none => simp
  | some split =>
    obtain ⟨front, name, slash⟩ := split
    obtain ⟨hnames, hfront⟩ := names_of_splitLast hsplit
    have hbefore : Hop.names front <+: Hop.names path := ⟨[name], hnames.symm⟩
    obtain ⟨hanswer, htouched⟩ := resolve_linkless (fun hmem => hup (hfront _ hmem)) (h.above hbefore)
    have hway : ∀ a ∈ ((resolve front).on t).touched, ∃ q, q <+: Hop.names path ∧ a = .entry q := fun a ha => by
      obtain ⟨q, hq, rfl⟩ := htouched a ha
      exact ⟨q, hq.trans hbefore, rfl⟩
    rcases hanswer with hanswer | hanswer
    · simp only [on_bind, hanswer, resolve_after, on_pure, List.append_nil]
      exact ⟨.inl trivial, trivial, hway⟩
    · cases hdir : (t.node (Hop.names front)).any Node.isDir <;>
        simp only [on_bind, hanswer, resolve_after, isDir_on, hdir, on_pure, List.append_nil, ← hnames,
          List.mem_append, List.mem_singleton]
      · refine ⟨.inl trivial, trivial, ?_⟩
        rintro a (ha | rfl)
        · exact hway a ha
        · exact ⟨_, hbefore, rfl⟩
      · refine ⟨.inr ⟨slash, rfl⟩, trivial, ?_⟩
        rintro a (ha | rfl)
        · exact hway a ha
        · exact ⟨_, hbefore, rfl⟩

theorem lookAt_near : t.Near (Hop.names path) ((lookAt path).on t).touched ((lookAt path).on t).after := by
  obtain ⟨hanswer, htouched⟩ := resolve_linkless hup h
  rw [lookAt_after]
  apply near_of_looking
  rcases hanswer with hanswer | hanswer
  · simpa [lookAt, hanswer] using htouched
  · simp only [lookAt, on_bind, hanswer, resolve_after, look_on, List.mem_append, List.mem_singleton]
    rintro a (ha | rfl)
    · exact htouched a ha
    · exact ⟨_, List.prefix_refl _, rfl⟩

theorem metadata_near : t.Near (Hop.names path) ((metadata path).on t).touched ((metadata path).on t).after := by
  have hsame : ((metadata path).on t).touched = ((lookAt path).on t).touched := by
    cases hans : ((lookAt path).on t).answer with
    | none => simp [metadata, hans]
    | some n => cases n <;> simp [metadata, hans]
  have hnear := lookAt_near hup h
  rw [lookAt_after] at hnear
  rw [hsame, metadata_after]
  exact hnear

theorem read_near : t.Near (Hop.names path) ((read path).on t).touched ((read path).on t).after := by
  have hsame : ((read path).on t).touched = ((lookAt path).on t).touched := by
    cases hans : ((lookAt path).on t).answer with
    | none => simp [read, hans]
    | some n => cases n <;> simp [read, hans]
  have hnear := lookAt_near hup h
  rw [lookAt_after] at hnear
  rw [hsame, read_after]
  exact hnear

theorem create_near (mode : ℕ) :
    t.Near (Hop.names path) ((create mode path).on t).touched ((create mode path).on t).after := by
  obtain ⟨hanswer, htouched⟩ := resolve_linkless hup h
  rcases hanswer with hanswer | hanswer
  · simpa [create, hanswer] using near_of_looking htouched
  · cases hnode : t.node (Hop.names path) with
    | none =>
      simpa [create, hanswer, hnode] using near_of_put htouched (by simp [hnode]) (by simp)
    | some n =>
      cases n with
      | file content old =>
        simpa [create, hanswer, hnode] using near_of_put htouched (by simp [hnode]) (by simp)
      | _ => simpa [create, hanswer, hnode] using near_of_not_put htouched

theorem append_near (more : List β) :
    t.Near (Hop.names path) ((append path more).on t).touched ((append path more).on t).after := by
  obtain ⟨hanswer, htouched⟩ := resolve_linkless hup h
  rcases hanswer with hanswer | hanswer
  · simpa [append, hanswer] using near_of_looking htouched
  · cases hnode : t.node (Hop.names path) with
    | none => simpa [append, hanswer, hnode] using near_of_not_put htouched
    | some n =>
      cases n with
      | file content old =>
        simpa [append, hanswer, hnode] using near_of_put htouched (by simp [hnode]) (by simp)
      | _ => simpa [append, hanswer, hnode] using near_of_not_put htouched

theorem mkdir_near : t.Near (Hop.names path) ((mkdir path).on t).touched ((mkdir path).on t).after := by
  obtain ⟨hanswer, hafter, htouched⟩ := place_linkless hup h
  rcases hanswer with hanswer | ⟨slash, hanswer⟩
  · simpa [mkdir, hanswer, hafter] using near_of_looking htouched
  · cases hnode : t.node (Hop.names path) with
    | none =>
      simpa [mkdir, hanswer, hafter, hnode] using near_of_put htouched (by simp [hnode]) (by simp)
    | some n =>
      cases n <;> simpa [mkdir, hanswer, hafter, hnode] using near_of_not_put htouched

theorem unlink_near : t.Near (Hop.names path) ((unlink path).on t).touched ((unlink path).on t).after := by
  obtain ⟨hanswer, hafter, htouched⟩ := place_linkless hup h
  rcases hanswer with hanswer | ⟨slash, hanswer⟩
  · simpa [unlink, hanswer, hafter] using near_of_looking htouched
  · cases slash with
    | true => simpa [unlink, hanswer, hafter] using near_of_looking htouched
    | false =>
      cases hnode : t.node (Hop.names path) with
      | none => simpa [unlink, hanswer, hafter, hnode] using near_of_not_put htouched
      | some n =>
        cases n with
        | dir => simpa [unlink, hanswer, hafter, hnode] using near_of_not_put htouched
        | _ => simpa [unlink, hanswer, hafter, hnode] using near_of_clear htouched (by simp [hnode])

end

/-- What is moved goes to a place that is free, or has an empty directory or another file. -/
structure Moves (t : Tree ν β) (a b : List ν) (after : Tree ν β) : Prop where
  ne : a ≠ b
  there : t.node a ≠ none
  notInto : t.node a = some .dir → ¬a <+: b
  empty : t.node b = some .dir → ∀ q, b <+: q → q ≠ b → t.node q = none
  after : after = t.move a b

theorem replaces_on {a b : List ν} {isDir : Bool} {n : Option (Node ν β)} :
    ((replaces a b isDir n).on t).after = t ∧ (∀ x ∈ ((replaces a b isDir n).on t).touched, x = .below b) ∧
      (((replaces a b isDir n).on t).answer = true →
        (isDir = true → ¬a <+: b) ∧ (n = some .dir → t.isEmpty b = true)) := by
  cases n with
  | none => simpa [replaces] using fun h _ => h
  | some n =>
    cases n with
    | dir =>
      by_cases hp : (isDir && !decide (a <+: b)) = true
      · simp only [Bool.and_eq_true, Bool.not_eq_true', decide_eq_false_iff_not] at hp
        simp [replaces, hp]
      · simp [replaces, hp]
    | _ =>
      cases isDir <;> simp [replaces]

theorem rename_linkless {path path' : List (Hop ν)} (hup : Hop.up ∉ path) (hup' : Hop.up ∉ path')
    (h : t.Plain (Hop.names path)) (h' : t.Plain (Hop.names path')) :
    (∀ a ∈ ((rename path path').on t).touched,
        (∃ q, (q <+: Hop.names path ∨ q <+: Hop.names path') ∧ a = .entry q) ∨
          a = .below (Hop.names path) ∨ a = .below (Hop.names path')) ∧
      (((rename path path').on t).after = t ∨
        Moves t (Hop.names path) (Hop.names path') ((rename path path').on t).after) := by
  obtain ⟨hanswer, hafter, htouched⟩ := place_linkless hup h
  obtain ⟨hanswer', hafter', htouched'⟩ := place_linkless hup' h'
  have hway : ∀ a ∈ ((place path).on t).touched ++ ((place path').on t).touched,
      (∃ q, (q <+: Hop.names path ∨ q <+: Hop.names path') ∧ a = .entry q) := fun a ha => by
    rcases List.mem_append.mp ha with ha | ha
    · obtain ⟨q, hq, rfl⟩ := htouched a ha
      exact ⟨q, .inl hq, rfl⟩
    · obtain ⟨q, hq, rfl⟩ := htouched' a ha
      exact ⟨q, .inr hq, rfl⟩
  rcases hanswer with hanswer | ⟨slash, hanswer⟩
  · simp only [rename, on_bind, hanswer, hafter, on_pure]
    exact ⟨fun a ha => .inl (hway a (by simpa using ha)), .inl hafter'⟩
  rcases hanswer' with hanswer' | ⟨slash', hanswer'⟩
  · simp only [rename, on_bind, hanswer, hanswer', hafter, on_pure]
    exact ⟨fun a ha => .inl (hway a (by simpa using ha)), .inl hafter'⟩
  have hlook : ∀ a ∈ ((place path).on t).touched ++ (((place path').on t).touched ++ [.entry (Hop.names path)]),
      (∃ q, (q <+: Hop.names path ∨ q <+: Hop.names path') ∧ a = .entry q) ∨
        a = .below (Hop.names path) ∨ a = .below (Hop.names path') := fun a ha => by
    rw [← List.append_assoc, List.mem_append, List.mem_singleton] at ha
    rcases ha with ha | rfl
    · exact .inl (hway a ha)
    · exact .inl ⟨_, .inl (List.prefix_refl _), rfl⟩
  cases hnode : t.node (Hop.names path) with
  | none =>
    simp only [rename, on_bind, hanswer, hanswer', hafter, hafter', look_on, hnode, on_pure, List.append_nil]
    exact ⟨hlook, .inl trivial⟩
  | some n =>
    by_cases hslash : ((slash || slash') && !n.isDir) = true
    · simp only [rename, on_bind, hanswer, hanswer', hafter, hafter', look_on, hnode, hslash, if_true, on_pure,
        List.append_nil]
      exact ⟨hlook, .inl trivial⟩
    by_cases hsame : Hop.names path = Hop.names path'
    · simp only [rename, on_bind, hanswer, hanswer', hafter, hafter', look_on, hnode, if_neg hslash, if_pos hsame,
        on_pure, List.append_nil]
      exact ⟨hlook, .inl trivial⟩
    obtain ⟨hkept, hbelow, hyes⟩ :=
      @replaces_on _ _ _ t (Hop.names path) (Hop.names path') n.isDir (t.node (Hop.names path'))
    have htarget : ∀ rest : List (Area ν),
        (∀ a ∈ rest, a = .below (Hop.names path) ∨ a = .below (Hop.names path')) →
        ∀ a ∈ ((place path).on t).touched ++ (((place path').on t).touched ++ ([.entry (Hop.names path)] ++
          ([.entry (Hop.names path')] ++ (((replaces (Hop.names path) (Hop.names path') n.isDir
            (t.node (Hop.names path'))).on t).touched ++ rest)))),
          (∃ q, (q <+: Hop.names path ∨ q <+: Hop.names path') ∧ a = .entry q) ∨
            a = .below (Hop.names path) ∨ a = .below (Hop.names path') := fun rest hrest a ha => by
      simp only [List.mem_append, List.mem_singleton] at ha
      rcases ha with ha | ha | rfl | rfl | ha | ha
      · exact .inl (hway a (List.mem_append_left _ ha))
      · exact .inl (hway a (List.mem_append_right _ ha))
      · exact .inl ⟨_, .inl (List.prefix_refl _), rfl⟩
      · exact .inl ⟨_, .inr (List.prefix_refl _), rfl⟩
      · exact .inr (.inr (hbelow a ha))
      · exact .inr (hrest a ha)
    cases hans : ((replaces (Hop.names path) (Hop.names path') n.isDir (t.node (Hop.names path'))).on t).answer with
    | false =>
      simp only [rename, on_bind, hanswer, hanswer', hafter, hafter', look_on, hnode, if_neg hslash, if_neg hsame,
        hans, hkept, on_pure]
      exact ⟨htarget [] (by simp), .inl trivial⟩
    | true =>
      obtain ⟨hinto, hempty⟩ := hyes hans
      simp only [rename, on_bind, hanswer, hanswer', hafter, hafter', look_on, hnode, if_neg hslash, if_neg hsame,
        hans, hkept, move_on, on_pure]
      refine ⟨htarget [.below (Hop.names path), .below (Hop.names path')] (by simp), .inr ?_⟩
      exact
        { ne := hsame
          there := by simp [hnode]
          notInto := fun hdir => hinto (by rw [hnode] at hdir; cases hdir; rfl)
          empty := fun hdir => (t.isEmpty_iff _).mp (hempty hdir)
          after := rfl }

end Kernel

end Redo.Library
