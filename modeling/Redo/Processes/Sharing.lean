import Redo.Processes.Nesting

/-! # One jobserver for a tree of processes

A process finds the jobserver of the one above it in two variables.
-/
namespace Redo.Processes
open State Remote Logs Paths Library

variable {vars vars' : Vars} {name : String} {value : Text} {m m' : Memory} {j : Jobserver}
  {opened : List ℤ} {n : Vertex} {link : Link} {links : List Link} {given : Vars}
  {j' : Jobserver} {d : Descriptors} {maxjobs : ℤ} {ends : ℤ × ℤ}

/-- A number that a descriptor can have. -/
def IsFd (n : ℤ) : Prop := 0 < n ∧ n < 2147483648

theorem not_mem_printInt {c : Char} {n : ℤ} (hdigit : c.isDigit = false) (hminus : c ≠ '-') :
    c ∉ printInt n := by
  have hdigits : c ∉ Nat.toDigits 10 n.natAbs := not_mem_toDigits hdigit _
  unfold printInt
  split_ifs <;> simp [hdigits, hminus]

theorem parseFds_printFds (hl : IsFd ends.1) (hr : IsFd ends.2) : parseFds (printFds ends) = some ends := by
  have hsplit : (printFds ends).splitOn ',' = [printInt ends.1, printInt ends.2] := by
    have hcomma : ',' ∉ printInt ends.2 := not_mem_printInt (by decide) (by decide)
    have hright := splitOn_append_of_not_mem hcomma []
    rw [printFds, splitOn_append_of_not_mem (not_mem_printInt (by decide) (by decide)),
      List.splitOn_cons_eq_if_modifyHead, if_pos (by simp)]
    simpa using hright
  have hleft := parseI32_printInt (by have := hl.1; omega) hl.2
  have hright := parseI32_printInt (by have := hr.1; omega) hr.2
  simp [parseFds, hsplit, hleft, hright]

theorem textAfter_auth (t : Text) :
    textAfter " --jobserver-auth=".toList ("  -j --jobserver-auth=".toList ++ t) = some t := by
  rfl

theorem flags_makeflags (h : vars "MAKEFLAGS" = some (makeflags ends)) :
    ' ' :: vars.get "MAKEFLAGS" ++ [' '] = "  -j --jobserver-auth=".toList ++
      (printFds ends ++ (" --jobserver-fds=".toList ++ (printFds ends ++ [' ']))) := by
  have hget : vars.get "MAKEFLAGS" = makeflags ends := by
    rw [Vars.get, h, Option.getD_some]
  have hhead : "  -j --jobserver-auth=".toList = ' ' :: " -j --jobserver-auth=".toList := by
    decide
  have hassoc : ∀ a b c d : Text, ' ' :: (a ++ b ++ c ++ d) ++ [' '] =
      (' ' :: a) ++ (b ++ (c ++ (d ++ [' ']))) := by
    simp
  rw [hget, hhead]
  exact hassoc _ _ _ _

/-- What `setup` writes is read back by the processes below. -/
theorem parseMakeflags_makeflags (h : vars "MAKEFLAGS" = some (makeflags ends)) (hl : IsFd ends.1)
    (hr : IsFd ends.2) : parseMakeflags vars = some ends := by
  have hblank : ' ' ∉ printFds ends := by
    simp [printFds, not_mem_printInt (show (' ').isDigit = false by decide) (by decide)]
  have htake : ∀ t, (printFds ends ++ (" --jobserver-fds=".toList ++ t)).takeWhile (· ≠ ' ') =
      printFds ends := by
    intro t
    rw [List.takeWhile_append_of_pos]
    · simp
    · intro c hc
      have hne : c ≠ ' ' := by
        rintro rfl
        exact hblank hc
      simpa using hne
  have hpos : ¬(ends.1 ≤ 0 ∨ ends.2 ≤ 0) := by
    have hleft := hl.1
    have hright := hr.1
    omega
  rw [parseMakeflags, flags_makeflags h, textAfter_auth]
  simp only [Option.bind_eq_bind, Option.some_or, Option.bind_some, htake, parseFds_printFds hl hr,
    if_neg hpos]

/-- A process started with these variables finds the jobserver. -/
structure Carries (vars : Vars) (j : Jobserver) : Prop where
  tokens : parseMakeflags vars = some j.tokenfds
  cheat : (vars "REDO_CHEATFDS").bind parseFds = some j.cheatfds
  apart : 2 < j.cheatfds.1 ∧ 2 < j.cheatfds.2

theorem parseMakeflags_congr (h : vars "MAKEFLAGS" = vars' "MAKEFLAGS") :
    parseMakeflags vars = parseMakeflags vars' := by
  rw [parseMakeflags, parseMakeflags, Vars.get_congr h]

theorem Carries.congr (h : Carries vars j) (hcheat : vars' "REDO_CHEATFDS" = vars "REDO_CHEATFDS")
    (hflags : vars' "MAKEFLAGS" = vars "MAKEFLAGS") : Carries vars' j where
  tokens := (parseMakeflags_congr hflags).trans h.tokens
  cheat := by
    rw [hcheat]
    exact h.cheat
  apart := h.apart

theorem Pipe.isFd {start : ℤ} (p : Pipe start) (h : 0 < start) : IsFd p.fds.1 ∧ IsFd p.fds.2 := by
  have hleft := p.left
  have hright := p.right
  constructor <;> constructor <;> omega

/-- The descriptors to cheat with that have come down. -/
theorem cheatfds_some (h : d.cheatfds maxjobs vars = some ends) :
    (vars "REDO_CHEATFDS").bind parseFds = some ends ∧ 2 < ends.1 ∧ 2 < ends.2 := by
  unfold Descriptors.cheatfds at h
  split at h
  · cases h
  · obtain ⟨t, ht, hrest⟩ := Option.bind_eq_some_iff.mp h
    obtain ⟨found, hfds, hif⟩ := Option.bind_eq_some_iff.mp hrest
    split at hif
    · rename_i hand
      cases hif
      exact ⟨by rw [ht, Option.bind_some, hfds], hand.1, hand.2.1⟩
    · cases hif

/-- `setup` leaves the variables such that the processes below find its jobserver. -/
theorem setup_carries (h : d.setup maxjobs vars = some (j, vars')) : Carries vars' j := by
  obtain ⟨htokenl, htokenr⟩ := d.tokenPipe.isFd (by decide)
  obtain ⟨hcheatl, hcheatr⟩ := d.cheatPipe.isFd (by decide)
  have hapart : 2 < d.cheatPipe.fds.1 ∧ 2 < d.cheatPipe.fds.2 := by
    have hleft := d.cheatPipe.left
    have hright := d.cheatPipe.right
    omega
  have hprint := parseFds_printFds hcheatl hcheatr
  unfold Descriptors.setup at h
  simp only at h
  split at h
  · cases h
  · cases hc : d.cheatfds maxjobs vars with
    | some ends =>
      obtain ⟨hparse, hgt⟩ := cheatfds_some hc
      simp only [hc] at h
      split at h
      · rename_i hinherited
        cases h
        refine ⟨?_, hparse, hgt⟩
        split at hinherited
        · exact hinherited
        · cases hinherited
      · cases h
        refine ⟨parseMakeflags_makeflags Vars.set_self htokenl htokenr, ?_, hgt⟩
        rw [Vars.set_of_ne (by decide)]
        exact hparse
    | none =>
      simp only [hc] at h
      split at h
      · rename_i hinherited
        cases h
        refine ⟨?_, ?_, hapart⟩
        · split at hinherited
          · exact (parseMakeflags_congr (Vars.set_of_ne (by decide))).trans hinherited
          · cases hinherited
        · rw [Vars.set_self, Option.bind_some, hprint]
      · cases h
        refine ⟨parseMakeflags_makeflags Vars.set_self htokenl htokenr, ?_, hapart⟩
        rw [Vars.set_of_ne (by decide), Vars.set_self, Option.bind_some, hprint]

theorem setup_inherits (h : Carries vars j) (hthere : ∀ fd ∈ j.fds, d.fdExists fd = true) :
    d.setup 0 vars = some (⟨j.tokenfds, j.cheatfds, 0⟩, vars) := by
  simp only [Jobserver.fds, List.mem_cons, List.not_mem_nil, or_false, forall_eq_or_imp,
    forall_eq] at hthere
  obtain ⟨hl, hr, hcl, hcr⟩ := hthere
  obtain ⟨t, ht, hparse⟩ := Option.bind_eq_some_iff.mp h.cheat
  have hcheat : d.cheatfds 0 vars = some j.cheatfds := by
    simp [Descriptors.cheatfds, ht, hparse, h.apart, hcl, hcr]
  simp [Descriptors.setup, h.tokens, hcheat, hl, hr]

theorem Given.fds (h : Given n link given)
    (hname : name = "REDO_CHEATFDS" ∨ name = "MAKEFLAGS") : given name = n.vars name := by
  cases h with
  | recipe =>
    rcases hname with rfl | rfl
    · exact execVars_of_not_mem (by decide)
    · exact execVars_of_not_mem (by decide)
  | unlocked | child | deps => rcases hname with rfl | rfl <;> exact Vars.set_of_ne (by decide)
  | target =>
    rcases hname with rfl | rfl <;>
      exact (Vars.set_of_ne (by decide)).trans (Vars.set_of_ne (by decide))
  | ifchange kept | redo kept => rcases hname with rfl | rfl <;> exact kept _ (by decide)

/-- A target is no `-j`. -/
theorem jobs_target {t : Text} (h : (RedoArgs.parse { vars } [t]).targets = [t]) :
    (RedoArgs.parse { vars := vars' } [t]).jobs = 0 := by
  have hflag := redoFlag_target h
  simp only [RedoArgs.parse] at h ⊢
  split at h
  · cases h
  · rename_i hj
    rw [if_neg hj]
    simp only [RedoArgs.take, hflag] at h ⊢
    split_ifs at h ⊢
    all_goals simp_all

theorem Starts.jobserver (h : Starts j.fds link given n) (hgiven : Present given)
    (hcarries : Carries given j)
    (hjobs : ∀ args, link.args = some args → (RedoArgs.parse { vars := given } args).jobs = 0) :
    Carries n.vars j ∧ ∀ m' j', n = .builder m' j' → j' = ⟨j.tokenfds, j.cheatfds, 0⟩ := by
  have hclear : ∀ {vars : Vars}, Carries vars j → Carries vars.clear j := fun hvars =>
    hvars.congr (clear_of_ne (by decide) (by decide)) (clear_of_ne (by decide) (by decide))
  have hsetup : ∀ {d : Descriptors} {vars : Vars} {m : Memory} {j₁ : Jobserver}, Carries vars j →
      (∀ fd ∈ j.fds, d.fdExists fd = true) → d.setup 0 vars.clear = some (j₁, m.vars) →
        Carries m.vars j ∧ j₁ = ⟨j.tokenfds, j.cheatfds, 0⟩ := by
    intro d vars m j₁ hvars hthere hs
    rw [setup_inherits (hclear hvars) hthere] at hs
    obtain ⟨rfl, hsame⟩ := Prod.mk.inj (Option.some.inj hs)
    exact ⟨hsame ▸ hclear hvars, rfl⟩
  cases h with
  | recipe => exact ⟨hcarries, fun m' j' hn => by cases hn⟩
  | unlocked inherits =>
    refine ⟨?_, fun m' j' hn => by cases hn⟩
    rw [Vertex.vars, inherit_fresh inherits]
    exact hclear hcarries
  | ifchange called there starts =>
    obtain ⟨hm, rfl⟩ := hsetup hcarries there (startIfchange_child hgiven starts).2.2
    refine ⟨hm, fun m' j' hn => ?_⟩
    cases hn
    rfl
  | redo called there starts =>
    obtain ⟨-, -, jobs, hzero, hs⟩ := startRedo_child hgiven starts
    rw [hzero (hjobs _ called)] at hs
    have hdefaults : ∀ args, Carries (RedoArgs.parse { vars := given } args).defaults j :=
      fun args => hcarries.congr (Unoptioned.defaults_parse (by decide))
        (Unoptioned.defaults_parse (by decide))
    obtain ⟨hm, rfl⟩ := hsetup (hdefaults _) there hs
    refine ⟨hm, fun m' j' hn => ?_⟩
    cases hn
    rfl

theorem Toplevel.carries (h : Toplevel m j) : Carries m.vars j := by
  obtain ⟨o, vars, -, ⟨ts, hstarts⟩ | ⟨args, hstarts⟩⟩ := h
  · simp only [Outside.startIfchange, Option.bind_eq_bind, Option.bind_eq_some_iff] at hstarts
    obtain ⟨m₁, -, ⟨j', vars'⟩, hsetup, hpure⟩ := hstarts
    cases hpure
    exact setup_carries hsetup
  · simp only [Outside.startRedo, Option.bind_eq_bind, Option.bind_eq_some_iff] at hstarts
    obtain ⟨m₁, -, ⟨j', vars'⟩, hsetup, hpure⟩ := hstarts
    have hcarries := setup_carries hsetup
    cases hpure
    exact hcarries

/-- As long as nobody asks for another one with `-j`, all processes of the tree share the jobserver
of the first. -/
theorem one_jobserver (htop : Toplevel m j) (h : Descends j.fds (.builder m j) links n)
    (hjobs : ∀ args, Link.redo args ∈ links → ∀ vars, (RedoArgs.parse { vars } args).jobs = 0) :
    Carries n.vars j ∧ ∀ m' j', n = .builder m' j' → links ≠ [] →
      j' = ⟨j.tokenfds, j.cheatfds, 0⟩ := by
  induction h with
  | start => exact ⟨htop.carries, fun _ _ _ hne => absurd rfl hne⟩
  | @step links link n n' above given gives starts ih =>
    obtain ⟨hpresent, -, -⟩ := above.told htop
    have hgiven : Present given := hpresent.congr fun name hname => gives.passed hname
    obtain ⟨habove, -⟩ := ih fun args hmem => hjobs args (List.mem_cons_of_mem _ hmem)
    have hcarries : Carries given j := habove.congr (gives.fds (.inl rfl)) (gives.fds (.inr rfl))
    obtain ⟨hcarried, hsame⟩ := starts.jobserver hgiven hcarries fun args hargs => by
      cases gives with
      | child target =>
        cases hargs
        exact jobs_target target
      | redo =>
        cases hargs
        exact hjobs _ List.mem_cons_self _
      | _ => cases hargs
    exact ⟨hcarried, fun m' j' hn _ => hsame m' j' hn⟩

theorem one_jobserver_recipe : Carries calling.1.vars shell.2 ∧
    calling.2 = ⟨shell.2.tokenfds, shell.2.cheatfds, 0⟩ := by
  obtain ⟨hcarries, hsame⟩ := one_jobserver shell_toplevel calling_descends fun args hargs => by
    simp at hargs
  exact ⟨hcarries, hsame _ _ rfl (by simp)⟩

end Redo.Processes
