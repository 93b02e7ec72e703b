import Mathlib.Tactic.Tauto
import Redo.Library.Threads
import Redo.Remote.Json

/-! # Action mappings of the cache server

Every request is served by a thread of its own. A PUT looks for a mapping first and renames
its temporary file over whatever is there later. Mappings are immutable in a run exactly
when no PUT renames over a mapping of another manifest that was answered 200: between the
look and the rename nothing keeps a second writer out.
-/
namespace Redo.Remote
open Library Relation

/-- An answer, by its code: the log of them shows whether a mapping that was once told stays. -/
inductive Entry where
  | put (key manifest : Text) (code : ℕ)
  | get (key : Text) (code : ℕ) (manifest : Option Text)
deriving DecidableEq, Repr

/-- The mapping files, and what has been answered: the newest first. An answer is entered
with the last access to a file that it rests on. -/
structure Server where
  actions : Text → Option Text
  log : List Entry

/-- How far a request has come. Temporary files carry the number of a counter that gives
none twice, so that the text belongs to the thread. -/
inductive Handler where
  | idle
  | getting (key : Text)
  | looking (key manifest : Text)
  | creating (key manifest : Text)
  | replacing (key manifest temp : Text)
  | rechecking (key manifest : Text)
  | answered
  | dropped
deriving DecidableEq, Repr

def Server.answer (s : Server) (e : Entry) : Server := { s with log := e :: s.log }

def Server.rename (s : Server) (key temp : Text) : Server :=
  { s with actions := Function.update s.actions key (some temp) }

/-- The answer to a PUT that has found a mapping. -/
def compareCode (manifest existing : Text) : ℕ :=
  if firstLine existing = manifest then 200 else 409

def mappingAnswer (key : Text) : Option Text → Entry
  | none => .get key 404 none
  | some text =>
    if isHex (firstLine text) then .get key 200 (some (firstLine text)) else .get key 500 none

inductive HandleGetAction : Moves Server Handler
  | request {s : Server} {key : Text} (hkey : isDigest key) :
    HandleGetAction s .idle s (.getting key)
  | read {s : Server} {key : Text} :
    HandleGetAction s (.getting key) (s.answer (mappingAnswer key (s.actions key))) .answered

inductive HandlePutAction : Moves Server Handler
  | request {s : Server} {key manifest body : Text} (hkey : isDigest key)
    (hbody : mappingManifest body = some manifest) (hman : isDigest manifest) :
    HandlePutAction s .idle s (.looking key manifest)
  | invalid {s : Server} {body : Text} (hbody : ¬isDigest ((mappingManifest body).getD [])) :
    HandlePutAction s .idle s .answered
  | found {s : Server} {key manifest existing : Text} (h : s.actions key = some existing) :
    HandlePutAction s (.looking key manifest)
      (s.answer (.put key manifest (compareCode manifest existing))) .answered
  | absent {s : Server} {key manifest : Text} (h : s.actions key = none) :
    HandlePutAction s (.looking key manifest) s (.creating key manifest)
  -- every error of the read is taken for an absent file
  | unreadable {s : Server} {key manifest : Text} :
    HandlePutAction s (.looking key manifest) s (.creating key manifest)
  | create {s : Server} {key manifest : Text} :
    HandlePutAction s (.creating key manifest) s (.replacing key manifest (manifest ++ ['\n']))
  | rename {s : Server} {key manifest temp : Text} :
    HandlePutAction s (.replacing key manifest temp)
      ((s.rename key temp).answer (.put key manifest 200)) .answered
  | renameFailed {s : Server} {key manifest temp existing : Text}
    (h : s.actions key = some existing) :
    HandlePutAction s (.replacing key manifest temp) s (.rechecking key manifest)
  | recheck {s : Server} {key manifest existing : Text} (h : s.actions key = some existing) :
    HandlePutAction s (.rechecking key manifest)
      (s.answer (.put key manifest (compareCode manifest existing))) .answered
  | recheckFailed {s : Server} {key manifest : Text} :
    HandlePutAction s (.rechecking key manifest)
      (s.answer (.put key manifest (compareCode manifest []))) .answered

/-- A request may end without an answer at any point: an error, or a lost connection. -/
inductive HandleOne : Moves Server Handler
  | get {s t s' t'} (h : HandleGetAction s t s' t') : HandleOne s t s' t'
  | put {s t s' t'} (h : HandlePutAction s t s' t') : HandleOne s t s' t'
  | drop {s t} : HandleOne s t s .dropped

/-- What a later answer owes to an earlier one. -/
def Entry.Respects : Entry → Entry → Prop
  | .put key manifest code, .put key' manifest' code' =>
    code' = 200 → key = key' → manifest ≠ manifest' → code = 409
  | .get key code manifest, .put key' manifest' code' =>
    code' = 200 → key = key' → code = 200 ∧ manifest = some manifest'
  | _, .get .. => True

/-- Every answer respects the ones before it. -/
def Immutable (log : List Entry) : Prop := log.Pairwise Entry.Respects

/-- A PUT renames over no mapping of another manifest that was answered 200. -/
def Careful : Moves Server Handler := fun s t _ t' =>
  ∀ key manifest temp, t = .replacing key manifest temp → t' = .answered →
    ∀ earlier, Entry.put key earlier 200 ∈ s.log → earlier = manifest

structure Serving {ι : Type*} (c : Crowd ι Server Handler) : Prop where
  log : c.shared.log = []
  threads : ∀ i, c.threads i = .idle

/-- What was answered 200 stands in the mapping file. -/
structure Server.Keeps (s : Server) : Prop where
  immutable : Immutable s.log
  stored : ∀ key manifest, Entry.put key manifest 200 ∈ s.log →
    isHex manifest ∧ ∃ text, s.actions key = some text ∧ firstLine text = manifest

def Handler.Valid (_ : Server) : Handler → Prop
  | .looking _ manifest => isDigest manifest
  | .creating _ manifest => isDigest manifest
  | .replacing _ manifest temp => isDigest manifest ∧ temp = manifest ++ ['\n']
  | .rechecking _ manifest => isDigest manifest
  | _ => True

theorem mappingAnswer_get (key : Text) (text : Option Text) :
    ∃ code manifest, mappingAnswer key text = .get key code manifest := by
  cases text with
  | none => exact ⟨_, _, rfl⟩
  | some text =>
    simp only [mappingAnswer]
    split <;> exact ⟨_, _, rfl⟩

theorem isDigest_ne_nil {t : Text} (h : isDigest t) : t ≠ [] := by
  rintro rfl
  cases h

/-- Only an answered PUT binds the later answers. -/
theorem Server.Keeps.answer {s : Server} (h : s.Keeps) {e : Entry}
    (hrespects : ∀ key manifest, Entry.put key manifest 200 ∈ s.log →
      e.Respects (.put key manifest 200))
    (hstored : ∀ key manifest, e = .put key manifest 200 →
      isHex manifest ∧ ∃ text, s.actions key = some text ∧ firstLine text = manifest) :
    (s.answer e).Keeps where
  immutable := by
    apply List.Pairwise.cons _ h.immutable
    intro earlier hmem
    cases earlier with
    | get => cases e <;> trivial
    | put key manifest code =>
      have hr : code = 200 → e.Respects (.put key manifest 200) := by
        rintro rfl
        exact hrespects key manifest hmem
      cases e with
      | put => exact fun hcode => hr hcode rfl
      | get => exact fun hcode => hr hcode rfl
  stored := by
    intro key manifest hmem
    rcases List.mem_cons.mp hmem with he | hmem
    · exact hstored key manifest he.symm
    · exact h.stored key manifest hmem

theorem Server.Keeps.refuse {s : Server} (h : s.Keeps) (key manifest : Text) :
    (s.answer (.put key manifest 409)).Keeps := by
  apply h.answer
  · intro _ _ _ _ _ _
    rfl
  · intro _ _ he
    cases he

theorem Server.Keeps.found {s : Server} (h : s.Keeps) {key manifest existing : Text}
    (hman : isDigest manifest) (hfound : s.actions key = some existing) :
    (s.answer (.put key manifest (compareCode manifest existing))).Keeps := by
  by_cases hline : firstLine existing = manifest
  · rw [compareCode, if_pos hline]
    apply h.answer
    · intro key' manifest' hmem _ hkey hne
      obtain ⟨-, text, htext, hline'⟩ := h.stored key' manifest' hmem
      rw [← hkey, hfound] at htext
      rw [← Option.some.inj htext, hline] at hline'
      exact absurd hline' hne
    · intro key' manifest' he
      cases he
      exact ⟨isDigest_isHex hman, existing, hfound, hline⟩
  · rw [compareCode, if_neg hline]
    exact h.refuse key manifest

theorem Server.Keeps.mapping {s : Server} (h : s.Keeps) (key : Text) :
    (s.answer (mappingAnswer key (s.actions key))).Keeps := by
  obtain ⟨code, manifest, hget⟩ := mappingAnswer_get key (s.actions key)
  apply h.answer
  · intro key' manifest' hmem
    by_cases hkey : key = key'
    · subst hkey
      obtain ⟨hhex, text, htext, hline⟩ := h.stored key manifest' hmem
      simp only [htext, mappingAnswer, hline, hhex, if_true]
      exact fun _ _ => ⟨rfl, rfl⟩
    · rw [hget]
      exact fun _ he => absurd he hkey
  · intro key' manifest' he
    rw [hget] at he
    cases he

/-- Renaming over the mapping of no other answered manifest. -/
theorem Server.Keeps.rename {s : Server} (h : s.Keeps) {key manifest : Text}
    (hman : isDigest manifest)
    (hcareful : ∀ earlier, Entry.put key earlier 200 ∈ s.log → earlier = manifest) :
    ((s.rename key (manifest ++ ['\n'])).answer (.put key manifest 200)).Keeps := by
  have hhex := isDigest_isHex hman
  have hrenamed : (s.rename key (manifest ++ ['\n'])).Keeps := by
    constructor
    · exact h.immutable
    · intro key' manifest' hmem
      by_cases hkey : key' = key
      · subst hkey
        rw [hcareful manifest' hmem]
        exact ⟨hhex, _, Function.update_self .., firstLine_of_hex hhex⟩
      · obtain ⟨hhex', text, htext, hline⟩ := h.stored key' manifest' hmem
        exact ⟨hhex', text, (Function.update_of_ne hkey ..).trans htext, hline⟩
  apply hrenamed.answer
  · intro key' manifest' hmem _ hkey hne
    rw [← hkey] at hmem
    exact absurd (hcareful manifest' hmem).symm hne
  · intro key' manifest' he
    cases he
    exact ⟨hhex, _, Function.update_self .., firstLine_of_hex hhex⟩

theorem handlePutAction_keeps {s s' : Server} {t t' : Handler} (h : HandlePutAction s t s' t')
    (hcareful : Careful s t s' t') (hs : s.Keeps) (ht : t.Valid s) : s'.Keeps := by
  cases h with
  | request => exact hs
  | invalid => exact hs
  | absent => exact hs
  | unreadable => exact hs
  | create => exact hs
  | renameFailed => exact hs
  | found hfound => exact hs.found ht hfound
  | recheck hfound => exact hs.found ht hfound
  | recheckFailed =>
    rw [compareCode, if_neg (show firstLine [] ≠ _ from (isDigest_ne_nil ht).symm)]
    exact hs.refuse _ _
  | rename =>
    obtain ⟨hman, rfl⟩ := ht
    exact hs.rename hman (hcareful _ _ _ rfl rfl)

theorem handlePutAction_valid {s s' : Server} {t t' : Handler} (h : HandlePutAction s t s' t')
    (ht : t.Valid s) : t'.Valid s' := by
  cases h with
  | request _ _ hman => exact hman
  | create => exact ⟨ht, rfl⟩
  | renameFailed => exact ht.1
  | absent => exact ht
  | unreadable => exact ht
  | _ => trivial

theorem Handler.Valid.of_server {s s' : Server} {t : Handler} (h : t.Valid s) : t.Valid s' := by
  cases t <;> exact h

theorem handleOne_keeps : Keeps (HandleOne.given Careful) Server.Keeps fun s t => t.Valid s where
  shared := by
    rintro s t s' t' ⟨h, hcareful⟩ hs ht
    cases h with
    | get h =>
      cases h with
      | request => exact hs
      | read => exact hs.mapping _
    | put h => exact handlePutAction_keeps h hcareful hs ht
    | drop => exact hs
  own := by
    rintro s t s' t' ⟨h, -⟩ - ht
    cases h with
    | get h => cases h <;> trivial
    | put h => exact handlePutAction_valid h ht
    | drop => trivial
  others _ _ _ hu := hu.of_server

theorem handleOne_log {s s' : Server} {t t' : Handler} (h : HandleOne s t s' t') :
    s.log <:+ s'.log := by
  cases h with
  | get h =>
    cases h with
    | request => exact List.suffix_refl _
    | read => exact List.suffix_cons ..
  | put h =>
    cases h with
    | found => exact List.suffix_cons ..
    | rename => exact List.suffix_cons ..
    | recheck => exact List.suffix_cons ..
    | recheckFailed => exact List.suffix_cons ..
    | _ => exact List.suffix_refl _
  | drop => exact List.suffix_refl _

theorem handleOne_careful {s s' : Server} {t t' : Handler} (h : HandleOne s t s' t')
    (himm : Immutable s'.log) : Careful s t s' t' := by
  rintro key manifest temp rfl rfl earlier hmem
  cases h with
  | get h => cases h
  | put h =>
    cases h with
    | rename =>
      by_contra hne
      have hlater := (List.pairwise_cons.mp himm).1 _ hmem
      cases hlater rfl rfl (Ne.symm hne)

variable {ι : Type*} [DecidableEq ι] {c₀ c : Crowd ι Server Handler}

/-- In every interleaving of any number of requests: the mappings that were answered 200
are immutable exactly when no PUT has renamed over the answered mapping of another
manifest. -/
theorem mappings_immutable_iff (start : Serving c₀)
    (run : ReflTransGen (Crowd.Step HandleOne) c₀ c) :
    Immutable c.shared.log ↔ ReflTransGen (Crowd.Step (HandleOne.given Careful)) c₀ c := by
  have hinit : c₀.Holds Server.Keeps fun s t => t.Valid s := by
    constructor
    · constructor
      · rw [start.log]
        exact .nil
      · rw [start.log]
        intro _ _ hmem
        cases hmem
    · intro i
      rw [start.threads i]
      trivial
  apply handleOne_keeps.run_iff (P := fun s => Immutable s.log) (fun _ h => h.immutable) _ _ hinit run
  · intro s t s' t' h himm
    exact List.Pairwise.sublist (handleOne_log h).sublist himm
  · intro s t s' t' h _ himm
    exact handleOne_careful h himm

def emptyServer : Crowd Bool Server Handler :=
  ⟨{ actions := fun _ => none, log := [] }, fun _ => .idle⟩

theorem serving_emptyServer : Serving emptyServer := ⟨rfl, fun _ => rfl⟩

def digest (c : Char) : Text := List.replicate 64 c

theorem handlePutAction_request {s : Server} (c d : Char) (hc : isDigest (digest c))
    (hd : isDigest (digest d)) : HandleOne s .idle s (.looking (digest c) (digest d)) :=
  .put (.request hc (mappingManifest_mappingJson (isDigest_isHex hd)) hd)

/-- One PUT after the other: the second one is refused. -/
theorem mappings_immutable_second_refused :
    ∃ c : Crowd Bool Server Handler, c.shared.log =
        [.put (digest 'a') (digest 'c') 409, .put (digest 'a') (digest 'b') 200] ∧
      Immutable c.shared.log := by
  have run : ReflTransGen (Crowd.Step (HandleOne.given Careful)) emptyServer _ :=
    .tail (.tail (.tail (.tail (.tail (.tail .refl
      (.move true ⟨handlePutAction_request 'a' 'b' (by decide) (by decide), nofun⟩))
      (.move true ⟨.put (.absent rfl), nofun⟩))
      (.move true ⟨.put .create, nofun⟩))
      (.move true ⟨.put .rename, nofun⟩))
      (.move false ⟨handlePutAction_request 'a' 'c' (by decide) (by decide), nofun⟩))
      (.move false ⟨.put (.found rfl), nofun⟩)
  exact ⟨_, rfl, (mappings_immutable_iff serving_emptyServer
    (ReflTransGen.mono (fun _ _ h => h.of_given) _ _ run)).mpr run⟩

/-- Two PUTs that both find no mapping: both are answered 200. -/
theorem not_mappings_immutable :
    ¬∀ c₀ c : Crowd Bool Server Handler, Serving c₀ → ReflTransGen (Crowd.Step HandleOne) c₀ c →
      Immutable c.shared.log := by
  intro h
  have run : ReflTransGen (Crowd.Step HandleOne) emptyServer _ :=
    .tail (.tail (.tail (.tail (.tail (.tail (.tail (.tail .refl
      (.move true (handlePutAction_request 'a' 'b' (by decide) (by decide))))
      (.move false (handlePutAction_request 'a' 'c' (by decide) (by decide))))
      (.move true (.put (.absent rfl))))
      (.move false (.put (.absent rfl))))
      (.move true (.put .create)))
      (.move false (.put .create)))
      (.move true (.put .rename)))
      (.move false (.put .rename))
  have himm := h _ _ serving_emptyServer run
  have hlater := (List.pairwise_cons.mp himm).1 (.put (digest 'a') (digest 'b') 200)
    List.mem_cons_self
  have hne : digest 'c' ≠ digest 'b' := by decide
  cases hlater rfl rfl hne

end Redo.Remote
