import Redo.Library.LinklessWays
import Redo.Remote.Exec

/-! # What an execution can reach on the server

The outputs are collected along four paths of the request. As long as no link stands on these ways,
the collection looks at the directory of the execution, the blob store and the directories above
them, and changes the first two only.
-/
namespace Redo.Remote
open Library Cache

/-- The directory of an execution or the blob store, or a directory above them. -/
def Config.Inside (cfg : Config) (c : ℕ) (p : List Text) : Prop :=
  cfg.workHost c <+: p ∨ cfg.root ++ ["blobs".toList] <+: p ∨
    p <+: cfg.workHost c ∨ p <+: cfg.root ++ ["blobs".toList]

def Config.InsideSpot (cfg : Config) (c : ℕ) : Option (List Text) → Prop
  | none => True
  | some p => cfg.Inside c p

/-- What the server may change. -/
def Config.Own (cfg : Config) (c : ℕ) (p : List Text) : Prop :=
  cfg.workHost c <+: p ∨ cfg.root ++ ["blobs".toList] <+: p

/-- Areas that no link has led out of. -/
def Config.Stays (cfg : Config) (c : ℕ) : Spots → Prop
  | none => True
  | some (.entry p) => cfg.Inside c p
  | some (.below p) => cfg.Own c p

instance (cfg : Config) (c : ℕ) : DecidablePred (cfg.Stays c) := fun a =>
  match a with
  | none => .isTrue trivial
  | some (.entry _) => inferInstanceAs (Decidable (_ ∨ _ ∨ _ ∨ _))
  | some (.below _) => inferInstanceAs (Decidable (_ ∨ _))

/-- Two servers that differ only in files outside. -/
structure SameInside (cfg : Config) (c : ℕ) (s s' : Host) : Prop where
  counter : s.counter = s'.counter
  inside : ∀ p, cfg.Inside c p → s.tree.node p = s'.tree.node p

structure OutsideKept (cfg : Config) (c : ℕ) (s s' : Host) : Prop where
  outside : ∀ p, ¬cfg.Own c p → s'.tree.node p = s.tree.node p

section
variable {cfg : Config} {c : ℕ} {α : Type}

theorem Config.Stays.inside {a : Spots} (h : cfg.Stays c a) {spot : Option (List Text)}
    (hspot : a.covers spot) : cfg.InsideSpot c spot := by
  match a, spot with
  | _, none => trivial
  | some (.entry q), some p =>
    have hq : p = q := hspot
    rw [hq]
    exact h
  | some (.below q), some p =>
    have hq : q <+: p := hspot
    rcases h with h | h
    · exact .inl (h.trans hq)
    · exact .inr (.inl (h.trans hq))

theorem Config.Stays.own {a : Spots} (h : cfg.Stays c a) {p : List Text}
    (hp : a.changes (some p)) : cfg.Own c p := by
  match a with
  | some (.below q) =>
    rcases h with h | h
    · exact .inl (h.trans hp)
    · exact .inr (h.trans hp)

theorem Serve.outsideKept (p : Serve α) {s : Host}
    (h : ∀ a ∈ (p.run (FileOp.act cfg) s).touched, cfg.Stays c a) :
    OutsideKept cfg c s (p.run (FileOp.act cfg) s).after := by
  constructor
  intro q hq
  have hframe := Script.run_frames (FileOp.act_frames cfg) p s (some q)
    fun a ha hchanges => hq ((h a ha).own hchanges)
  simpa [Host.view] using hframe

/-- A program that stays inside does the same on two servers that differ only outside. -/
theorem Serve.same (p : Serve α) {s s' : Host} (hsame : SameInside cfg c s s')
    (h : ∀ a ∈ (p.run (FileOp.act cfg) s).touched, cfg.Stays c a) :
    (p.run (FileOp.act cfg) s').answer = (p.run (FileOp.act cfg) s).answer ∧
      (p.run (FileOp.act cfg) s').touched = (p.run (FileOp.act cfg) s).touched ∧
      SameInside cfg c (p.run (FileOp.act cfg) s).after (p.run (FileOp.act cfg) s').after := by
  have hlocal := Script.run_local (FileOp.act_local cfg) p
  have hregion : ∀ a ∈ (p.run (FileOp.act cfg) s).touched, ∀ spot, a.covers spot →
      cfg.InsideSpot c spot := fun a ha spot hspot => (h a ha).inside hspot
  have hview : ∀ spot, cfg.InsideSpot c spot → s.view spot = s'.view spot := by
    intro spot hspot
    cases spot with
    | none => exact congrArg Sum.inl hsame.counter
    | some q => exact congrArg Sum.inr (hsame.inside q hspot)
  have hagree : Agree Spots.covers Host.view (p.run (FileOp.act cfg) s).touched s s' :=
    fun a ha spot hspot => hview spot (hregion a ha spot hspot)
  have hafter := (hlocal.within hregion hview).2.1
  refine ⟨hlocal.answer s s' hagree, hlocal.touched s s' hagree, ?_, ?_⟩
  · simpa [Host.view] using hafter none trivial
  · intro q hq
    simpa [Host.view] using hafter (some q) hq

end

def ExecRequest.outputs (req : ExecRequest) : List Text :=
  [req.targetRel, req.tmpRel, req.depsOut0Rel, req.traceOut0Rel]

/-- The entry that a path of the request names. -/
def Config.entry (cfg : Config) (c : ℕ) (rel : Text) : List Text := Hop.names (relPath (cfg.workHost c) rel)

/-- Entries on the ways to the outputs, and those of the blob store. -/
def Config.Way (cfg : Config) (c : ℕ) (req : ExecRequest) (p : List Text) : Prop :=
  (∃ rel ∈ req.outputs, p <+: cfg.entry c rel) ∨ cfg.root ++ ["blobs".toList] <+: p ∨
    p <+: cfg.root ++ ["blobs".toList]

/-- The directory of the execution is there, and no link stands on the ways of the collection. -/
structure Config.Linkless (cfg : Config) (c : ℕ) (req : ExecRequest) (t : Tree Text UInt8) : Prop where
  dirs : ∀ q, q <+: cfg.workHost c → t.node q = some .dir
  ways : ∀ p, cfg.Way c req p → ∀ fromRoot target, t.node p ≠ some (.link fromRoot target)

/-- And none comes there when a directory in the place of `$3` becomes the target. -/
structure Config.LinklessLeft (cfg : Config) (c : ℕ) (req : ExecRequest) (t : Tree Text UInt8) : Prop
    extends cfg.Linkless c req t where
  moved : ∀ rest, (∃ rel ∈ req.outputs, cfg.entry c req.targetRel ++ rest <+: cfg.entry c rel) →
    ∀ fromRoot target, t.node (cfg.entry c req.tmpRel ++ rest) ≠ some (.link fromRoot target)

section
variable {cfg : Config} {c : ℕ} {req : ExecRequest} {t t' : Tree Text UInt8} {p q : List Text}

theorem Config.entry_eq (cfg : Config) (c : ℕ) (rel : Text) :
    cfg.entry c rel = cfg.workHost c ++ Hop.names (relHops rel) := by
  rw [entry, relPath, names_append, names_down]

theorem Config.workHost_entry (cfg : Config) (c : ℕ) (rel : Text) : cfg.workHost c <+: cfg.entry c rel := by
  rw [cfg.entry_eq]
  exact List.prefix_append _ _

theorem Config.root_workHost (cfg : Config) (c : ℕ) : cfg.root <+: cfg.workHost c := List.prefix_append _ _

/-- The executions do not lie in the blob store. -/
theorem Config.not_blobs_workHost (h : cfg.root ++ ["blobs".toList] <+: p) (h' : cfg.workHost c <+: p) : False := by
  obtain ⟨rest, rfl⟩ := h
  rw [Config.workHost, List.append_assoc, List.prefix_append_right_inj] at h'
  have hhead := List.cons_prefix_cons.mp h'
  exact absurd hhead.1 (by decide)

/-- What is above the blob store is above the executions. -/
theorem Config.above_blobs (h : p <+: cfg.root ++ ["blobs".toList]) :
    p = cfg.root ++ ["blobs".toList] ∨ p <+: cfg.workHost c := by
  rcases List.prefix_concat_iff.mp h with h | h
  · exact .inl h
  · exact .inr (h.trans (cfg.root_workHost c))

theorem Config.Way.above (h : cfg.Way c req p) (hq : q <+: p) : cfg.Way c req q := by
  rcases h with ⟨rel, hrel, h⟩ | h | h
  · exact .inl ⟨rel, hrel, hq.trans h⟩
  · rcases List.prefix_or_prefix_of_prefix h hq with h | h
    · exact .inr (.inl h)
    · exact .inr (.inr h)
  · exact .inr (.inr (hq.trans h))

theorem Config.Way.inside (h : cfg.Way c req p) : cfg.Inside c p := by
  rcases h with ⟨rel, -, h⟩ | h | h
  · rcases List.prefix_or_prefix_of_prefix (cfg.workHost_entry c rel) h with h | h
    · exact .inl h
    · exact .inr (.inr (.inl h))
  · exact .inr (.inl h)
  · exact .inr (.inr (.inr h))

namespace Config.Linkless
variable (h : cfg.Linkless c req t)
include h

theorem plain (hp : cfg.Way c req p) : t.Plain p := fun q hq => h.ways q (hp.above hq)

/-- What is no directory yet is the server's own to make. -/
theorem own (hp : cfg.Way c req p) (hdir : t.node p ≠ some .dir) : cfg.Own c p := by
  rcases hp.inside with hin | hin | hin | hin
  · exact .inl hin
  · exact .inr hin
  · exact absurd (h.dirs p hin) hdir
  · rcases Config.above_blobs hin with rfl | hin
    · exact .inr (List.prefix_refl _)
    · exact absurd (h.dirs p hin) hdir

theorem stays {touched : List (Area Text)} (hp : cfg.Way c req p) (hnear : t.Near p touched t') :
    ∀ a ∈ touched, cfg.Stays c (some a) := by
  intro a ha
  rcases hnear.touched a ha with ⟨q, hq, rfl⟩ | ⟨rfl, hdir⟩
  · exact (hp.above hq).inside
  · exact h.own hp hdir

theorem near {touched : List (Area Text)} (hnear : t.Near p touched t') : cfg.Linkless c req t' := by
  rcases hnear.after with rfl | ⟨hdir, ⟨n, hn, rfl⟩ | rfl⟩
  · exact h
  · refine ⟨fun q hq => ?_, fun q hq fromRoot target => ?_⟩
    · have hne : q ≠ p := fun heq => hdir (heq ▸ h.dirs q hq)
      simpa [hne] using h.dirs q hq
    · rw [Tree.node_put, Function.update_apply]
      split
      · exact fun heq => hn _ _ (Option.some.inj heq)
      · exact h.ways q hq fromRoot target
  · refine ⟨fun q hq => ?_, fun q hq fromRoot target => ?_⟩
    · rw [Tree.node_clear, if_neg]
      · exact h.dirs q hq
      · exact fun hpq => hdir (h.dirs p (hpq.trans hq))
    · rw [Tree.node_clear]
      split
      · exact Option.some_ne_none _ ∘ Eq.symm
      · exact h.ways q hq fromRoot target

end Config.Linkless

/-- Where a file or a directory goes within the execution or the blob store, no link comes on a way if
none stood where it came from. -/
theorem Config.Linkless.move {a b : List Text} (h : cfg.Linkless c req t)
    (hab : cfg.workHost c <+: a ∧ cfg.workHost c <+: b ∨
      cfg.root ++ ["blobs".toList] <+: a ∧ cfg.root ++ ["blobs".toList] <+: b)
    (hmoves : Kernel.Moves t a b t')
    (hlinks : ∀ rest, cfg.Way c req (b ++ rest) → ∀ fromRoot target,
      t.node (a ++ rest) ≠ some (.link fromRoot target)) :
    cfg.Linkless c req t' := by
  rw [hmoves.after]
  -- neither end is a directory above the execution
  have habove : ∀ q, q <+: cfg.workHost c → ¬b <+: q ∧ ¬a <+: q := by
    intro q hq
    rcases hab with ⟨ha, hb⟩ | ⟨ha, hb⟩
    · have htop : ∀ p, cfg.workHost c <+: p → p <+: q → p = cfg.workHost c := fun p hp hpq =>
        List.IsPrefix.eq_of_length_le (hpq.trans hq) hp.length_le
      refine ⟨fun hbq => ?_, fun haq => ?_⟩
      · have hbtop := htop b hb hbq
        rw [hbtop] at hmoves
        exact hmoves.there (hmoves.empty (h.dirs _ (List.prefix_refl _)) a ha hmoves.ne)
      · have hatop := htop a ha haq
        rw [hatop] at hmoves
        exact hmoves.notInto (h.dirs _ (List.prefix_refl _)) hb
    · refine ⟨fun hbq => ?_, fun haq => ?_⟩
      · exact Config.not_blobs_workHost (hb.trans (hbq.trans hq)) (List.prefix_refl _)
      · exact Config.not_blobs_workHost (ha.trans (haq.trans hq)) (List.prefix_refl _)
  refine ⟨fun q hq => ?_, fun q hq fromRoot target => ?_⟩
  · obtain ⟨hbq, haq⟩ := habove q hq
    rw [Tree.node_move, if_neg hbq, if_neg haq]
    exact h.dirs q hq
  · rw [Tree.node_move]
    split
    · next hbq =>
      obtain ⟨rest, rfl⟩ := hbq
      rw [List.drop_left]
      exact hlinks rest hq fromRoot target
    · split
      · exact Option.some_ne_none _ ∘ Eq.symm
      · exact h.ways q hq fromRoot target

theorem Config.LinklessLeft.near {touched : List (Area Text)} (h : cfg.LinklessLeft c req t)
    (hnear : t.Near p touched t') : cfg.LinklessLeft c req t' := by
  refine ⟨h.toLinkless.near hnear, fun rest hrest fromRoot target => ?_⟩
  rcases hnear.after with rfl | ⟨-, ⟨n, hn, rfl⟩ | rfl⟩
  · exact h.moved rest hrest fromRoot target
  · rw [Tree.node_put, Function.update_apply]
    split
    · exact fun heq => hn _ _ (Option.some.inj heq)
    · exact h.moved rest hrest fromRoot target
  · rw [Tree.node_clear]
    split
    · exact Option.some_ne_none _ ∘ Eq.symm
    · exact h.moved rest hrest fromRoot target

/-- What comes to a way below the target stood below the place of `$3`. -/
theorem Config.LinklessLeft.links (h : cfg.LinklessLeft c req t) (rest : List Text)
    (hway : cfg.Way c req (cfg.entry c req.targetRel ++ rest)) (fromRoot : Bool) (target : Path) :
    t.node (cfg.entry c req.tmpRel ++ rest) ≠ some (.link fromRoot target) := by
  have hwork : cfg.workHost c <+: cfg.entry c req.targetRel ++ rest :=
    (cfg.workHost_entry c _).trans (List.prefix_append _ _)
  rcases hway with hrel | hblobs | hblobs
  · exact h.moved rest hrel fromRoot target
  · exact (Config.not_blobs_workHost hblobs hwork).elim
  · rcases @Config.above_blobs cfg c _ hblobs with heq | habove
    · exact (Config.not_blobs_workHost (heq ▸ List.prefix_refl _) hwork).elim
    · -- the path is the directory of the execution itself
      have hnil : rest = [] := by
        have hlength := habove.length_le
        have hentry := (cfg.workHost_entry c req.targetRel).length_le
        rw [List.length_append] at hlength
        exact List.eq_nil_of_length_eq_zero (by omega)
      refine h.moved rest ⟨req.targetRel, by simp [ExecRequest.outputs], ?_⟩ fromRoot target
      rw [hnil, List.append_nil]

/-- A property of trees that calls on the ways keep. -/
structure Config.Guards (cfg : Config) (c : ℕ) (req : ExecRequest) (J : Tree Text UInt8 → Prop) : Prop where
  linkless : ∀ t, J t → cfg.Linkless c req t
  near : ∀ {t t' : Tree Text UInt8} {p : List Text} {touched : List (Area Text)}, J t → t.Near p touched t' → J t'

theorem Config.guards_linkless : cfg.Guards c req (cfg.Linkless c req) := ⟨fun _ h => h, fun h => h.near⟩

theorem Config.guards_linklessLeft : cfg.Guards c req (cfg.LinklessLeft c req) :=
  ⟨fun _ h => h.toLinkless, fun h => h.near⟩

/-- The program stays inside, and what is kept before is kept afterwards. -/
abbrev Serve.Stays (cfg : Config) (c : ℕ) (J J' : Tree Text UInt8 → Prop) {α : Type} (p : Serve α) : Prop :=
  p.Keeps (FileOp.act cfg) (cfg.Stays c) (fun s => J s.tree) fun s => J' s.tree

/-- A path that leads along a way. -/
structure Config.Along (cfg : Config) (c : ℕ) (req : ExecRequest) (path : Path) : Prop where
  noUp : Hop.up ∉ path
  way : cfg.Way c req (Hop.names path)

theorem Config.Way.along (h : cfg.Way c req p) : cfg.Along c req (p.map .down) where
  noUp := by simp
  way := by rwa [names_down]

section
variable {J : Tree Text UInt8 → Prop} (hJ : cfg.Guards c req J) {path : Path} (hpath : cfg.Along c req path)
include hJ hpath

theorem onTree_stays {α : Type} {k : Kernel Text UInt8 α}
    (hnear : ∀ t : Tree Text UInt8, t.Plain (Hop.names path) →
      t.Near (Hop.names path) (k.on t).touched (k.on t).after)
    (s : Host) (hs : J s.tree) :
    (∀ a ∈ (Host.onTree k s).touched, cfg.Stays c a) ∧ J (Host.onTree k s).after.tree := by
  have hlinkless := hJ.linkless _ hs
  have hnow := hnear s.tree (hlinkless.plain hpath.way)
  refine ⟨fun a ha => ?_, hJ.near hs hnow⟩
  obtain ⟨area, harea, rfl⟩ := List.mem_map.mp ha
  exact hlinkless.stays hpath.way hnow area harea

theorem metadata_stays : Serve.Stays cfg c J J (Serve.metadata path) :=
  Script.keeps_perform (onTree_stays hJ hpath fun _ => Kernel.metadata_near hpath.noUp)

theorem read_stays : Serve.Stays cfg c J J (Serve.read path) :=
  Script.keeps_perform (onTree_stays hJ hpath fun _ => Kernel.read_near hpath.noUp)

theorem create_stays : Serve.Stays cfg c J J (Serve.create path) :=
  Script.keeps_perform (onTree_stays hJ hpath fun _ h => Kernel.create_near hpath.noUp h cfg.newMode)

theorem append_stays (more : Bytes) : Serve.Stays cfg c J J (Serve.append path more) :=
  Script.keeps_perform (onTree_stays hJ hpath fun _ h => Kernel.append_near hpath.noUp h more)

theorem mkdir_stays : Serve.Stays cfg c J J (Serve.mkdir path) :=
  Script.keeps_perform (onTree_stays hJ hpath fun _ => Kernel.mkdir_near hpath.noUp)

theorem unlink_stays : Serve.Stays cfg c J J (Serve.unlink path) :=
  Script.keeps_perform (onTree_stays hJ hpath fun _ => Kernel.unlink_near hpath.noUp)

theorem pathExists_stays : Serve.Stays cfg c J J (Serve.pathExists path) :=
  (metadata_stays hJ hpath).bind fun _ => Script.keeps_pure _

theorem isDir_stays : Serve.Stays cfg c J J (Serve.isDir path) :=
  (metadata_stays hJ hpath).bind fun _ => Script.keeps_pure _

theorem write_stays (content : Bytes) : Serve.Stays cfg c J J (Serve.write path content) :=
  (create_stays hJ hpath).bind fun ok => by
    cases ok with
    | true => exact append_stays hJ hpath content
    | false => exact Script.keeps_pure _

end

theorem nextTmp_stays {J : Tree Text UInt8 → Prop} : Serve.Stays cfg c J J Serve.nextTmp :=
  Script.keeps_perform fun s hs => ⟨fun a ha => by rw [List.mem_singleton.mp ha]; trivial, hs⟩

theorem createDirs_stays {J : Tree Text UInt8 → Prop} (hJ : cfg.Guards c req J) (l : List Text)
    (h : cfg.Way c req l.reverse) : Serve.Stays cfg c J J (Serve.createDirs l) := by
  induction l with
  | nil => exact Script.keeps_pure _
  | cons name above ih =>
    have hpath : cfg.Along c req ((name :: above).reverse.map .down) := h.along
    have habove : cfg.Way c req above.reverse := h.above (by simp)
    refine (mkdir_stays hJ hpath).bind fun made => ?_
    cases made with
    | true => exact Script.keeps_pure _
    | false =>
      refine (isDir_stays hJ hpath).bind fun there => ?_
      cases there with
      | true => exact Script.keeps_pure _
      | false =>
        refine (ih habove).bind fun ok => ?_
        cases ok with
        | false => exact Script.keeps_pure _
        | true =>
          refine (mkdir_stays hJ hpath).bind fun made => ?_
          cases made with
          | true => exact Script.keeps_pure _
          | false => exact isDir_stays hJ hpath

theorem createDirAll_stays {J : Tree Text UInt8 → Prop} (hJ : cfg.Guards c req J) (h : cfg.Way c req p) :
    Serve.Stays cfg c J J (Serve.createDirAll p) :=
  createDirs_stays hJ p.reverse (by rwa [List.reverse_reverse])

section
variable {a b : List Text}

/-- A file goes from one place of the blob store to another. -/
theorem rename_blob_stays (ha : cfg.root ++ ["blobs".toList] <+: a) (hb : cfg.root ++ ["blobs".toList] <+: b) :
    Serve.Stays cfg c (cfg.Linkless c req) (cfg.Linkless c req) (Serve.rename (a.map .down) (b.map .down)) := by
  refine Script.keeps_perform fun s hs => ?_
  have hway : ∀ {p}, cfg.root ++ ["blobs".toList] <+: p → cfg.Way c req p := fun h => .inr (.inl h)
  have hplain : s.tree.Plain (Hop.names (a.map .down)) := by
    rw [names_down]
    exact hs.plain (hway ha)
  have hplain' : s.tree.Plain (Hop.names (b.map .down)) := by
    rw [names_down]
    exact hs.plain (hway hb)
  obtain ⟨htouched, hafter⟩ := Kernel.rename_linkless (by simp) (by simp) hplain hplain'
  rw [names_down, names_down] at htouched hafter
  constructor
  · intro spot hspot
    obtain ⟨area, harea, rfl⟩ := List.mem_map.mp hspot
    rcases htouched area harea with ⟨q, hq | hq, rfl⟩ | rfl | rfl
    · exact ((hway ha).above hq).inside
    · exact ((hway hb).above hq).inside
    · exact .inr ha
    · exact .inr hb
  · rcases hafter with hsame | hmoves
    · change cfg.Linkless c req ((Kernel.rename _ _).on s.tree).after
      rw [hsame]
      exact hs
    · exact hs.move (.inr ⟨ha, hb⟩) hmoves fun rest _ => hs.ways _ (hway (ha.trans (List.prefix_append _ _)))

end

section
variable {H : Hashing Bytes} {J : Tree Text UInt8 → Prop}

/-- What lies in a bucket of the blob store. -/
theorem blobs_bucketDir (cfg : Config) (key : Text) (rest : List Text) :
    cfg.root ++ ["blobs".toList] <+: bucketDir cfg.root "blobs".toList key ++ rest := by
  rw [bucketDir, List.append_assoc]
  exact (List.prefix_append_right_inj _).mpr ⟨key.take 2 :: rest, rfl⟩

theorem bucketDir_way (key : Text) : cfg.Way c req (bucketDir cfg.root "blobs".toList key) := by
  have h := blobs_bucketDir cfg key []
  rw [List.append_nil] at h
  exact .inr (.inl h)

theorem along_blobs (h : cfg.root ++ ["blobs".toList] <+: p) : cfg.Along c req (p.map .down) :=
  Config.Way.along (.inr (.inl h))

theorem settle_stays {tmp dest : List Text} (htmp : cfg.root ++ ["blobs".toList] <+: tmp)
    (hdest : cfg.root ++ ["blobs".toList] <+: dest) :
    Serve.Stays cfg c (cfg.Linkless c req) (cfg.Linkless c req) (Serve.settle tmp dest) := by
  refine (rename_blob_stays htmp hdest).bind fun moved => ?_
  cases moved with
  | true => exact Script.keeps_pure _
  | false =>
    refine (pathExists_stays Config.guards_linkless (along_blobs hdest)).bind fun there => ?_
    cases there <;>
      exact (unlink_stays Config.guards_linkless (along_blobs htmp)).bind fun _ => Script.keeps_pure _

theorem storeBlobBytesKnown_stays (sha256Hex : Text) (bytes : Bytes) :
    Serve.Stays cfg c (cfg.Linkless c req) (cfg.Linkless c req) (Serve.storeBlobBytesKnown H cfg sha256Hex bytes) := by
  have hJ := @Config.guards_linkless cfg c req
  have hdest : cfg.root ++ ["blobs".toList] <+: blobPath cfg.root sha256Hex := blobs_bucketDir cfg _ _
  rw [Serve.storeBlobBytesKnown]
  split
  · exact Script.keeps_pure _
  · refine (createDirAll_stays hJ (bucketDir_way sha256Hex)).bind fun made => ?_
    cases made with
    | false => exact Script.keeps_pure _
    | true =>
      refine (pathExists_stays hJ (along_blobs hdest)).bind fun there => ?_
      cases there with
      | true => exact Script.keeps_pure _
      | false =>
        refine nextTmp_stays.bind fun n => ?_
        have htmp : cfg.root ++ ["blobs".toList] <+: cfg.tmpPath sha256Hex n := blobs_bucketDir cfg _ _
        refine (write_stays hJ (along_blobs htmp) bytes).bind fun written => ?_
        cases written with
        | true => exact settle_stays htmp hdest
        | false => exact Script.keeps_pure _

theorem storeBlobBytes_stays (bytes : Bytes) :
    Serve.Stays cfg c (cfg.Linkless c req) (cfg.Linkless c req) (Serve.storeBlobBytes H cfg bytes) :=
  (storeBlobBytesKnown_stays _ bytes).bind fun stored => by
    cases stored <;> exact Script.keeps_pure _

theorem copyHashed_stays {src : Path} (hsrc : cfg.Along c req src) {tmp : List Text}
    (htmp : cfg.root ++ ["blobs".toList] <+: tmp) :
    Serve.Stays cfg c (cfg.Linkless c req) (cfg.Linkless c req) (Serve.copyHashed src tmp) := by
  have hJ := @Config.guards_linkless cfg c req
  refine (read_stays hJ hsrc).bind fun first => ?_
  split
  · refine (create_stays hJ (along_blobs htmp)).bind fun created => ?_
    cases created with
    | false => exact Script.keeps_pure _
    | true =>
      refine (read_stays hJ hsrc).bind fun content => ?_
      cases content with
      | none => exact Script.keeps_pure _
      | some content =>
        refine (append_stays hJ (along_blobs htmp) content).bind fun written => ?_
        cases written <;> exact Script.keeps_pure _
  · exact Script.keeps_pure _

theorem storeBlobFromFileCompute_stays {src : Path} (hsrc : cfg.Along c req src) :
    Serve.Stays cfg c (cfg.Linkless c req) (cfg.Linkless c req) (Serve.storeBlobFromFileCompute H cfg src) := by
  have hJ := @Config.guards_linkless cfg c req
  refine (metadata_stays hJ hsrc).bind fun kind => ?_
  match kind with
  | none => exact Script.keeps_pure _
  | some .dir => exact Script.keeps_pure _
  | some (.file size mode) =>
    refine nextTmp_stays.bind fun n => ?_
    have htmp : cfg.root ++ ["blobs".toList] <+: cfg.tmpFile n := by
      rw [Config.tmpFile]
      exact (List.prefix_append_right_inj _).mpr ⟨_, rfl⟩
    refine (createDirAll_stays hJ (.inr (.inl (List.prefix_refl _)))).bind fun made => ?_
    cases made with
    | false => exact Script.keeps_pure _
    | true =>
      refine (copyHashed_stays hsrc htmp).bind fun content => ?_
      cases content with
      | none => exact Script.keeps_pure _
      | some content =>
        have hdest : cfg.root ++ ["blobs".toList] <+: blobPath cfg.root (H.sha content) := blobs_bucketDir cfg _ _
        refine (createDirAll_stays hJ (bucketDir_way (H.sha content))).bind fun made => ?_
        cases made with
        | false => exact Script.keeps_pure _
        | true =>
          refine (pathExists_stays hJ (along_blobs hdest)).bind fun there => ?_
          cases there with
          | true => exact (unlink_stays hJ (along_blobs htmp)).bind fun _ => Script.keeps_pure _
          | false =>
            refine (settle_stays htmp hdest).bind fun settled => ?_
            cases settled <;> exact Script.keeps_pure _

end

/-- The components of a path are its names, but for the dots. -/
theorem names_relHops (rel : Text) : (components rel).filterMap Component.name = Hop.names (relHops rel) := by
  have hpart : ∀ part, (component part).bind Component.name = (hop part).name := fun part => by
    rw [component, hop]
    split_ifs <;> simp_all [Component.name, Hop.name]
  have hempty : ∀ parts : List Text, Hop.names ((parts.filter (· ≠ [])).map hop) = Hop.names (parts.map hop) := by
    intro parts
    induction parts with
    | nil => rfl
    | cons part parts ih =>
      by_cases hnil : part = []
      · subst hnil
        rw [List.filter_cons_of_neg (by simp), ih]
        rfl
      · rw [List.filter_cons_of_pos (by simpa using hnil), List.map_cons, List.map_cons, Hop.names,
          List.filterMap_cons, Hop.names, List.filterMap_cons]
        rw [Hop.names, Hop.names] at ih
        rw [ih]
  have hfront : ∀ front : List Component, (front = [.rootDir] ∨ front = [.curDir] ∨ front = []) →
      front.filterMap Component.name = [] := by
    rintro front (rfl | rfl | rfl) <;> rfl
  rw [components, List.filterMap_append, hfront _ (by split_ifs <;> simp), List.nil_append, List.filterMap_filterMap]
  simp only [hpart]
  rw [relHops, names_append, hempty, ← names_append]
  have hparts : (rel.splitOn '/').dropLast.map hop ++ ((rel.splitOn '/').getLast?.map hop).toList =
      (rel.splitOn '/').map hop := by
    conv_rhs => rw [← List.dropLast_append_getLast (List.splitOn_ne_nil '/' rel)]
    rw [List.map_append, List.getLast?_eq_some_getLast (List.splitOn_ne_nil '/' rel)]
    rfl
  rw [hparts, Hop.names, List.filterMap_map]
  rfl

/-- A path of an accepted request does not lead up. -/
theorem noUp_relHops {rel : Text} (h : safeRelPath rel = true) : Hop.up ∉ relHops rel := by
  have hpart : ∀ part ∈ rel.splitOn '/', hop part ≠ .up := by
    intro part hpart hup
    have hdots : part = ['.', '.'] := by
      rw [hop] at hup
      split_ifs at hup with hnil hdot hdots
      exact hdots
    have hmem : Component.parentDir ∈ components rel := by
      rw [components]
      exact List.mem_append_right _ (List.mem_filterMap.mpr ⟨part, hpart, by rw [hdots]; rfl⟩)
    rw [safeRelPath, Bool.and_eq_true, List.all_eq_true] at h
    exact absurd (h.2 _ hmem) (by decide)
  intro hmem
  rw [relHops, List.mem_append] at hmem
  rcases hmem with hmem | hmem
  · obtain ⟨part, hp, hup⟩ := List.mem_map.mp hmem
    exact hpart part (List.mem_of_mem_dropLast (List.mem_of_mem_filter hp)) hup
  · rw [Option.mem_toList, Option.map_eq_some_iff] at hmem
    obtain ⟨part, hp, hup⟩ := hmem
    exact hpart part (List.mem_of_getLast? hp) hup

theorem along_output {rel : Text} (hrel : rel ∈ req.outputs) (hsafe : safeRelPath rel = true) :
    cfg.Along c req (relPath (cfg.workHost c) rel) where
  noUp := by
    rw [relPath, List.mem_append]
    rintro (h | h)
    · simp at h
    · exact noUp_relHops hsafe h
  way := .inl ⟨rel, hrel, List.prefix_refl _⟩

theorem relParent_way {rel : Text} (hrel : rel ∈ req.outputs) : cfg.Way c req (relParent (cfg.workHost c) rel) := by
  rw [relParent, names_relHops, ← cfg.entry_eq]
  exact .inl ⟨rel, hrel, List.dropLast_prefix _⟩

/-- All four paths are ones that the server has accepted. -/
structure ExecRequest.Safe (req : ExecRequest) : Prop where
  outputs : ∀ rel ∈ req.outputs, safeRelPath rel = true

theorem ExecRequest.safe_of_accepted (h : req.refused = none) : req.Safe := by
  rw [refused] at h
  split_ifs at h with hschema hargv hpaths
  simp only [Bool.or_eq_true, Bool.not_eq_true', not_or, Bool.not_eq_false] at hpaths
  constructor
  simp only [outputs, List.forall_mem_cons]
  obtain ⟨⟨⟨⟨-, htarget⟩, htmp⟩, hdeps⟩, htrace⟩ := hpaths
  exact ⟨htarget, htmp, hdeps, htrace, fun _ h => absurd h List.not_mem_nil⟩

section
variable {H : Hashing Bytes} {ran : Ran} (hsafe : req.Safe)
include hsafe

theorem along_target : cfg.Along c req (relPath (cfg.workHost c) req.targetRel) :=
  along_output (by simp [ExecRequest.outputs]) (hsafe.outputs _ (by simp [ExecRequest.outputs]))

theorem along_tmp : cfg.Along c req (relPath (cfg.workHost c) req.tmpRel) :=
  along_output (by simp [ExecRequest.outputs]) (hsafe.outputs _ (by simp [ExecRequest.outputs]))

theorem along_deps : cfg.Along c req (relPath (cfg.workHost c) req.depsOut0Rel) :=
  along_output (by simp [ExecRequest.outputs]) (hsafe.outputs _ (by simp [ExecRequest.outputs]))

theorem along_trace : cfg.Along c req (relPath (cfg.workHost c) req.traceOut0Rel) :=
  along_output (by simp [ExecRequest.outputs]) (hsafe.outputs _ (by simp [ExecRequest.outputs]))

/-- What is in the place of `$3` goes to the place of the target. -/
theorem rename_output_stays : Serve.Stays cfg c (cfg.LinklessLeft c req) (cfg.Linkless c req)
    (Serve.rename (relPath (cfg.workHost c) req.tmpRel) (relPath (cfg.workHost c) req.targetRel)) := by
  refine Script.keeps_perform fun s hs => ?_
  have htmp := @along_tmp cfg c req hsafe
  have htarget := @along_target cfg c req hsafe
  obtain ⟨htouched, hafter⟩ :=
    Kernel.rename_linkless htmp.noUp htarget.noUp (hs.plain htmp.way) (hs.plain htarget.way)
  constructor
  · intro spot hspot
    obtain ⟨area, harea, rfl⟩ := List.mem_map.mp hspot
    rcases htouched area harea with ⟨q, hq | hq, rfl⟩ | rfl | rfl
    · exact (htmp.way.above hq).inside
    · exact (htarget.way.above hq).inside
    · exact .inl (cfg.workHost_entry c _)
    · exact .inl (cfg.workHost_entry c _)
  · rcases hafter with hsame | hmoves
    · change cfg.Linkless c req ((Kernel.rename _ _).on s.tree).after
      rw [hsame]
      exact hs.toLinkless
    · exact hs.toLinkless.move (.inl ⟨cfg.workHost_entry c _, cfg.workHost_entry c _⟩) hmoves fun rest hway =>
        hs.links rest hway

theorem writeStdout_stays (stdout : Bytes) : Serve.Stays cfg c (cfg.LinklessLeft c req) (cfg.LinklessLeft c req)
    (Serve.writeStdout (cfg.workHost c) req stdout) := by
  rw [Serve.writeStdout]
  split
  · exact Script.keeps_pure _
  · refine (createDirAll_stays Config.guards_linklessLeft
      (relParent_way (by simp [ExecRequest.outputs]))).bind fun _ => ?_
    exact (write_stays Config.guards_linklessLeft (along_tmp hsafe) stdout).bind fun _ => Script.keeps_pure _

theorem moveOutput_stays : Serve.Stays cfg c (cfg.LinklessLeft c req) (cfg.Linkless c req)
    (Serve.moveOutput (cfg.workHost c) req) := by
  refine (pathExists_stays Config.guards_linklessLeft (along_tmp hsafe)).bind fun there => ?_
  cases there with
  | true =>
    refine (createDirAll_stays Config.guards_linklessLeft
      (relParent_way (by simp [ExecRequest.outputs]))).bind fun _ => ?_
    exact (rename_output_stays hsafe).bind fun _ => Script.keeps_pure _
  | false =>
    refine ((unlink_stays Config.guards_linkless (along_target hsafe)).mono (fun s hs => ?_) fun _ h => h).bind
      fun _ => Script.keeps_pure _
    exact hs.toLinkless

theorem produce_stays : Serve.Stays cfg c (cfg.LinklessLeft c req) (cfg.Linkless c req)
    (Serve.produce (cfg.workHost c) req ran) := by
  have hdone : ∀ code : ℕ,
      Serve.Stays cfg c (cfg.LinklessLeft c req) (cfg.Linkless c req) (pure code) := fun code =>
    (Script.keeps_pure code).mono (fun _ h => h) fun _ h => h.toLinkless
  refine (pathExists_stays Config.guards_linklessLeft (along_tmp hsafe)).bind fun there => ?_
  split
  · exact hdone _
  · split
    · exact hdone _
    · refine (writeStdout_stays hsafe ran.stdout).bind fun _ => ?_
      exact (moveOutput_stays hsafe).bind fun _ => Script.keeps_pure _

theorem ensureTrace_stays : Serve.Stays cfg c (cfg.Linkless c req) (cfg.Linkless c req)
    (Serve.ensureTrace H (cfg.workHost c) req) := by
  refine (pathExists_stays Config.guards_linkless (along_trace hsafe)).bind fun there => ?_
  cases there with
  | true => exact Script.keeps_pure _
  | false => exact (write_stays Config.guards_linkless (along_trace hsafe) _).bind fun _ => Script.keeps_pure _

omit hsafe in
theorem collectFile_stays {path : Path} (hpath : cfg.Along c req path) :
    Serve.Stays cfg c (cfg.Linkless c req) (cfg.Linkless c req) (Serve.collectFile H cfg path) := by
  refine (read_stays Config.guards_linkless hpath).bind fun content => ?_
  cases content with
  | none => exact Script.keeps_pure _
  | some content => exact storeBlobBytes_stays content

theorem collectTarget_stays (finalExit : ℕ) : Serve.Stays cfg c (cfg.Linkless c req) (cfg.Linkless c req)
    (Serve.collectTarget H cfg (relPath (cfg.workHost c) req.targetRel) finalExit) := by
  rw [Serve.collectTarget]
  split
  · exact Script.keeps_pure _
  · refine (metadata_stays Config.guards_linkless (along_target hsafe)).bind fun kind => ?_
    match kind with
    | none => exact Script.keeps_pure _
    | some .dir => exact Script.keeps_pure _
    | some (.file size mode) =>
      refine (storeBlobFromFileCompute_stays (along_target hsafe)).bind fun stored => ?_
      cases stored with
      | none => exact Script.keeps_pure _
      | some stored => exact storeBlobBytes_stays _

theorem collectOutputs_stays : Serve.Stays cfg c (cfg.LinklessLeft c req) (cfg.Linkless c req)
    (Serve.collectOutputs H cfg (cfg.workHost c) req ran) := by
  refine (produce_stays hsafe).bind fun finalExit => ?_
  refine (ensureTrace_stays hsafe).bind fun _ => ?_
  refine (storeBlobBytes_stays ran.stdout).bind fun stdout => ?_
  refine (storeBlobBytes_stays ran.stderr).bind fun stderr => ?_
  refine (collectFile_stays (along_deps hsafe)).bind fun deps => ?_
  refine (collectFile_stays (along_trace hsafe)).bind fun trace => ?_
  exact (collectTarget_stays hsafe finalExit).bind fun manifest => Script.keeps_pure _

end

/-- From a tree without links on its ways the collection stays inside. -/
theorem handlePostExec_stays (H : Hashing Bytes) (cfg : Config) (c : ℕ) (req : ExecRequest) (ran : Ran) :
    Serve.Stays cfg c (cfg.LinklessLeft c req) (cfg.Linkless c req)
      (Serve.handlePostExec H cfg (cfg.workHost c) req ran) := by
  rw [Serve.handlePostExec]
  cases hrefused : req.refused with
  | some response => exact (Script.keeps_pure response).mono (fun _ h => h) fun _ h => h.toLinkless
  | none =>
    exact (collectOutputs_stays (ExecRequest.safe_of_accepted hrefused)).bind fun result => Script.keeps_pure _

end

theorem server_sameInside (secret secret' : Bytes) (left : List (List Text × Node Text UInt8)) :
    SameInside cacheServer 0 (server secret left) (server secret' left) where
  counter := rfl
  inside := by
    intro p hp
    have hne : p ≠ ["etc".toList, "shadow".toList] := by
      rintro rfl
      revert hp
      simp only [Config.Inside]
      decide
    simp only [server, Tree.node_put, Function.update_of_ne hne]

def served (ran : Ran) (s : Host) : Outcome Host Spots Response :=
  (Serve.handlePostExec summing cacheServer (cacheServer.workHost 0) compile ran).run
    (FileOp.act cacheServer) s

/-- An output and a list of dependencies; the link beside them is on no way. -/
def leftOver : List (List Text × Node Text UInt8) :=
  [(["deps".toList], .file [109, 0, 120, 0] 0o644), (["tmp".toList], .file [72, 105] 0o755),
    (["other".toList], .link true [.down "etc".toList, .down "shadow".toList])]

def otherLink : List Text := cacheServer.workHost 0 ++ ["other".toList]

theorem eq_otherLink {p : List Text} {fromRoot : Bool} {target : Path}
    (h : (server [65] leftOver).tree.node p = some (.link fromRoot target)) : p = otherLink := by
  rw [server, Tree.node_put, Function.update_apply] at h
  split at h
  · cases h
  · have hmem := Tree.mem_of_ofEntries h
    simp only [leftOver, List.map_cons, List.map_nil, List.mem_append, List.mem_cons, Prod.mk.injEq, reduceCtorEq,
      and_false, List.not_mem_nil, or_false, false_or] at hmem
    exact hmem.1

theorem linklessLeft_leftOver : cacheServer.LinklessLeft 0 compile (server [65] leftOver).tree where
  dirs := by
    intro q hq
    have hall : ∀ q ∈ (cacheServer.workHost 0).inits, (server [65] leftOver).tree.node q = some .dir := by
      decide +kernel
    exact hall q ((List.mem_inits q _).mpr hq)
  ways := by
    intro p hp fromRoot target h
    rw [eq_otherLink h] at hp
    have houtputs : ∀ rel ∈ compile.outputs, ¬otherLink <+: cacheServer.entry 0 rel := by decide +kernel
    rcases hp with ⟨rel, hrel, hp⟩ | hp | hp
    · exact houtputs rel hrel hp
    · exact absurd hp (by decide +kernel)
    · exact absurd hp (by decide +kernel)
  moved := by
    intro rest _ fromRoot target h
    have htmp : cacheServer.entry 0 compile.tmpRel <+: otherLink := ⟨rest, eq_otherLink h⟩
    exact absurd htmp (by decide +kernel)

end Redo.Remote
