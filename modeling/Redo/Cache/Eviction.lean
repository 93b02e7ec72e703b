import Mathlib.Data.List.Flatten
import Mathlib.Data.List.Pairwise
import Redo.Cache.Metadata
import Redo.Library.Budget
import Redo.Paths.Normalizers

/-! # The removal of old entries

After a store the oldest entries are removed until the rest fits the budget. What the entries take
is summed up in 64 bits.
-/
namespace Redo.Cache.Eviction
open Library Remote Paths

/-- A name in a bucket of `objects`. -/
abbrev FilePath := OsText × OsText

structure Stat where
  len : UInt64
  /-- in nanoseconds from the epoch on, where there is such a time -/
  modified : Option ℤ
deriving DecidableEq, Repr

structure DirEntry where
  name : OsText
  /-- what `metadata` says, which may fail -/
  stat : Option Stat
deriving DecidableEq, Repr

/-- A name in `objects` with what can be read behind it. -/
structure Bucket where
  name : OsText
  isDir : Bool
  entries : List DirEntry
  nodup : (entries.map DirEntry.name).Nodup

/-- `objects` -/
structure ObjectsDir where
  buckets : List Bucket
  nodup : (buckets.map Bucket.name).Nodup

structure ObjEntry where
  blob : FilePath
  metadata : FilePath
  size : UInt64
  mtimeSecs : ℕ
deriving DecidableEq, Repr

def BLOB : Text := ".blob".toList

def META : Text := ".meta".toList

/-- Takes the end away as often as it is there. -/
def trimEndMatches (pat : Text) : ℕ → Text → Text
  | 0, t => t
  | n + 1, t => if pat.isSuffixOf t then trimEndMatches pat n (t.take (t.length - pat.length)) else t

def Stat.mtimeSecs (st : Stat) : ℕ :=
  (st.modified.bind fun t => if 0 ≤ t then some (t.toNat / 1000000000) else none).getD 0

def objEntry (bucket : OsText) (ent : DirEntry) : Option ObjEntry :=
  let name := lossy ent.name
  if BLOB.isSuffixOf name then
    ent.stat.map fun st =>
      let keyHex := trimEndMatches BLOB name.length name
      ⟨(bucket, ent.name), (bucket, encode (keyHex ++ META)), st.len, st.mtimeSecs⟩
  else none

def Bucket.objects (b : Bucket) : List ObjEntry := if b.isDir then b.entries.filterMap (objEntry b.name) else []

def collectObjects (d : ObjectsDir) : List ObjEntry := d.buckets.flatMap Bucket.objects

def DEFAULT_MAX_BYTES : UInt64 := 1073741824

/-- `REDO_ACTION_CACHE_MAX_BYTES`, where it is set. -/
def maxBytes : Option Text → UInt64
  | some v =>
    if trim v ≠ [] then ((parseUnsigned 18446744073709551616 (trim v)).map UInt64.ofNat).getD DEFAULT_MAX_BYTES
    else DEFAULT_MAX_BYTES
  | none => DEFAULT_MAX_BYTES

/-- The order of the keys `(mtime_secs, Reverse(size))`. -/
def sortKeyLe (a b : ObjEntry) : Bool :=
  a.mtimeSecs < b.mtimeSecs || (a.mtimeSecs = b.mtimeSecs && b.size ≤ a.size)

/-- `+`, which panics or goes round when 64 bits are too few. -/
def addSize (overflowChecks : Bool) (total : UInt64) (o : ObjEntry) : Option UInt64 :=
  if overflowChecks ∧ 18446744073709551616 ≤ total.toNat + o.size.toNat then none else some (total + o.size)

def sumSizes (overflowChecks : Bool) (objs : List ObjEntry) : Option UInt64 :=
  objs.foldlM (addSize overflowChecks) 0

def saturatingSub (a b : UInt64) : UInt64 := if b ≤ a then a - b else 0

/-- The entries that the loop comes to. -/
def sweep (maxb : UInt64) : UInt64 → List ObjEntry → List ObjEntry
  | _, [] => []
  | total, o :: objs => if total ≤ maxb then [] else o :: sweep maxb (saturatingSub total o.size) objs

/-- The entries that `maybe_gc` removes, one after the other. -/
def evicted (overflowChecks : Bool) (maxb : UInt64) (objs : List ObjEntry) : Option (List ObjEntry) :=
  if maxb = 0 then some []
  else
    (sumSizes overflowChecks objs).map fun total =>
      if total ≤ maxb then [] else sweep maxb total (objs.mergeSort sortKeyLe)

def Bucket.without (b : Bucket) (gone : List FilePath) : Bucket where
  name := b.name
  isDir := b.isDir
  entries := b.entries.filter fun ent => (b.name, ent.name) ∉ gone
  nodup := b.nodup.sublist (List.filter_sublist.map _)

def ObjectsDir.without (d : ObjectsDir) (gone : List FilePath) : ObjectsDir where
  buckets := d.buckets.map fun b => b.without gone
  nodup := by
    rw [List.map_map]
    exact d.nodup

def ObjEntry.files (o : ObjEntry) : List FilePath := [o.blob, o.metadata]

/-- `remove_file` is called for two files of each entry, and may fail. -/
def maybeGc (overflowChecks : Bool) (var : Option Text) (removable : FilePath → Bool) (d : ObjectsDir) :
    Option ObjectsDir :=
  (evicted overflowChecks (maxBytes var) (collectObjects d)).map fun objs =>
    d.without ((objs.flatMap ObjEntry.files).filter removable)

/-- Any budget can be asked for. -/
theorem maxBytes_toDigits (n : UInt64) : maxBytes (some (Nat.toDigits 10 n.toNat)) = n := by
  have hne : Nat.toDigits 10 n.toNat ≠ [] := Nat.toDigits_ne_nil
  rw [maxBytes, trim_toDigits, if_pos hne, parseUnsigned_toDigits n.toNat_lt]
  simp

/-! ## What the removal is for -/

def ObjEntry.bytes (o : ObjEntry) : ℕ := o.size.toNat

/-- When the file of an entry was modified; what cannot be read counts as the epoch. -/
def ObjectsDir.mtime (d : ObjectsDir) (o : ObjEntry) : ℤ :=
  ((((d.buckets.find? fun b => b.name = o.blob.1).bind fun b =>
    b.entries.find? fun ent => ent.name = o.blob.2).bind DirEntry.stat).bind Stat.modified).getD 0

/-- The older one, or of equal age the larger one. -/
def OlderLe (mtime : ObjEntry → ℤ) (a b : ObjEntry) : Prop :=
  mtime a < mtime b ∨ mtime a = mtime b ∧ b.bytes ≤ a.bytes

instance (mtime : ObjEntry → ℤ) (a b : ObjEntry) : Decidable (OlderLe mtime a b) :=
  inferInstanceAs (Decidable (_ ∨ _))

/-- Of the entries `objs` some were removed and the others kept: the oldest ones, of equal age the
larger ones, and no more than the budget asks for, be the last one removed or the youngest of them. -/
structure Evicts (mtime : ObjEntry → ℤ) (maxb : ℕ) (objs removed kept : List ObjEntry) : Prop where
  split : (removed ++ kept).Perm objs
  isPrefix : ∃ front back, (front ++ back).Pairwise (OlderLe mtime) ∧ front.Perm removed ∧ back.Perm kept ∧
    ∀ before last, front = before ++ [last] → maxb < last.bytes + total ObjEntry.bytes kept
  noOlder : ∀ a ∈ removed, ∀ b ∈ kept, mtime a ≤ mtime b
  fits : total ObjEntry.bytes kept ≤ maxb ∨ kept = []
  needed : ∀ before last, removed = before ++ [last] → maxb < last.bytes + total ObjEntry.bytes kept
  quiet : total ObjEntry.bytes objs ≤ maxb → removed = []

/-- Of two entries of one second the one that is sorted to the front is the older one, wherever the
entries from it on exceed the budget and those from the other one on fit. -/
def AgesAgree (mtime : ObjEntry → ℤ) (maxb : ℕ) (objs : List ObjEntry) : Prop :=
  ∀ i j a b, i < j → (objs.mergeSort sortKeyLe)[i]? = some a → (objs.mergeSort sortKeyLe)[j]? = some b →
    a.mtimeSecs = b.mtimeSecs → maxb < total ObjEntry.bytes ((objs.mergeSort sortKeyLe).drop i) →
      total ObjEntry.bytes ((objs.mergeSort sortKeyLe).drop j) ≤ maxb → OlderLe mtime a b

def ObjectsDir.Has (d : ObjectsDir) (path : FilePath) : Prop :=
  ∃ b ∈ d.buckets, ∃ ent ∈ b.entries, (b.name, ent.name) = path

/-- The entries left in the directory are the kept ones, and only files of the removed ones are gone. -/
structure Collected (maxb : ℕ) (d d' : ObjectsDir) (removed : List ObjEntry) : Prop where
  evicts : Evicts d.mtime maxb (collectObjects d) removed (collectObjects d')
  files : ∀ path, d'.Has path ↔ d.Has path ∧ ∀ o ∈ removed, path ∉ o.files

variable {checks : Bool} {maxb t : UInt64} {d : ObjectsDir} {objs removed rest : List ObjEntry} {o r : ObjEntry}
variable {gone : List FilePath} {path : FilePath} {b : Bucket}

/-! ## The running total -/

theorem toNat_saturatingSub (a b : UInt64) : (saturatingSub a b).toNat = a.toNat - b.toNat := by
  rw [saturatingSub]
  split_ifs with h
  · exact UInt64.toNat_sub_of_le a b h
  · have hlt : a.toNat < b.toNat := UInt64.not_le.mp h
    simp
    omega

theorem sweep_eq_taken (maxb t : UInt64) (objs : List ObjEntry) :
    sweep maxb t objs = taken ObjEntry.bytes maxb.toNat t.toNat objs := by
  induction objs generalizing t with
  | nil => rfl
  | cons o objs ih =>
    rw [sweep, taken, ih, toNat_saturatingSub]
    rfl

/-- The test before the sort changes nothing. -/
theorem evicted_eq (hmax : 0 < maxb) (objs : List ObjEntry) :
    evicted checks maxb objs =
      (sumSizes checks objs).map fun t => taken ObjEntry.bytes maxb.toNat t.toNat (objs.mergeSort sortKeyLe) := by
  have hne : maxb ≠ 0 := by
    rintro rfl
    exact absurd hmax (by decide)
  rw [evicted, if_neg hne]
  congr 1
  funext t
  split_ifs with hle
  · rw [taken_eq_nil (UInt64.le_iff_toNat_le.mp hle)]
  · exact sweep_eq_taken maxb t _

theorem foldlM_addSize {a : UInt64} (h : objs.foldlM (addSize checks) a = some t) :
    t.toNat = (a.toNat + total ObjEntry.bytes objs) % 18446744073709551616 := by
  induction objs generalizing a with
  | nil =>
    obtain rfl : a = t := by simpa using h
    simp
  | cons o objs ih =>
    obtain ⟨a', hadd, hrest⟩ := Option.bind_eq_some_iff.mp (List.foldlM_cons.symm.trans h)
    rw [addSize] at hadd
    split_ifs at hadd
    obtain rfl : a + o.size = a' := Option.some.inj hadd
    have hsum := ih hrest
    have hwrap := UInt64.toNat_add a o.size
    rw [total_cons, ObjEntry.bytes]
    omega

theorem foldlM_addSize_exact {a : UInt64} (h : a.toNat + total ObjEntry.bytes objs < 18446744073709551616) :
    ∃ t, objs.foldlM (addSize checks) a = some t := by
  induction objs generalizing a with
  | nil => exact ⟨a, rfl⟩
  | cons o objs ih =>
    rw [total_cons, ObjEntry.bytes] at h
    have hadd : addSize checks a o = some (a + o.size) := by
      rw [addSize, if_neg]
      omega
    have hwrap := UInt64.toNat_add a o.size
    obtain ⟨t, ht⟩ := @ih (a + o.size) (by omega)
    refine ⟨t, ?_⟩
    rw [List.foldlM_cons, hadd]
    exact ht

theorem sumSizes_exact (h : total ObjEntry.bytes objs < 18446744073709551616) :
    ∃ t, sumSizes checks objs = some t ∧ t.toNat = total ObjEntry.bytes objs := by
  have hzero : (0 : UInt64).toNat = 0 := rfl
  obtain ⟨t, ht⟩ := @foldlM_addSize_exact checks objs 0 (by omega)
  have hmod := foldlM_addSize ht
  exact ⟨t, ht, by omega⟩

/-! ## The entries and their files -/

theorem mem_collectObjects (h : o ∈ collectObjects d) :
    ∃ b ∈ d.buckets, ∃ ent ∈ b.entries, objEntry b.name ent = some o := by
  obtain ⟨b, hb, ho⟩ := List.mem_flatMap.mp h
  rw [Bucket.objects] at ho
  split_ifs at ho
  · obtain ⟨ent, hent, hobj⟩ := List.mem_filterMap.mp ho
    exact ⟨b, hb, ent, hent, hobj⟩
  · cases ho

theorem objEntry_eq {bucket : OsText} {ent : DirEntry} (h : objEntry bucket ent = some o) :
    o.blob = (bucket, ent.name) ∧ BLOB <:+ lossy o.blob.2 ∧ META <:+ lossy o.metadata.2 := by
  rw [objEntry] at h
  dsimp only at h
  split_ifs at h with hblob
  obtain ⟨st, -, rfl⟩ := Option.map_eq_some_iff.mp h
  refine ⟨rfl, List.isSuffixOf_iff_suffix.mp hblob, ?_⟩
  rw [lossy_encode]
  exact List.suffix_append _ _

theorem objEntry_stat {bucket : OsText} {ent : DirEntry} (h : objEntry bucket ent = some o) :
    ∃ st, ent.stat = some st ∧ o.mtimeSecs = st.mtimeSecs := by
  rw [objEntry] at h
  dsimp only at h
  split_ifs at h
  obtain ⟨st, hst, rfl⟩ := Option.map_eq_some_iff.mp h
  exact ⟨st, hst, rfl⟩

theorem find?_key {α β : Type*} [DecidableEq β] {key : α → β} {l : List α} (hl : (l.map key).Nodup) {a : α}
    (ha : a ∈ l) : (l.find? fun b => key b = key a) = some a := by
  induction l with
  | nil => cases ha
  | cons b l ih =>
    rw [List.map_cons, List.nodup_cons] at hl
    rcases List.mem_cons.mp ha with rfl | ha
    · simp
    · have hne : key b ≠ key a := fun heq => hl.1 (heq ▸ List.mem_map_of_mem ha)
      rw [List.find?_cons_of_neg (by simpa using hne)]
      exact ih hl.2 ha

/-- No metadata is taken for an entry. -/
theorem blob_ne_metadata (ho : o ∈ collectObjects d) (hr : r ∈ collectObjects d) : o.blob ≠ r.metadata := by
  intro h
  obtain ⟨b, _, ent, _, hobj⟩ := mem_collectObjects ho
  obtain ⟨b', _, ent', _, hobj'⟩ := mem_collectObjects hr
  have hblob := (objEntry_eq hobj).2.1
  have hmeta := (objEntry_eq hobj').2.2
  rw [← h] at hmeta
  have hsame := List.suffix_of_suffix_length_le hblob hmeta (by decide)
  exact absurd (hsame.eq_of_length (by decide)) (by decide)

def ObjectsDir.paths (d : ObjectsDir) : List FilePath :=
  d.buckets.flatMap fun b => b.entries.map fun ent => (b.name, ent.name)

theorem ObjectsDir.paths_nodup (d : ObjectsDir) : d.paths.Nodup := by
  rw [ObjectsDir.paths, List.nodup_flatMap]
  constructor
  · intro b _
    have hpair : (b.entries.map fun ent => (b.name, ent.name)) = (b.entries.map DirEntry.name).map (Prod.mk b.name) := by
      rw [List.map_map]
      rfl
    rw [hpair]
    exact b.nodup.map (Prod.mk_right_injective b.name)
  · have hnames := d.nodup
    rw [List.Nodup, List.pairwise_map] at hnames
    apply hnames.imp
    intro b c hbc path hb hc
    obtain ⟨ent, -, rfl⟩ := List.mem_map.mp hb
    obtain ⟨ent', -, heq⟩ := List.mem_map.mp hc
    exact hbc (Prod.mk.inj heq).1.symm

theorem filterMap_sublist {α β γ : Type*} {f : α → Option β} {g : β → γ} {key : α → γ} (l : List α)
    (h : ∀ a b, f a = some b → g b = key a) : ((l.filterMap f).map g).Sublist (l.map key) := by
  induction l with
  | nil => simp
  | cons a l ih =>
    cases hf : f a with
    | none => simpa [hf] using ih.cons (key a)
    | some b => simpa [hf, h a b hf] using ih.cons_cons (key a)

theorem collectObjects_nodup (d : ObjectsDir) : ((collectObjects d).map ObjEntry.blob).Nodup := by
  refine List.Nodup.sublist ?_ d.paths_nodup
  rw [collectObjects, ObjectsDir.paths, List.map_flatMap]
  apply List.Sublist.flatMap_right
  intro b _
  rw [Bucket.objects]
  split_ifs
  · exact filterMap_sublist b.entries fun ent o ho => (objEntry_eq ho).1
  · exact List.nil_sublist _

theorem filterMap_filter {α β : Type*} {f : α → Option β} {p : β → Bool} {q : α → Bool} (l : List α)
    (h : ∀ a b, f a = some b → q a = p b) : (l.filter q).filterMap f = (l.filterMap f).filter p := by
  induction l with
  | nil => rfl
  | cons a l ih =>
    cases hf : f a with
    | none => by_cases hq : q a = true <;> simp [hf, hq, ih]
    | some b => by_cases hp : p b = true <;> simp [hf, h a b hf, hp, ih]

/-- Without some files the entries are those whose file is left. -/
theorem collectObjects_without (d : ObjectsDir) (gone : List FilePath) :
    collectObjects (d.without gone) = (collectObjects d).filter fun o => o.blob ∉ gone := by
  rw [collectObjects, collectObjects, ObjectsDir.without, List.flatMap_map, List.filter_flatMap]
  congr 1
  funext b
  by_cases hdir : b.isDir = true
  · simp only [Bucket.objects, Bucket.without, hdir, if_true]
    apply filterMap_filter
    intro ent o ho
    rw [(objEntry_eq ho).1]
  · simp [Bucket.objects, Bucket.without, hdir]

theorem has_without : (d.without gone).Has path ↔ d.Has path ∧ path ∉ gone := by
  constructor
  · rintro ⟨b', hb', ent, hent, rfl⟩
    obtain ⟨b, hb, rfl⟩ := List.mem_map.mp hb'
    obtain ⟨hmem, hleft⟩ := List.mem_filter.mp hent
    exact ⟨⟨b, hb, ent, hmem, rfl⟩, of_decide_eq_true hleft⟩
  · rintro ⟨⟨b, hb, ent, hent, rfl⟩, hleft⟩
    exact ⟨b.without gone, List.mem_map_of_mem hb, ent, List.mem_filter.mpr ⟨hent, decide_eq_true hleft⟩, rfl⟩

/-! ## The removal -/

theorem sortKeyLe_trans (a b c : ObjEntry) (h : sortKeyLe a b = true) (h' : sortKeyLe b c = true) :
    sortKeyLe a c = true := by
  simp only [sortKeyLe, Bool.or_eq_true, Bool.and_eq_true, decide_eq_true_eq, UInt64.le_iff_toNat_le] at *
  omega

theorem sortKeyLe_total (a b : ObjEntry) : (sortKeyLe a b || sortKeyLe b a) = true := by
  simp only [sortKeyLe, Bool.or_eq_true, Bool.and_eq_true, decide_eq_true_eq, UInt64.le_iff_toNat_le]
  omega

/-- Who removes the files of some entries keeps the others. -/
theorem filter_kept (hl : (removed ++ rest).Perm (collectObjects d)) :
    ((collectObjects d).filter fun o => o.blob ∉ removed.flatMap ObjEntry.files).Perm rest := by
  have hnodup : ((removed ++ rest).map ObjEntry.blob).Nodup :=
    (hl.map ObjEntry.blob).nodup_iff.mpr (collectObjects_nodup d)
  rw [List.map_append, List.nodup_append] at hnodup
  have hgone : removed.filter (fun o => o.blob ∉ removed.flatMap ObjEntry.files) = [] := by
    rw [List.filter_eq_nil_iff]
    intro o ho hleft
    exact of_decide_eq_true hleft (List.mem_flatMap.mpr ⟨o, ho, List.mem_cons_self⟩)
  have hleft : rest.filter (fun o => o.blob ∉ removed.flatMap ObjEntry.files) = rest := by
    rw [List.filter_eq_self]
    intro o ho
    apply decide_eq_true
    intro hmem
    obtain ⟨r, hr, hfile⟩ := List.mem_flatMap.mp hmem
    have hro := hl.subset (List.mem_append_left _ hr)
    have hoo := hl.subset (List.mem_append_right _ ho)
    rw [ObjEntry.files, List.mem_pair] at hfile
    rcases hfile with hblob | hmeta
    · exact hnodup.2.2 r.blob (List.mem_map_of_mem hr) o.blob (List.mem_map_of_mem ho) hblob.symm
    · exact blob_ne_metadata hoo hro hmeta
  have hfilter := hl.symm.filter fun o => decide (o.blob ∉ removed.flatMap ObjEntry.files)
  rwa [List.filter_append, hgone, hleft, List.nil_append] at hfilter

/-- What counts as seconds does not hide that a file is older. -/
theorem mtime_lt {a b : ObjEntry} (ha : a ∈ collectObjects d) (hb : b ∈ collectObjects d)
    (h : a.mtimeSecs < b.mtimeSecs) : d.mtime a < d.mtime b := by
  have hsecs : ∀ o ∈ collectObjects d,
      o.mtimeSecs = if 0 ≤ d.mtime o then (d.mtime o).toNat / 1000000000 else 0 := by
    intro o ho
    obtain ⟨b, hb, ent, hent, hobj⟩ := mem_collectObjects ho
    have hbucket : d.buckets.find? (fun b' => b'.name = b.name) = some b :=
      find?_key d.nodup hb
    have hentry : b.entries.find? (fun ent' => ent'.name = ent.name) = some ent :=
      find?_key b.nodup hent
    obtain ⟨st, hst, hsecs⟩ := objEntry_stat hobj
    rw [ObjectsDir.mtime, (objEntry_eq hobj).1, hbucket, Option.bind_some, hentry, Option.bind_some, hst,
      Option.bind_some, hsecs, Stat.mtimeSecs]
    cases st.modified with
    | none => rfl
    | some t =>
      rw [Option.bind_some, Option.getD_some]
      split_ifs <;> rfl
  rw [hsecs a ha, hsecs b hb] at h
  split_ifs at h <;> omega

theorem OlderLe.trans {mtime : ObjEntry → ℤ} {a b c : ObjEntry} (h : OlderLe mtime a b)
    (h' : OlderLe mtime b c) : OlderLe mtime a c := by
  unfold OlderLe at *
  omega

theorem OlderLe.total (mtime : ObjEntry → ℤ) (a b : ObjEntry) : OlderLe mtime a b ∨ OlderLe mtime b a := by
  unfold OlderLe
  omega

theorem pairwise_sorted (mtime : ObjEntry → ℤ) (l : List ObjEntry) :
    (l.mergeSort fun a b => decide (OlderLe mtime a b)).Pairwise (OlderLe mtime) := by
  refine (List.pairwise_mergeSort (fun a b c h h' => ?_) (fun a b => ?_) l).imp fun h => of_decide_eq_true h
  · exact decide_eq_true ((of_decide_eq_true h).trans (of_decide_eq_true h'))
  · simpa using OlderLe.total mtime a b

/-- The removal takes the oldest ones just when it does not end between two entries of one second
that are sorted against their age. -/
theorem front_iff {l : List ObjEntry} (hl : l = (collectObjects d).mergeSort sortKeyLe)
    (hremoved : removed = taken ObjEntry.bytes maxb.toNat (total ObjEntry.bytes l) l)
    (hsplit : removed ++ rest = l) :
    (∀ a ∈ removed, ∀ b ∈ rest, OlderLe d.mtime a b) ↔
      AgesAgree d.mtime maxb.toNat (collectObjects d) := by
  have hlength : ∀ i, i < removed.length ↔ maxb.toNat < total ObjEntry.bytes (l.drop i) := by
    intro i
    rw [hremoved]
    exact lt_length_taken
  rw [AgesAgree, ← hl]
  constructor
  · intro hfront i j a b hij ha hb _ hover hfits
    refine hfront a ?_ b ?_
    · rw [← hsplit, List.getElem?_append_left ((hlength i).mpr hover)] at ha
      exact List.mem_of_getElem? ha
    · have hj : removed.length ≤ j := by
        by_contra hlt
        exact absurd ((hlength j).mp (not_le.mp hlt)) (not_lt.mpr hfits)
      rw [← hsplit, List.getElem?_append_right hj] at hb
      exact List.mem_of_getElem? hb
  · intro hagree a ha b hb
    have hsorted : l.Pairwise fun a b => sortKeyLe a b = true :=
      hl ▸ List.pairwise_mergeSort sortKeyLe_trans sortKeyLe_total _
    have hmem : ∀ {o}, o ∈ l → o ∈ collectObjects d := fun ho => (List.mergeSort_perm _ _).subset (hl ▸ ho)
    have hal := hmem (hsplit ▸ List.mem_append_left rest ha)
    have hbl := hmem (hsplit ▸ List.mem_append_right removed hb)
    have hle : sortKeyLe a b = true := by
      rw [← hsplit, List.pairwise_append] at hsorted
      exact hsorted.2.2 a ha b hb
    by_cases hsecs : a.mtimeSecs = b.mtimeSecs
    · obtain ⟨i, hi⟩ := List.mem_iff_getElem?.mp ha
      obtain ⟨j, hj⟩ := List.mem_iff_getElem?.mp hb
      have hlt : i < removed.length := (List.getElem?_eq_some_iff.mp hi).1
      refine hagree i (removed.length + j) a b (by omega) ?_ ?_ hsecs ((hlength i).mp hlt) ?_
      · rw [← hsplit, List.getElem?_append_left hlt, hi]
      · rw [← hsplit, List.getElem?_append_right (Nat.le_add_right _ _), Nat.add_sub_cancel_left, hj]
      · exact not_lt.mp fun h => absurd ((hlength _).mpr h) (by omega)
    · simp only [sortKeyLe, Bool.or_eq_true, Bool.and_eq_true, decide_eq_true_eq] at hle
      exact .inl (mtime_lt hal hbl (by omega))

/-- The youngest of some entries weighs at least as much as the one that the code sorts last. -/
theorem bytes_getLast_le (hin : ∀ o ∈ removed, o ∈ collectObjects d)
    (hsorted : removed.Pairwise fun a b => sortKeyLe a b = true) (hne : removed ≠ [])
    {before : List ObjEntry} {youngest : ObjEntry}
    (hages : (removed.mergeSort fun a b => decide (OlderLe d.mtime a b)) = before ++ [youngest]) :
    (removed.getLast hne).bytes ≤ youngest.bytes := by
  have hperm := List.mergeSort_perm removed fun a b => decide (OlderLe d.mtime a b)
  have hmem : youngest ∈ removed := by
    apply hperm.subset
    rw [hages]
    simp
  have hlast := List.getLast_mem hne
  have holder : OlderLe d.mtime (removed.getLast hne) youngest := by
    have hall := pairwise_sorted d.mtime removed
    have hthere := hperm.symm.subset hlast
    rw [hages] at hall hthere
    have hle := hall.rel_getLast_of_rel_getLast_getLast hthere (.inr ⟨rfl, le_refl _⟩)
    rwa [List.getLast_append_singleton] at hle
  have hkey : sortKeyLe youngest (removed.getLast hne) = true :=
    hsorted.rel_getLast_of_rel_getLast_getLast hmem (by simp [sortKeyLe])
  simp only [sortKeyLe, Bool.or_eq_true, Bool.and_eq_true, decide_eq_true_eq,
    UInt64.le_iff_toNat_le] at hkey
  rcases hkey with hlt | ⟨-, hle⟩
  · have hage := mtime_lt (hin _ hmem) (hin _ hlast) hlt
    unfold OlderLe at holder
    omega
  · exact hle

theorem evicts_of_taken {l kept : List ObjEntry} (hl : l = (collectObjects d).mergeSort sortKeyLe)
    (hkept : kept.Perm rest)
    (hremoved : removed = taken ObjEntry.bytes maxb.toNat (total ObjEntry.bytes l) l)
    (hsplit : removed ++ rest = l) (hagree : AgesAgree d.mtime maxb.toNat (collectObjects d)) :
    Evicts d.mtime maxb.toNat (collectObjects d) removed kept := by
  have hperm : l.Perm (collectObjects d) := hl ▸ List.mergeSort_perm _ sortKeyLe
  have hsorted : l.Pairwise fun a b => sortKeyLe a b = true :=
    hl ▸ List.pairwise_mergeSort sortKeyLe_trans sortKeyLe_total _
  have hfront : ∀ a ∈ removed, ∀ b ∈ kept, OlderLe d.mtime a b := fun a ha b hb =>
    (front_iff hl hremoved hsplit).mpr hagree a ha b (hkept.subset hb)
  have hneeded : ∀ before last, removed = before ++ [last] →
      maxb.toNat < last.bytes + total ObjEntry.bytes kept := by
    intro before last hlast
    have hbudget := budget_lt_of_taken (hremoved.symm.trans hlast)
    rw [← hsplit, hlast] at hbudget
    simp only [total_append, total_cons, total_nil] at hbudget
    rw [total_perm hkept]
    omega
  constructor
  case split => exact ((hkept.append_left removed).trans (List.Perm.of_eq hsplit)).trans hperm
  case isPrefix =>
    refine ⟨removed.mergeSort fun a b => decide (OlderLe d.mtime a b),
      kept.mergeSort fun a b => decide (OlderLe d.mtime a b), ?_, List.mergeSort_perm _ _,
      List.mergeSort_perm _ _, fun before last hlast => ?_⟩
    · rw [List.pairwise_append]
      exact ⟨pairwise_sorted _ _, pairwise_sorted _ _, fun a ha b hb =>
        hfront a ((List.mergeSort_perm _ _).subset ha) b ((List.mergeSort_perm _ _).subset hb)⟩
    · have hne : removed ≠ [] := by
        rintro rfl
        simp at hlast
      have hin : ∀ o ∈ removed, o ∈ collectObjects d := fun o ho =>
        hperm.subset (hsplit ▸ List.mem_append_left rest ho)
      have hinner := (List.pairwise_append.mp (hsplit.symm ▸ hsorted)).1
      have hsize := bytes_getLast_le hin hinner hne hlast
      exact (hneeded _ _ (List.dropLast_append_getLast hne).symm).trans_le (Nat.add_le_add_right hsize _)
  case noOlder =>
    intro a ha b hb
    have hle := hfront a ha b hb
    unfold OlderLe at hle
    omega
  case fits =>
    left
    rw [total_perm hkept]
    exact total_rest rfl (hremoved ▸ hsplit.symm)
  case needed => exact hneeded
  case quiet =>
    intro hle
    rw [hremoved, taken_eq_nil ((total_perm hperm).trans_le hle)]

/-- What the code removes and keeps, where its sum is the true one. -/
theorem removal (checks : Bool) {var : Option Text} (hmax : 0 < maxBytes var) {removable : FilePath → Bool}
    (hok : ∀ path, removable path = true) (h : total ObjEntry.bytes (collectObjects d) < 18446744073709551616) :
    ∃ removed rest, removed ++ rest = (collectObjects d).mergeSort sortKeyLe ∧
      removed = taken ObjEntry.bytes (maxBytes var).toNat
        (total ObjEntry.bytes ((collectObjects d).mergeSort sortKeyLe)) ((collectObjects d).mergeSort sortKeyLe) ∧
      evicted checks (maxBytes var) (collectObjects d) = some removed ∧
      maybeGc checks var removable d = some (d.without (removed.flatMap ObjEntry.files)) ∧
      (collectObjects (d.without (removed.flatMap ObjEntry.files))).Perm rest := by
  obtain ⟨t, ht, htotal⟩ := @sumSizes_exact checks _ h
  have hevicted := @evicted_eq checks (maxBytes var) hmax (collectObjects d)
  rw [ht, Option.map_some, htotal, ← total_perm (List.mergeSort_perm (collectObjects d) sortKeyLe)] at hevicted
  obtain ⟨rest, hsplit⟩ := @taken_isPrefix _ ObjEntry.bytes (maxBytes var).toNat ((collectObjects d).mergeSort sortKeyLe)
    (total ObjEntry.bytes ((collectObjects d).mergeSort sortKeyLe))
  generalize hremoved : taken _ _ _ _ = removed at hevicted hsplit
  have hall : (removed.flatMap ObjEntry.files).filter removable = removed.flatMap ObjEntry.files :=
    List.filter_eq_self.mpr fun path _ => hok path
  refine ⟨removed, rest, hsplit, rfl, hevicted, ?_, ?_⟩
  · rw [maybeGc, hevicted, Option.map_some, hall]
  · rw [collectObjects_without]
    exact filter_kept ((List.Perm.of_eq hsplit).trans (List.mergeSort_perm _ _))

/-- A total that went round is below the true one by more than any entry takes, and the loop ends too early. -/
theorem lt_of_evicts {kept : List ObjEntry} (hmax : 0 < maxb) (hevicted : evicted checks maxb objs = some removed)
    {mtime : ObjEntry → ℤ} (h : Evicts mtime maxb.toNat objs removed kept) : total ObjEntry.bytes objs < 18446744073709551616 := by
  rw [evicted_eq hmax] at hevicted
  obtain ⟨t, ht, htaken⟩ := Option.map_eq_some_iff.mp hevicted
  have hmod := foldlM_addSize ht
  have hzero : (0 : UInt64).toNat = 0 := rfl
  have hbudget := maxb.toNat_lt
  have hsum := @total_perm _ ObjEntry.bytes _ _ h.split
  have hkept : total ObjEntry.bytes kept ≤ maxb.toNat := by
    rcases h.fits with hle | hnil
    · exact hle
    · simp [hnil]
  rcases List.eq_nil_or_concat removed with hnil | ⟨before, last, hlast⟩
  · rw [hnil, List.nil_append] at hsum
    omega
  · rw [List.concat_eq_append] at hlast
    have hlater := budget_lt_of_taken (htaken.trans hlast)
    have hsize : last.bytes < 18446744073709551616 := last.size.toNat_lt
    rw [hlast] at hsum
    simp only [total_append, total_cons, total_nil] at hsum
    omega

theorem agesAgree_of_collected {var : Option Text} (hmax : 0 < maxBytes var) {removable : FilePath → Bool}
    (hok : ∀ path, removable path = true) {d d' : ObjectsDir}
    (hevicted : evicted checks (maxBytes var) (collectObjects d) = some removed)
    (hgc : maybeGc checks var removable d = some d') (h : Collected (maxBytes var).toNat d d' removed) :
    total ObjEntry.bytes (collectObjects d) < 18446744073709551616 ∧
      AgesAgree d.mtime (maxBytes var).toNat (collectObjects d) := by
  have hlt := lt_of_evicts hmax hevicted h.evicts
  obtain ⟨removed', rest, hsplit, htaken, hevicted', hgc', hkept⟩ := removal checks hmax hok hlt
  obtain rfl : removed = removed' := Option.some.inj (hevicted.symm.trans hevicted')
  obtain rfl := Option.some.inj (hgc.symm.trans hgc')
  obtain ⟨front, back, hpair, hfront, hback, -⟩ := h.evicts.isPrefix
  rw [List.pairwise_append] at hpair
  refine ⟨hlt, (front_iff rfl htaken hsplit).mp fun a ha b hb => ?_⟩
  exact hpair.2.2 a (hfront.symm.subset ha) b (hback.symm.subset (hkept.symm.subset hb))

/-- The removal does what it is for just when 64 bits are enough for the size of all entries, and it
does not end between two entries of one second that are sorted against their age. -/
theorem maybeGc_iff (checks : Bool) {var : Option Text} (hmax : 0 < maxBytes var) {removable : FilePath → Bool}
    (hok : ∀ path, removable path = true) (d : ObjectsDir) :
    (∃ removed d', evicted checks (maxBytes var) (collectObjects d) = some removed ∧
      maybeGc checks var removable d = some d' ∧ Collected (maxBytes var).toNat d d' removed) ↔
      total ObjEntry.bytes (collectObjects d) < 18446744073709551616 ∧
        AgesAgree d.mtime (maxBytes var).toNat (collectObjects d) := by
  constructor
  · rintro ⟨removed, d', hevicted, hgc, hcollected⟩
    exact agesAgree_of_collected hmax hok hevicted hgc hcollected
  · rintro ⟨hlt, hagree⟩
    obtain ⟨removed, rest, hsplit, htaken, hevicted, hgc, hkept⟩ := removal checks hmax hok hlt
    refine ⟨removed, _, hevicted, hgc, evicts_of_taken rfl hkept htaken hsplit hagree, fun path => ?_⟩
    rw [has_without, List.mem_flatMap]
    simp

/-- In particular where no entry is younger than a smaller one of its second. -/
theorem agesAgree_of_seconds {mtime : ObjEntry → ℤ} (h : ∀ a ∈ objs, ∀ b ∈ objs, a.mtimeSecs = b.mtimeSecs →
    b.size ≤ a.size → OlderLe mtime a b) (maxb : ℕ) : AgesAgree mtime maxb objs := by
  intro i j a b hij ha hb hsecs _ _
  have hsorted : (objs.mergeSort sortKeyLe).Pairwise fun a b => sortKeyLe a b = true :=
    List.pairwise_mergeSort sortKeyLe_trans sortKeyLe_total objs
  obtain ⟨hi, rfl⟩ := List.getElem?_eq_some_iff.mp ha
  obtain ⟨hj, rfl⟩ := List.getElem?_eq_some_iff.mp hb
  have hle := List.pairwise_iff_getElem.mp hsorted i j hi hj hij
  simp only [sortKeyLe, hsecs, lt_irrefl, decide_false, Bool.false_or, decide_true, Bool.true_and,
    decide_eq_true_eq] at hle
  exact h _ ((List.mergeSort_perm _ _).subset (List.getElem_mem hi)) _
    ((List.mergeSort_perm _ _).subset (List.getElem_mem hj)) hsecs hle

/-- A file that was modified so many milliseconds after the epoch. -/
def blobFile (name : String) (size : UInt64) (millis : ℤ) : DirEntry :=
  ⟨encode name.toList, some ⟨size, some (millis * 1000000)⟩⟩

def oneBucket (entries : List DirEntry) (h : (entries.map DirEntry.name).Nodup) : ObjectsDir :=
  ⟨[⟨encode "ab".toList, true, entries, h⟩], by simp⟩

/-- The two oldest ones are of one second, and the budget of 1 GiB is exceeded. -/
def small : ObjectsDir :=
  oneBucket [blobFile "ab1.blob" 7 1900, blobFile "ab2.blob" 9 1100, blobFile "ab3.blob" 1073741820 2000]
    (by decide)

theorem maybeGc_iff_small :
    ∃ removed d', evicted true (maxBytes none) (collectObjects small) = some removed ∧
      maybeGc true none (fun _ => true) small = some d' ∧ Collected (maxBytes none).toNat small d' removed :=
  (maybeGc_iff true (by decide) (fun _ => rfl) small).mpr
    ⟨by decide, agesAgree_of_seconds (by decide) _⟩

/-- The smaller file is the older one, in the same second. -/
def sameSecond : ObjectsDir := oneBucket [blobFile "ab1.blob" 10 1100, blobFile "ab2.blob" 20 1900] (by decide)

/-- With a budget of 15 bytes the younger file is removed, and the older one stays. -/
theorem not_collected_sameSecond :
    ¬ ∀ (checks : Bool) (var : Option Text), 0 < maxBytes var → ∀ removable : FilePath → Bool,
      (∀ path, removable path = true) → ∀ d, ∃ removed d',
        evicted checks (maxBytes var) (collectObjects d) = some removed ∧
          maybeGc checks var removable d = some d' ∧ Collected (maxBytes var).toNat d d' removed := by
  intro h
  have hobjs : (collectObjects sameSecond).mergeSort sortKeyLe = (collectObjects sameSecond).reverse := by
    have hanti : ∀ a ∈ collectObjects sameSecond, ∀ b ∈ collectObjects sameSecond,
        sortKeyLe a b = true → sortKeyLe b a = true → a = b := by decide
    refine List.Perm.eq_of_pairwise (fun a b ha hb => ?_)
      (List.pairwise_mergeSort sortKeyLe_trans sortKeyLe_total _) (by decide)
      ((List.mergeSort_perm _ _).trans (List.reverse_perm _).symm)
    exact hanti a ((List.mergeSort_perm _ _).subset ha) b (List.mem_reverse.mp hb)
  obtain ⟨removed, d', hevicted, hgc, hcollected⟩ := h true (some "15".toList) (by decide) _ (fun _ => rfl) sameSecond
  have hagree := (agesAgree_of_collected (by decide) (fun _ => rfl) hevicted hgc hcollected).2
  rw [AgesAgree, hobjs] at hagree
  exact absurd (hagree 0 1 _ _ (by decide) rfl rfl (by decide) (by decide) (by decide)) (by decide)

end Redo.Cache.Eviction
