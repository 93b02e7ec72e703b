import Redo.Cache.Metadata
import Redo.Library.Threads
import Redo.Library.Utf8

/-! # Processes at the local action cache

An entry is two files. Each is written under another name and renamed into place, and nothing holds
the two together: not the stores, not the removal of old entries, and not the lookups.
-/
namespace Redo.Cache.Local
open Library Remote Relation

/-- `store` and `lookup` go on with such a key only. -/
structure ActionKey where
  hex : Text
  ne_nil : hex ≠ []
deriving DecidableEq

inductive Side where
  | blob
  | metadata
deriving DecidableEq, Repr

/-- The files of the entries, and the temporary ones, which have the number of a process in their
names. -/
structure Objects where
  file : Side × ActionKey → Option (List UInt8)
  tmp : Side × ActionKey × ℕ → Option (List UInt8)

/-- What is put into place: a copy of the source, which had the size before the copy was begun, or
the metadata. -/
inductive Job where
  | blob (mode : UInt32) (size : UInt64)
  | metadata (m : CachedMeta)
deriving DecidableEq, Repr

def Job.side : Job → Side
  | .blob _ _ => .blob
  | .metadata _ => .metadata

/-- Where the writing of a file stands, with the bytes written so far. -/
inductive Stage where
  | create
  | fill (written : List UInt8)
  | rename (written : List UInt8)
  | recheck (written : List UInt8)
  | drop (written : List UInt8)
deriving DecidableEq, Repr

def Stage.written : Stage → Option (List UInt8)
  | .create => none
  | .fill b => some b
  | .rename b => some b
  | .recheck b => some b
  | .drop b => some b

structure ObjEntry where
  key : ActionKey
  size : ℕ
  mtimeSecs : ℕ

inductive Phase where
  | idle
  | storeBlob (k : ActionKey) (mode : UInt32)
  | storeMeta (k : ActionKey) (mode : UInt32)
  | stat (k : ActionKey) (mode : UInt32)
  | placing (k : ActionKey) (job : Job) (stage : Stage)
  | collecting (objs : List ObjEntry)
  | sweep (todo : List ObjEntry) (total : ℕ)
  | sweepMeta (o : ObjEntry) (todo : List ObjEntry) (total : ℕ)
  | lookupBlob (k : ActionKey)
  | lookupMeta (k : ActionKey)
  | lookupRead (k : ActionKey)
  | found (k : ActionKey) (m : CachedMeta)
  | made (m : CachedMeta) (bytes : List UInt8)

/-- A process with its number and `REDO_ACTION_CACHE_MAX_BYTES`. -/
structure Worker where
  pid : ℕ
  maxBytes : ℕ
  phase : Phase

def Objects.place (s : Objects) (x : Side × ActionKey) (content : Option (List UInt8)) : Objects :=
  { s with file := Function.update s.file x content }

def Objects.setTmp (s : Objects) (x : Side × ActionKey × ℕ) (content : Option (List UInt8)) : Objects :=
  { s with tmp := Function.update s.tmp x content }

def totalSize : List ObjEntry → ℕ
  | [] => 0
  | o :: objs => o.size + totalSize objs

/-- The oldest first, and of these the largest. -/
def bySweepOrder (a b : ObjEntry) : Bool :=
  a.mtimeSecs < b.mtimeSecs || (a.mtimeSecs = b.mtimeSecs && b.size ≤ a.size)

variable (H : Hashing (List UInt8))

/-- What a store does after the file is in its place. -/
def Job.next (k : ActionKey) (b : List UInt8) : Job → Phase
  | .blob mode size => .placing k (.metadata ⟨mode, size, H.sha b⟩) .create
  | .metadata _ => .collecting []

/-- What a store does when the file could not be written. -/
def Job.failed : Job → Phase
  | .blob _ _ => .idle
  | .metadata _ => .collecting []

/-- A copy may end at any point, the source is not held fast. -/
def Job.whole : Job → List UInt8 → Prop
  | .blob _ _, _ => True
  | .metadata m, b => b = encode (metaText m)

def Job.part : Job → List UInt8 → Prop
  | .blob _ _, _ => True
  | .metadata m, b => b <+: encode (metaText m)

/-- The calls to the file system, one by one. -/
inductive Works : Moves Objects Worker
  | store {s : Objects} {p n : ℕ} (k : ActionKey) (mode : UInt32) :
    Works s ⟨p, n, .idle⟩ s ⟨p, n, .storeBlob k mode⟩
  | blobMissing {s : Objects} {p n : ℕ} {k : ActionKey} {mode : UInt32} (h : s.file (.blob, k) = none) :
    Works s ⟨p, n, .storeBlob k mode⟩ s ⟨p, n, .stat k mode⟩
  | blobThere {s : Objects} {p n : ℕ} {k : ActionKey} {mode : UInt32} (h : (s.file (.blob, k)).isSome) :
    Works s ⟨p, n, .storeBlob k mode⟩ s ⟨p, n, .storeMeta k mode⟩
  | metaMissing {s : Objects} {p n : ℕ} {k : ActionKey} {mode : UInt32} (h : s.file (.metadata, k) = none) :
    Works s ⟨p, n, .storeMeta k mode⟩ s ⟨p, n, .stat k mode⟩
  | metaThere {s : Objects} {p n : ℕ} {k : ActionKey} {mode : UInt32} (h : (s.file (.metadata, k)).isSome) :
    Works s ⟨p, n, .storeMeta k mode⟩ s ⟨p, n, .idle⟩
  | stat {s : Objects} {p n : ℕ} {k : ActionKey} {mode : UInt32} (size : UInt64) :
    Works s ⟨p, n, .stat k mode⟩ s ⟨p, n, .placing k (.blob mode size) .create⟩
  | statFailed {s : Objects} {p n : ℕ} {k : ActionKey} {mode : UInt32} :
    Works s ⟨p, n, .stat k mode⟩ s ⟨p, n, .idle⟩
  | create {s : Objects} {p n : ℕ} {k : ActionKey} {job : Job} (h : s.tmp (job.side, k, p) = none) :
    Works s ⟨p, n, .placing k job .create⟩ (s.setTmp (job.side, k, p) (some [])) ⟨p, n, .placing k job (.fill [])⟩
  | createFailed {s : Objects} {p n : ℕ} {k : ActionKey} {job : Job} :
    Works s ⟨p, n, .placing k job .create⟩ s ⟨p, n, job.failed⟩
  | fill {s : Objects} {p n : ℕ} {k : ActionKey} {job : Job} {b more : List UInt8} (h : job.part (b ++ more)) :
    Works s ⟨p, n, .placing k job (.fill b)⟩ (s.setTmp (job.side, k, p) (some (b ++ more)))
      ⟨p, n, .placing k job (.fill (b ++ more))⟩
  | fillFailed {s : Objects} {p n : ℕ} {k : ActionKey} {job : Job} {b : List UInt8} :
    Works s ⟨p, n, .placing k job (.fill b)⟩ s ⟨p, n, job.failed⟩
  | filled {s : Objects} {p n : ℕ} {k : ActionKey} {job : Job} {b : List UInt8} (h : job.whole b) :
    Works s ⟨p, n, .placing k job (.fill b)⟩ s ⟨p, n, .placing k job (.rename b)⟩
  | rename {s : Objects} {p n : ℕ} {k : ActionKey} {job : Job} {b x : List UInt8}
    (h : s.tmp (job.side, k, p) = some x) :
    Works s ⟨p, n, .placing k job (.rename b)⟩ ((s.place (job.side, k) (some x)).setTmp (job.side, k, p) none)
      ⟨p, n, job.next H k b⟩
  | renameFailed {s : Objects} {p n : ℕ} {k : ActionKey} {job : Job} {b : List UInt8} :
    Works s ⟨p, n, .placing k job (.rename b)⟩ s ⟨p, n, .placing k job (.recheck b)⟩
  | lost {s : Objects} {p n : ℕ} {k : ActionKey} {job : Job} {b : List UInt8} (h : s.file (job.side, k) = none) :
    Works s ⟨p, n, .placing k job (.recheck b)⟩ s ⟨p, n, job.failed⟩
  | other {s : Objects} {p n : ℕ} {k : ActionKey} {job : Job} {b : List UInt8}
    (h : (s.file (job.side, k)).isSome) :
    Works s ⟨p, n, .placing k job (.recheck b)⟩ s ⟨p, n, .placing k job (.drop b)⟩
  | drop {s : Objects} {p n : ℕ} {k : ActionKey} {job : Job} {b : List UInt8} :
    Works s ⟨p, n, .placing k job (.drop b)⟩ (s.setTmp (job.side, k, p) none) ⟨p, n, job.next H k b⟩
  | dropFailed {s : Objects} {p n : ℕ} {k : ActionKey} {job : Job} {b : List UInt8} :
    Works s ⟨p, n, .placing k job (.drop b)⟩ s ⟨p, n, job.next H k b⟩
  | unlimited {s : Objects} {p : ℕ} : Works s ⟨p, 0, .collecting []⟩ s ⟨p, 0, .idle⟩
  | collect {s : Objects} {p n : ℕ} {objs : List ObjEntry} {k : ActionKey} {b : List UInt8} (mtime : ℕ)
    (hn : n ≠ 0) (h : s.file (.blob, k) = some b) :
    Works s ⟨p, n, .collecting objs⟩ s ⟨p, n, .collecting (objs ++ [⟨k, b.length, mtime⟩])⟩
  | fits {s : Objects} {p n : ℕ} {objs : List ObjEntry} (h : totalSize objs ≤ n) :
    Works s ⟨p, n, .collecting objs⟩ s ⟨p, n, .idle⟩
  | tooMuch {s : Objects} {p n : ℕ} {objs : List ObjEntry} (hn : n ≠ 0)
    (h : n < totalSize objs) :
    Works s ⟨p, n, .collecting objs⟩ s
      ⟨p, n, .sweep (objs.mergeSort bySweepOrder) (totalSize objs)⟩
  | swept {s : Objects} {p n total : ℕ} {todo : List ObjEntry} (h : total ≤ n ∨ todo = []) :
    Works s ⟨p, n, .sweep todo total⟩ s ⟨p, n, .idle⟩
  | unlinkBlob {s : Objects} {p n total : ℕ} {o : ObjEntry} {todo : List ObjEntry} (h : n < total) :
    Works s ⟨p, n, .sweep (o :: todo) total⟩ (s.place (.blob, o.key) none) ⟨p, n, .sweepMeta o todo total⟩
  | unlinkBlobFailed {s : Objects} {p n total : ℕ} {o : ObjEntry} {todo : List ObjEntry} (h : n < total) :
    Works s ⟨p, n, .sweep (o :: todo) total⟩ s ⟨p, n, .sweepMeta o todo total⟩
  | unlinkMeta {s : Objects} {p n total : ℕ} {o : ObjEntry} {todo : List ObjEntry} :
    Works s ⟨p, n, .sweepMeta o todo total⟩ (s.place (.metadata, o.key) none)
      ⟨p, n, .sweep todo (total - o.size)⟩
  | unlinkMetaFailed {s : Objects} {p n total : ℕ} {o : ObjEntry} {todo : List ObjEntry} :
    Works s ⟨p, n, .sweepMeta o todo total⟩ s ⟨p, n, .sweep todo (total - o.size)⟩
  | lookup {s : Objects} {p n : ℕ} (k : ActionKey) :
    Works s ⟨p, n, .idle⟩ s ⟨p, n, .lookupBlob k⟩
  | lookupBlob {s : Objects} {p n : ℕ} {k : ActionKey} (h : (s.file (.blob, k)).isSome) :
    Works s ⟨p, n, .lookupBlob k⟩ s ⟨p, n, .lookupMeta k⟩
  | lookupMeta {s : Objects} {p n : ℕ} {k : ActionKey} (h : (s.file (.metadata, k)).isSome) :
    Works s ⟨p, n, .lookupMeta k⟩ s ⟨p, n, .lookupRead k⟩
  | lookupRead {s : Objects} {p n : ℕ} {k : ActionKey} {x : List UInt8} {t : Text}
    (h : s.file (.metadata, k) = some x) (ht : decode x = some t) :
    Works s ⟨p, n, .lookupRead k⟩ s ⟨p, n, .found k (readMeta t)⟩
  | materialize {s : Objects} {p n : ℕ} {k : ActionKey} {m : CachedMeta} {b : List UInt8}
    (h : s.file (.blob, k) = some b) :
    Works s ⟨p, n, .found k m⟩ s ⟨p, n, .made m b⟩
  -- an error that ends a lookup, a crash, and the start of another process
  | stop {s : Objects} {p n : ℕ} {phase : Phase} (p' n' : ℕ) : Works s ⟨p, n, phase⟩ s ⟨p', n', .idle⟩

end Redo.Cache.Local
