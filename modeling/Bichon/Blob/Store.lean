import Bichon.Blob.Scan
import Bichon.Lib.Durable
import Bichon.Lib.LastWrite
import Mathlib.Data.List.Sort
import Mathlib.Data.Rat.Floor
import Std.Data.ExtTreeMap

/-!
# What the store keeps on disk

The directory holds the segment files, the index (`index.redb`, a table from keys
to records) and the metadata (`meta.bin`, replaced as a whole). Both databases
are taken at their word: a committed transaction and a saved `meta.bin` are there
after a crash. An index that cannot be opened has `readable = false`.
-/

namespace Bichon.Blob

open ByteFile LastWrite Durable

/-! ## The index -/

structure IndexRecord where
  key : Key
  segmentId : Nat
  offset : Nat
  dataSize : UInt32
  flags : UInt8
  deriving DecidableEq

def IndexRecord.isTombstone (record : IndexRecord) : Bool := record.flags == 1

/-- The record of an entry that stands at an offset of a segment. -/
def IndexRecord.ofEntry (segmentId : Nat) (found : Entry × Nat) : IndexRecord where
  key := found.1.key
  segmentId := segmentId
  offset := found.2
  dataSize := found.1.dataSize
  flags := found.1.flags

structure IndexStore where
  table : Key → Option IndexRecord
  readable : Bool := true

namespace IndexStore

def empty : IndexStore := { table := fun _ => none }

/-- The latest record of a key; a tombstone counts as absent. -/
def get (store : IndexStore) (key : Key) : Option IndexRecord :=
  match store.table key with
  | some record => if record.isTombstone then none else some record
  | none => none

def insert (record : IndexRecord) (store : IndexStore) : IndexStore :=
  { store with table := Function.update store.table record.key (some record) }

def insertBatch (records : List IndexRecord) (store : IndexStore) : IndexStore :=
  records.foldl (fun store record => store.insert record) store

def deleteBatch (keys : List Key) (store : IndexStore) : IndexStore := keys.foldl (fun store key =>
    { store with table := Function.update store.table key none }) store

/-- The updates of the table that a batch of records makes. -/
def updates (records : List IndexRecord) : List (Key × Option IndexRecord) :=
  records.map fun record => (record.key, some record)

theorem updates_append (rs ts : List IndexRecord) :
    updates (rs ++ ts) = updates rs ++ updates ts := by
  simp [updates]

section

variable (store : IndexStore)

@[simp] theorem table_insertBatch (records : List IndexRecord) :
    (store.insertBatch records).table = setAll store.table (updates records) := by
  induction records generalizing store with
  | nil => rfl
  | cons record records ih => exact ih (store.insert record)

@[simp] theorem readable_insertBatch (records : List IndexRecord) :
    (store.insertBatch records).readable = store.readable := by
  induction records generalizing store with
  | nil => rfl
  | cons record records ih => exact ih (store.insert record)

end

theorem get_congr {store store' : IndexStore} {key : Key}
    (h : store.table key = store'.table key) : store.get key = store'.get key := by
  rw [get, get, h]

theorem get_eq_some_iff {store : IndexStore} {key : Key} {record : IndexRecord} :
    store.get key = some record ↔ store.table key = some record ∧ record.isTombstone = false := by
  unfold get
  cases h : store.table key with
  | none => simp
  | some r =>
    dsimp only
    by_cases ht : r.isTombstone = true
    · rw [if_pos ht]
      constructor
      · intro h
        cases h
      · rintro ⟨h, hlive⟩
        cases h
        rw [ht] at hlive
        cases hlive
    · rw [if_neg ht, Option.some.injEq]
      constructor
      · rintro rfl
        exact ⟨rfl, Bool.eq_false_iff.mpr ht⟩
      · exact fun h => h.1

end IndexStore

/-! ## The metadata -/

structure SegmentStats where
  segmentId : Nat
  totalBytes : Nat
  deletedBytes : Nat
  deletedRatio : ℚ
  sealed : Bool
  indexedUpToOffset : Nat
  sha256 : Option Key

namespace SegmentStats

def new (segmentId : Nat) : SegmentStats where
  segmentId := segmentId
  totalBytes := 0
  deletedBytes := 0
  deletedRatio := 0
  sealed := false
  indexedUpToOffset := 0
  sha256 := none

def recomputeRatio (X : Extern) (stats : SegmentStats) : SegmentStats :=
  if 0 < stats.totalBytes then
    { stats with deletedRatio := X.f64 (X.f64 stats.deletedBytes / X.f64 stats.totalBytes) }
  else
    { stats with deletedRatio := 0 }

section

variable (X : Extern) (stats : SegmentStats)

include X stats

@[simp] theorem segmentId_recomputeRatio :
    (stats.recomputeRatio X).segmentId = stats.segmentId := by
  unfold recomputeRatio
  split <;> rfl

@[simp] theorem sealed_recomputeRatio :
    (stats.recomputeRatio X).sealed = stats.sealed := by
  unfold recomputeRatio
  split <;> rfl

@[simp] theorem indexedUpToOffset_recomputeRatio :
    (stats.recomputeRatio X).indexedUpToOffset = stats.indexedUpToOffset := by
  unfold recomputeRatio
  split <;> rfl

@[simp] theorem sha256_recomputeRatio :
    (stats.recomputeRatio X).sha256 = stats.sha256 := by
  unfold recomputeRatio
  split <;> rfl

end

end SegmentStats

structure GlobalMeta where
  activeSegmentId : Nat
  segments : Std.ExtTreeMap Nat SegmentStats

namespace GlobalMeta

def new : GlobalMeta where
  activeSegmentId := 1
  segments := ∅

/-- `segments.get_mut(id)` followed by a change of what is there. -/
def modify (id : Nat) (f : SegmentStats → SegmentStats) (m : GlobalMeta) : GlobalMeta :=
  { m with segments := m.segments.modify id f }

/-- `segments.entry(id).or_insert_with(..)` followed by a change of what is there. -/
def upsert (id : Nat) (f : SegmentStats → SegmentStats) (m : GlobalMeta) : GlobalMeta :=
  { m with segments := m.segments.insert id (f ((m.segments[id]?).getD (.new id))) }

section

variable (m : GlobalMeta)

/-- The offset up to which a segment is known to be indexed; a segment without
statistics counts as not indexed at all. -/
def indexedUpTo (id : Nat) : Nat := ((m.segments[id]?).map SegmentStats.indexedUpToOffset).getD 0

theorem getElem?_modify (id id' : Nat) (f : SegmentStats → SegmentStats) :
    (m.modify id f).segments[id']? =
      if id = id' then (m.segments[id']?).map f else m.segments[id']? := by
  by_cases h : id = id'
  · subst h
    simp [modify]
  · simp [modify, Std.ExtTreeMap.getElem?_modify, h]

theorem getElem?_upsert (id id' : Nat) (f : SegmentStats → SegmentStats) :
    (m.upsert id f).segments[id']? =
      if id = id' then some (f ((m.segments[id]?).getD (.new id))) else m.segments[id']? := by
  simp [upsert, Std.ExtTreeMap.getElem?_insert]

theorem getElem?_insert (id id' : Nat) (stats : SegmentStats) :
    (m.segments.insert id stats)[id']? =
      if id = id' then some stats else m.segments[id']? := by
  simp [Std.ExtTreeMap.getElem?_insert]

end

end GlobalMeta

/-! ## The directory -/

structure Disk where
  fs : FileSystem FileName
  index : IndexStore
  metaBin : Option GlobalMeta

def Disk.empty : Disk where
  fs := .empty
  index := .empty
  metaBin := none

/-- The id in a file name that ends in `.seg` and is not temporary. -/
def FileName.segId? : FileName → Option Nat
  | seg id => some id
  | temp _ => none

/-- The time stamp in the name of a temporary file. -/
def FileName.tempId? : FileName → Option Nat
  | seg _ => none
  | temp timestamp => some timestamp

/-- The ids of the segment files, sorted. -/
def diskSegments (fs : FileSystem FileName) : List Nat :=
  (fs.names.filterMap FileName.segId?).insertionSort (· ≤ ·)

theorem mem_diskSegments {fs : FileSystem FileName} {id : Nat} :
    id ∈ diskSegments fs ↔ fs.read? (.seg id) ≠ none := by
  rw [diskSegments, (List.perm_insertionSort _ _).mem_iff, List.mem_filterMap,
    ← FileSystem.mem_names]
  constructor
  · rintro ⟨name, hname, hid⟩
    cases name with
    | seg id' =>
      cases hid
      exact hname
    | temp t => cases hid
  · intro h
    exact ⟨.seg id, h, rfl⟩

theorem diskSegments_sorted (fs : FileSystem FileName) : (diskSegments fs).Pairwise (· < ·) := by
  have hle : (diskSegments fs).Pairwise (· ≤ ·) := List.pairwise_insertionSort _ _
  have hnodup : (diskSegments fs).Nodup := by
    rw [diskSegments, (List.perm_insertionSort _ _).nodup_iff]
    apply fs.names_nodup.filterMap
    intro m n id hm hn
    cases m <;> cases n <;> simp_all [FileName.segId?]
  exact hle.imp₂ (fun _ _ h1 h2 => lt_of_le_of_ne h1 h2) hnodup

theorem diskSegments_eq_of_mem_iff {fs : FileSystem FileName} {ids : List Nat}
    (hsorted : ids.Pairwise (· < ·)) (hmem : ∀ id, id ∈ ids ↔ fs.read? (.seg id) ≠ none) :
    diskSegments fs = ids := by
  have hs := diskSegments_sorted fs
  have hperm : (diskSegments fs).Perm ids := by
    rw [List.perm_ext_iff_of_nodup (hs.imp fun h => ne_of_lt h) (hsorted.imp fun h => ne_of_lt h)]
    intro id
    rw [mem_diskSegments, hmem]
  exact List.Perm.eq_of_pairwise (fun a b _ _ hab hba => absurd hab (lt_asymm hba)) hs hsorted hperm

end Bichon.Blob
