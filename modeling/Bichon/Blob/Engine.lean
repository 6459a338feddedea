import Bichon.Blob.Recovery

/-!
# The engine

The state of an open store and the operations on it, statement by statement. A
durable step is one that changes the directory: an append, a committed index
transaction, a saved `meta.bin`, a created, renamed or removed file. Everything
else only changes memory and is gone after a crash.

Files are assumed to behave, with one exception: sealing a segment may fail while
the old file is hashed or while the next one is created, and `SealFault` says
which. A failed operation keeps the changes it had made to memory, as in the
source.
-/

namespace Bichon.Blob

open ByteFile LastWrite Durable

/-- The pool of open files: segment id and inode, the most recently used first. -/
abbrev FilePool := List (Nat × Nat)

def FILE_POOL_SIZE : Nat := 8

/-- A handle for a segment, cached or newly opened on the inode the path leads to,
and the pool after that. -/
def FilePool.get (pool : FilePool) (segId inode : Nat) : Nat × FilePool :=
  match pool.find? (fun entry => entry.1 == segId) with
  | some entry => (entry.2, entry :: pool.eraseP (fun entry => entry.1 == segId))
  | none =>
    let kept := if FILE_POOL_SIZE ≤ pool.length then pool.dropLast else pool
    (inode, (segId, inode) :: kept)

/-- Forget the handle of a segment whose file was replaced. -/
def FilePool.invalidate (pool : FilePool) (segId : Nat) : FilePool :=
  pool.filter fun entry => entry.1 != segId

structure Engine where
  disk : Disk
  globalMeta : GlobalMeta
  activeWriter : SegmentWriter
  filePool : FilePool

abbrev EngineM := Prog Engine Error

/-- The two ways in which sealing a segment may fail. -/
inductive SealFault where
  | hashing
  | createNext
  deriving DecidableEq

def noFaults : Nat → Option SealFault := fun _ => none

namespace Engine

def modifyMeta (f : GlobalMeta → GlobalMeta) : EngineM Unit :=
  Prog.modify fun s => { s with globalMeta := f s.globalMeta }

def save : EngineM Unit :=
  Prog.durable fun s => { s with disk := { s.disk with metaBin := some s.globalMeta } }

/-! ## Sealing and appending -/

/-- Freeze the active segment and start the next one. An empty one is left alone. -/
def sealActive (X : Extern) (fault : Option SealFault) : EngineM Unit := do
  let s ← Prog.state
  if s.activeWriter.bytesWritten = 0 then
    pure ()
  else do
    let oldId := s.activeWriter.id
    modifyMeta fun m => m.upsert oldId fun stats => { stats with sealed := true }
    if fault = some .hashing then
      Prog.fail (.io .other)
    else
      match s.disk.fs.read? (.seg oldId) with
      | none => Prog.fail (.io .notFound)
      | some file => do
          modifyMeta fun m => m.modify oldId fun stats =>
            { stats with sha256 := some (X.sha256 file) }
          let newId := oldId + 1
          modifyMeta fun m => { m with activeSegmentId := newId }
          if fault = some .createNext then
            Prog.fail (.io .other)
          else do
            createSegment newId
            save
where
  /-- `SegmentWriter::create` and its assignment to the active writer. -/
  createSegment (newId : Nat) : EngineM Unit := Prog.durable fun s =>
      let fs := s.disk.fs.create (.seg newId)
      { s with
        disk := { s.disk with fs := fs }
        activeWriter :=
          { file := (fs.inode? (.seg newId)).getD 0, pos := 0, id := newId, bytesWritten := 0 } }

def sealIfFull (X : Extern) (fault : Option SealFault) : EngineM Unit := do
  let s ← Prog.state
  if s.activeWriter.isFull then sealActive X fault else pure ()

def writeActive (X : Extern) (entry : Entry) : EngineM Unit := Prog.durable fun s =>
    let out := s.activeWriter.append X entry s.disk.fs
    { s with disk := { s.disk with fs := out.2 }, activeWriter := out.1 }

/-- What an appended entry adds to the statistics of its segment. -/
def accountEntry (X : Extern) (entry : Entry) (flags : UInt8) (stats : SegmentStats) :
    SegmentStats :=
  let stats := { stats with totalBytes := stats.totalBytes + entry.dataSize.toNat }
  let stats := if flags = 1 then
      { stats with deletedBytes := stats.deletedBytes + entry.rawSize.toNat }
    else
      stats
  stats.recomputeRatio X

/-- Append an entry to the active segment, sealing it first when it is full.
Returns the segment, the offset and the size of the data. -/
def appendEntry (X : Extern) (fault : Option SealFault) (key : Key) (data : Bytes)
    (rawSize : UInt32) (flags : UInt8) (codec : Codec) : EngineM (Nat × Nat × UInt32) := do
  sealIfFull X fault
  let entry : Entry :=
    if flags = 1 then Entry.tombstone key else ⟨flags, codec, key, rawSize, data⟩
  let s ← Prog.state
  let segmentId := s.activeWriter.id
  let offset := s.activeWriter.bytesWritten
  writeActive X entry
  modifyMeta fun m => m.upsert segmentId (accountEntry X entry flags)
  pure (segmentId, offset, entry.dataSize)

/-- Fsync the active segment and save the metadata. What was written is on disk
already, so the first half leaves no trace here. -/
def flushActive : EngineM Unit := save

def markIndexed (segmentId offset : Nat) : EngineM Unit := do
  modifyMeta fun m => m.modify segmentId fun stats =>
    if stats.indexedUpToOffset < offset then
      { stats with indexedUpToOffset := offset }
    else
      stats
  save

def insertRecord (record : IndexRecord) : EngineM Unit :=
  Prog.durable fun s => { s with disk := { s.disk with index := s.disk.index.insert record } }

/-- `index_store.insert_batch`; an empty batch commits nothing. -/
def insertBatch (records : List IndexRecord) : EngineM Unit :=
  if records.isEmpty then
    pure ()
  else
    Prog.durable fun s =>
      { s with disk := { s.disk with index := s.disk.index.insertBatch records } }

/-- The end of an entry, `offset + ENTRY_HEADER_SIZE + data_size`. -/
def entryEnd (offset : Nat) (dataSize : UInt32) : Nat := offset + ENTRY_HEADER_SIZE + dataSize.toNat

/-! ## Reading and writing -/

def put (X : Extern) (config : Config) (fault : Option SealFault) (key : Key) (value : Bytes)
    (codec : Codec) : EngineM Unit :=
  if MAX_VALUE_SIZE < value.length then
    Prog.fail (.valueTooLarge value.length)
  else do
    let stored := compress X value codec config.compressThreshold config.compressionLevel
    let at_ ← appendEntry X fault key stored.1 (UInt32.ofNat value.length) 0 stored.2
    insertRecord ⟨key, at_.1, at_.2.1, at_.2.2, 0⟩
    markIndexed at_.1 (entryEnd at_.2.1 at_.2.2)

def get (X : Extern) (key : Key) : EngineM (Option Bytes) := do
  let s ← Prog.state
  match s.disk.index.get key with
  | none => pure none
  | some record =>
    match s.disk.fs.inode? (.seg record.segmentId) with
    | none => Prog.fail (.segmentNotFound record.segmentId)
    | some inode => do
        let opened := s.filePool.get record.segmentId inode
        Prog.modify fun s => { s with filePool := opened.2 }
        let found ← Prog.lift (readEntryAtFile X record.segmentId (s.disk.fs.data opened.1)
          record.offset)
        let value ← Prog.lift (decompress X found.1.data found.1.codec found.1.rawSize.toNat)
        pure (some value)

/-- Count the data of the entry that is about to be deleted as garbage of the
segment that holds it. -/
def accountDelete (X : Extern) (key : Key) : EngineM Unit := do
  let s ← Prog.state
  match s.disk.index.get key with
  | none => pure ()
  | some record =>
    if record.isTombstone then
      pure ()
    else
      modifyMeta fun m => m.modify record.segmentId fun stats =>
        { stats with
          deletedBytes := stats.deletedBytes + record.dataSize.toNat }.recomputeRatio X

def delete (X : Extern) (fault : Option SealFault) (key : Key) : EngineM Unit := do
  accountDelete X key
  let at_ ← appendEntry X fault key [] 0 1 .none
  insertRecord ⟨key, at_.1, at_.2.1, at_.2.2, 1⟩
  markIndexed at_.1 (entryEnd at_.2.1 at_.2.2)

/-- The records of a batch and the ends of its entries, in the order of the batch. -/
abbrev Batch := List IndexRecord × List (Nat × Nat)

def Batch.push (batch : Batch) (key : Key) (at_ : Nat × Nat × UInt32) (flags : UInt8) : Batch :=
  (batch.1 ++ [⟨key, at_.1, at_.2.1, at_.2.2, flags⟩],
    batch.2 ++ [(at_.1, entryEnd at_.2.1 at_.2.2)])

def deleteBatchLoop (X : Extern) (faults : Nat → Option SealFault) :
    List Key → Batch → EngineM Batch
  | [], batch => pure batch
  | key :: keys, batch => do
      accountDelete X key
      let at_ ← appendEntry X (faults batch.1.length) key [] 0 1 .none
      deleteBatchLoop X faults keys (batch.push key at_ 1)

def markAll : List (Nat × Nat) → EngineM Unit
  | [] => pure ()
  | (segmentId, entryEnd) :: ends => do
      markIndexed segmentId entryEnd
      markAll ends

def deleteBatch (X : Extern) (faults : Nat → Option SealFault) (keys : List Key) :
    EngineM Unit :=
  if keys.isEmpty then
    pure ()
  else do
    let batch ← deleteBatchLoop X faults keys ([], [])
    flushActive
    insertBatch batch.1
    markAll batch.2

def putBatchLoop (X : Extern) (config : Config) (faults : Nat → Option SealFault) :
    List (Key × Bytes × Codec) → Batch → EngineM Batch
  | [], batch => pure batch
  | (key, value, codec) :: entries, batch =>
    if MAX_VALUE_SIZE < value.length then
      Prog.fail (.valueTooLarge value.length)
    else do
      let stored := compress X value codec config.compressThreshold config.compressionLevel
      let at_ ← appendEntry X (faults batch.1.length) key stored.1
        (UInt32.ofNat value.length) 0 stored.2
      putBatchLoop X config faults entries (batch.push key at_ 0)

/-- `dedup_by` on equal segments behind an element that stays: the first of
neighbours stays. -/
def dedupFrom (kept : Nat × Nat) : List (Nat × Nat) → List (Nat × Nat)
  | [] => [kept]
  | e :: rest => if e.1 = kept.1 then dedupFrom kept rest else kept :: dedupFrom e rest

def dedupSegments : List (Nat × Nat) → List (Nat × Nat)
  | [] => []
  | e :: rest => dedupFrom e rest

/-- Keep only the largest end of each segment, in the order of the segments. -/
def dedupEnds (ends : List (Nat × Nat)) : List (Nat × Nat) :=
  dedupSegments (ends.insertionSort fun a b => a.1 < b.1 ∨ (a.1 = b.1 ∧ b.2 ≤ a.2))

def putBatch (X : Extern) (config : Config) (faults : Nat → Option SealFault)
    (entries : List (Key × Bytes × Codec)) : EngineM Unit :=
  if entries.isEmpty then
    pure ()
  else do
    let batch ← putBatchLoop X config faults entries ([], [])
    flushActive
    insertBatch batch.1
    markAll (dedupEnds batch.2)

def sealActiveSegment (X : Extern) (fault : Option SealFault) : EngineM Unit := sealActive X fault

end Engine

end Bichon.Blob
