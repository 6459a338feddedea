import Bichon.Blob.Engine

/-!
# Compaction

`gcPrepare` picks the sealed segment with the highest share of deleted bytes, asks
the index for every entry of it whether it is still the latest version, and writes
the live ones to a temporary file. The second phase renames that file over the
segment, drops the pooled handle, inserts the records with the new offsets and
updates the metadata; each of these is a definition of its own because readers run
between them.
-/

namespace Bichon.Blob

open ByteFile LastWrite Durable

structure GcPrepare where
  segmentId : Nat
  bytesBefore : Nat
  /-- the sum of the data lengths of the kept entries -/
  bytesAfter : Nat
  entriesKept : Nat
  entriesSkipped : Nat
  keptRecords : List IndexRecord
  deletedKeys : List Key
  sha256 : Key
  tempStamp : Nat

structure GcStats where
  segmentId : Nat
  bytesBefore : Nat
  bytesAfter : Nat
  entriesKept : Nat
  entriesSkipped : Nat
  sha256 : Key

/-- What the closure of the compaction scan has collected: the temporary file with
its writer's count, and the variables it captures. -/
structure GcScan where
  file : Cursor
  bytesWritten : Nat
  keptRecords : List IndexRecord
  deletedKeys : List Key
  bytesAfter : Nat
  entriesKept : Nat
  entriesSkipped : Nat

def GcScan.start : GcScan := ⟨⟨[], 0⟩, 0, [], [], 0, 0, 0⟩

def GcScan.keep (X : Extern) (target : Nat) (entry : Entry) (acc : GcScan) : GcScan :=
  { acc with
    file := writeEntry X entry acc.file
    bytesWritten := acc.bytesWritten + entry.diskSize
    keptRecords := acc.keptRecords ++ [IndexRecord.ofEntry target (entry, acc.bytesWritten)]
    bytesAfter := acc.bytesAfter + entry.data.length
    entriesKept := acc.entriesKept + 1 }

def GcScan.skip (acc : GcScan) : GcScan :=
  { acc with entriesSkipped := acc.entriesSkipped + 1 }

/-- Does the index still point at this place for this key? -/
def isLatest (index : IndexStore) (target : Nat) (entry : Entry) (offset : Nat) : Bool :=
  match index.get entry.key with
  | some record => record.segmentId == target && record.offset == offset
  | none => false

def gcVisit (X : Extern) (index : IndexStore) (target : Nat) (acc : GcScan)
    (found : Entry × Nat) : GcScan :=
  if found.1.isTombstone then
    let acc := if isLatest index target found.1 found.2 then
        { acc with deletedKeys := acc.deletedKeys ++ [found.1.key] }
      else
        acc
    acc.skip
  else if isLatest index target found.1 found.2 then
    acc.keep X target found.1
  else
    acc.skip

/-- `max_by` on the ratio: the last one among equals. -/
def maxByRatio (best : Option SegmentStats) (stats : SegmentStats) : Option SegmentStats :=
  match best with
  | none => some stats
  | some b => if stats.deletedRatio < b.deletedRatio then some b else some stats

/-- The segment a compaction would pick. -/
def gcCandidate (config : Config) (m : GlobalMeta) : Option SegmentStats :=
  ((m.segments.toList.map Prod.snd).filter fun stats =>
    stats.sealed && decide (config.gcDeletedRatio ≤ stats.deletedRatio)).foldl maxByRatio none

namespace Engine

def writeTemp (timestamp : Nat) (content : Bytes) : EngineM Unit := Prog.durable fun s =>
    match s.disk.fs.inode? (.temp timestamp) with
    | some file => { s with disk := { s.disk with fs := s.disk.fs.write file content } }
    | none => s

def createTemp (timestamp : Nat) : EngineM Unit :=
  Prog.durable fun s => { s with disk := { s.disk with fs := s.disk.fs.create (.temp timestamp) } }

def gcPrepare (X : Extern) (config : Config) (timestamp : Nat) : EngineM (Option GcPrepare) := do
  let s ← Prog.state
  match gcCandidate config s.globalMeta with
  | none => pure none
  | some target =>
    match s.disk.fs.read? (.seg target.segmentId) with
    -- the file of a stale statistics entry may be gone
    | none => pure none
    | some file => do
        createTemp timestamp
        let scan := scanEntries X target.segmentId file 0
        let acc := scan.visited.foldl (gcVisit X s.disk.index target.segmentId) .start
        writeTemp timestamp acc.file.content
        let _ ← Prog.lift scan.outcome
        pure (some
          { segmentId := target.segmentId
            bytesBefore := target.totalBytes
            bytesAfter := acc.bytesAfter
            entriesKept := acc.entriesKept
            entriesSkipped := acc.entriesSkipped
            keptRecords := acc.keptRecords
            deletedKeys := acc.deletedKeys
            sha256 := X.sha256 acc.file.content
            tempStamp := timestamp })

section

variable (prep : GcPrepare)

/-- `gc_finish`: the rename that commits the new file. -/
def gcFinish : EngineM Unit := do
  let s ← Prog.state
  match s.disk.fs.inode? (.temp prep.tempStamp) with
  | none => Prog.fail (.io .notFound)
  | some _ =>
    Prog.durable fun s =>
      { s with disk := { s.disk with
          fs := s.disk.fs.rename (.temp prep.tempStamp) (.seg prep.segmentId) } }

def gcInvalidate : EngineM Unit :=
  Prog.modify fun s => { s with filePool := s.filePool.invalidate prep.segmentId }

def gcInsertKept : EngineM Unit := insertBatch prep.keptRecords

def gcDeleteKeys : EngineM Unit :=
  if prep.deletedKeys.isEmpty then
    pure ()
  else
    Prog.durable fun s =>
      { s with disk := { s.disk with index := s.disk.index.deleteBatch prep.deletedKeys } }

/-- The statistics of a segment that was just rewritten. -/
def compactedStats (stats : SegmentStats) : SegmentStats :=
  { stats with
    totalBytes := prep.bytesAfter
    deletedBytes := 0
    deletedRatio := 0
    indexedUpToOffset := prep.bytesAfter
    sha256 := some prep.sha256 }

end

def removeSegment (segmentId : Nat) : EngineM Unit :=
  Prog.durable fun s => { s with disk := { s.disk with fs := s.disk.fs.remove (.seg segmentId) } }

/-- The update of the metadata; a segment without data left is dropped. -/
def gcUpdateMeta (prep : GcPrepare) : EngineM Unit :=
  if prep.bytesAfter = 0 then do
    modifyMeta fun m => { m with segments := m.segments.erase prep.segmentId }
    save
    removeSegment prep.segmentId
  else do
    modifyMeta fun m => m.modify prep.segmentId (compactedStats prep)
    save

def gcCommit (prep : GcPrepare) : EngineM GcStats := do
  gcFinish prep
  gcInvalidate prep
  gcInsertKept prep
  gcDeleteKeys prep
  gcUpdateMeta prep
  pure ⟨prep.segmentId, prep.bytesBefore, prep.bytesAfter, prep.entriesKept,
    prep.entriesSkipped, prep.sha256⟩

def gc (X : Extern) (config : Config) (timestamp : Nat) : EngineM (Option GcStats) := do
  let prep ← gcPrepare X config timestamp
  match prep with
  | none => pure none
  | some prep => do
      let stats ← gcCommit prep
      pure (some stats)

end Engine

end Bichon.Blob
