import Bichon.Blob.Store

/-!
# Opening a store

`scanSegment` is the body of the loop of `scan_segments` for one file: where the
scan starts, what it adds to the statistics, the records it finds and the length
the file is left with. `scanSegments` runs it over the files in the order of their
ids and truncates what has to be truncated, and `openStore` is `Engine::open` up
to the point where the background threads are started.

Every change of the directory is a durable step of its own, so the states the
program passes are the states a crash inside `Engine::open` can leave behind. Note
the order the source has: the metadata is saved inside `recover`, the records are
inserted by its caller.
-/

namespace Bichon.Blob

open ByteFile LastWrite Durable

/-- What an entry found by the scan adds to the statistics of its segment. -/
def visitStats (stats : SegmentStats) (found : Entry × Nat) : SegmentStats :=
  { stats with
    totalBytes := stats.totalBytes + found.1.data.length
    deletedBytes := if found.1.isTombstone then
        stats.deletedBytes + found.1.rawSize.toNat
      else
        stats.deletedBytes }

/-- Where the scan of a segment starts. A segment that is shorter than its indexed
part was replaced by an interrupted compaction and is scanned from the front. -/
def scanStart (fullScan : Bool) (indexedUpToOffset fileSize : Nat) : Nat :=
  if fullScan then 0
  else if indexedUpToOffset ≤ fileSize then indexedUpToOffset
  else 0

structure SegmentScan where
  stats : SegmentStats
  records : List IndexRecord
  /-- the length of the file after the tail was cut off -/
  length : Nat

def scanSegment (X : Extern) (fullScan : Bool) (activeSegmentId segId : Nat)
    (stats : SegmentStats) (file : Bytes) : Except Error SegmentScan :=
  let stats := { stats with sealed := segId != activeSegmentId }
  let start := scanStart fullScan stats.indexedUpToOffset file.length
  if file.length ≤ start then
    .ok ⟨stats, [], file.length⟩
  else
    let scan := scanEntries X segId file start
    let stats := scan.visited.foldl visitStats stats
    match scan.outcome with
    | .error err => .error err
    | .ok truncationPoint =>
      .ok ⟨{ stats with indexedUpToOffset := truncationPoint }.recomputeRatio X,
        scan.visited.map (IndexRecord.ofEntry segId), truncationPoint⟩

/-- Cut a segment file that the scan did not read to its end. -/
def truncateSegment (segId size length : Nat) : Prog Disk Error Unit :=
  if length < size then
    Prog.durable fun d => { d with fs := d.fs.setLen (.seg segId) length }
  else
    pure ()

/-- The loop over the segment files. -/
def scanLoopSegments (X : Extern) (fullScan : Bool) :
    List Nat → GlobalMeta → List IndexRecord → Prog Disk Error (GlobalMeta × List IndexRecord)
  | [], m, records => pure (m, records)
  | segId :: ids, m, records => do
      let d ← Prog.state
      let file := (d.fs.read? (.seg segId)).getD []
      let stats := (m.segments[segId]?).getD (.new segId)
      let found ← Prog.lift (scanSegment X fullScan m.activeSegmentId segId stats file)
      truncateSegment segId file.length found.length
      scanLoopSegments X fullScan ids
        { m with segments := m.segments.insert segId found.stats } (records ++ found.records)

def saveMeta (m : GlobalMeta) : Prog Disk Error Unit :=
  Prog.durable fun d => { d with metaBin := some m }

/-- Scan the segments and collect index records; with `fullScan` from the front. -/
def scanSegments (X : Extern) (fullScan : Bool) (m : GlobalMeta) :
    Prog Disk Error (GlobalMeta × List IndexRecord) := do
  let d ← Prog.state
  let out ← scanLoopSegments X fullScan (diskSegments d.fs) m []
  saveMeta out.1
  pure out

def recover (X : Extern) (m : GlobalMeta) : Prog Disk Error (GlobalMeta × List IndexRecord) :=
  scanSegments X false m

/-- Forget what was counted and indexed. -/
def GlobalMeta.resetStats (m : GlobalMeta) : GlobalMeta :=
  { m with segments := m.segments.map fun _ stats =>
      { stats with
        totalBytes := 0
        deletedBytes := 0
        deletedRatio := 0
        indexedUpToOffset := 0 } }

def rebuildIndex (X : Extern) (m : GlobalMeta) :
    Prog Disk Error (GlobalMeta × List IndexRecord) :=
  scanSegments X true m.resetStats

def removeTemps : List Nat → Prog Disk Error Unit
  | [] => pure ()
  | timestamp :: rest => do
      Prog.durable fun d => { d with fs := d.fs.remove (.temp timestamp) }
      removeTemps rest

def cleanupTempFiles : Prog Disk Error Unit := do
  let d ← Prog.state
  removeTemps (d.fs.names.filterMap FileName.tempId?)

/-- Open the index; an unreadable one is replaced by an empty one. Says whether
the index has to be rebuilt. -/
def openIndex : Prog Disk Error Bool := do
  let d ← Prog.state
  if d.index.readable then
    pure false
  else do
    Prog.durable fun d => { d with index := .empty }
    pure true

/-- Add the segments found on disk to the metadata and find the active one. -/
def discover (ids : List Nat) (m : GlobalMeta) : GlobalMeta :=
  let segments := ids.foldl (fun segments id =>
    segments.insertIfNew id (SegmentStats.new id)) m.segments
  let maxDiskId := ids.getLastD 0
  let active := if m.activeSegmentId < maxDiskId then maxDiskId else m.activeSegmentId
  { activeSegmentId := if active = 0 then 1 else active, segments := segments }

/-- `insert_batch` commits nothing when there is nothing to insert. -/
def insertRecords (records : List IndexRecord) : Prog Disk Error Unit :=
  if records.isEmpty then
    pure ()
  else
    Prog.durable fun d => { d with index := d.index.insertBatch records }

/-- Open the active segment for appending, creating it when it is not there. -/
def openActive (segId : Nat) : Prog Disk Error SegmentWriter := do
  let d ← Prog.state
  match d.fs.inode? (.seg segId) with
  | some file =>
    pure
      { file := file
        pos := (d.fs.data file).length
        id := segId
        bytesWritten := (d.fs.data file).length }
  | none => do
      Prog.durable fun d => { d with fs := d.fs.create (.seg segId) }
      pure { file := d.fs.next, pos := 0, id := segId, bytesWritten := 0 }

/-- `Engine::open`: the metadata in memory and the writer of the active segment. -/
def openStore (X : Extern) (config : Config) : Prog Disk Error (GlobalMeta × SegmentWriter) := do
  Prog.lift config.validate
  let indexRebuilt ← openIndex
  let d ← Prog.state
  let m := discover (diskSegments d.fs) (d.metaBin.getD .new)
  cleanupTempFiles
  let out ← if indexRebuilt then rebuildIndex X m else recover X m
  insertRecords out.2
  let writer ← openActive out.1.activeSegmentId
  saveMeta out.1
  pure (out.1, writer)

end Bichon.Blob
