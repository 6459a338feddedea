import Bichon.Backup.Retention
import Bichon.Lib.Remote
import Mathlib.Data.List.AList
import Mathlib.Data.String.Basic

/-!
# The backup engine

The engine keeps its restore points on an object store: the manifests and the pointer
`LATEST` under `meta/`, the objects under `obj/`. An upload puts the objects first, then
the manifest, then the pointer. The collector deletes the manifests the retention policy
does not keep, and then the objects no manifest refers to.

The store is a map that changes one key at a time. Every call to it has a place in the
program (`Call`), and `Faults` gives the reply of each call, so that a statement about
all patterns of failures is one about all `Faults`. The bytes of a manifest and of the
pointer are modelled by what reading them gives. Keys become paths by `objPath`, the
parser of the store library.
-/

namespace Bichon.Backup

open Durable Remote

/-- The names under `meta/`: the pointer, `m-<id>.json.gz`, and all others. -/
inductive MetaName where
  | latest
  | manifest (id : String)
  | other (name : String)
deriving DecidableEq, Repr

/-- What the bytes of an object under `meta/` read as: a manifest, a JSON value with the
pointer it holds under `manifest` (if it does), or neither. -/
inductive MetaObject where
  | manifest (m : Manifest)
  | pointer (name : Option MetaName)
  | corrupt
deriving DecidableEq, Repr

/-- The store: the objects under `meta/`, and the sizes of those under `obj/`. -/
structure Store where
  metadata : AList fun _ : MetaName => MetaObject
  objects : AList fun _ : String => Nat
deriving DecidableEq

/-- The code of other libraries. -/
structure Extern where
  objPath : String → Option String
  calendar : Calendar

/-! ### Calls -/

/-- Who follows the pointer. -/
inductive Lookup where
  | upload
  | chain
  | gc
deriving DecidableEq, Repr

/-- Who lists `meta/`. -/
inductive Pass where
  | restorePoints
  | retention
  | reclaim
  | repoint
deriving DecidableEq, Repr

/-- The calls to the store that the operations make. Within one operation no call
is made twice. -/
inductive Call where
  | getLatest (lookup : Lookup)
  | getLatestManifest (lookup : Lookup)
  | getChain (depth : Nat)
  | listMeta (pass : Pass)
  | getManifest (pass : Pass) (id : String)
  | deleteManifest (id : String)
  | nextObject (position : Nat)
  | deleteObject (path : String)
  | head (position : Nat)
  | put (position : Nat)
  | multipartStart (position : Nat)
  | multipartPart (position part : Nat)
  | multipartComplete (position : Nat)
  | putManifest
  | putLatest
  | getRestorePoint
  | getLatestRaw
  | deleteRestorePoint
  | repointLatest
  | dropLatest
deriving DecidableEq, Repr

abbrev Faults := Call → Reply

def noFaults : Faults := fun _ => .ok

inductive BackupError where
  /-- a call to the store failed; the text says what it was for -/
  | store (what : String)
  | latestCorrupt
  | latestHasNoPointer
  | manifestCorrupt
  | notFound (id : String)
  | invalidKey (key : String)
  | cannotRead
  | changedSize (uploaded size : Nat)
  /-- the walk along the chain was cut off; `loadChainLoop_ends` shows that it is
  not -/
  | outOfFuel
deriving DecidableEq, Repr

abbrev BackupM := Prog Store BackupError

/-! ### Reading -/

def MetaObject.decodeGz : MetaObject → Except BackupError Manifest
  | manifest m => .ok m
  | _ => .error .manifestCorrupt

def MetaObject.latestName : MetaObject → Except BackupError MetaName
  | pointer (some name) => .ok name
  | pointer none => .error .latestHasNoPointer
  | _ => .error .latestCorrupt

/-- A read of one object under `meta/`, or nothing when it is not there. -/
def getObject (reply : Reply) (name : MetaName) (what : String) : BackupM (Option MetaObject) :=
  read reply (.store what) fun s => s.metadata.lookup name

def loadLatest (faults : Faults) (lookup : Lookup) : BackupM (Option Manifest) := do
  match ← getObject (faults (.getLatest lookup)) .latest "LATEST read" with
  | none => return none
  | some latest =>
    let name ← Prog.lift latest.latestName
    match ← getObject (faults (.getLatestManifest lookup)) name "manifest read" with
    | none => Prog.fail (.store "manifest read")
    | some obj =>
      let m ← Prog.lift obj.decodeGz
      return some m

def loadById (reply : Reply) (id : String) : BackupM (Option Manifest) := do
  match ← getObject reply (.manifest id) "manifest read" with
  | none => return none
  | some obj =>
    let m ← Prog.lift obj.decodeGz
    return some m

def loadPrevious (reply : Reply) (m : Manifest) : BackupM (Option Manifest) :=
  match m.previous with
  | some id => loadById reply id
  | none => return none

/-- The walk along the `previous` links. -/
def loadChainLoop (faults : Faults) :
    Nat → Nat → Option Manifest → List String → List Manifest → BackupM (List Manifest)
  | 0, _, _, _, _ => Prog.fail .outOfFuel
  | _ + 1, _, none, _, out => return out
  | fuel + 1, depth, some m, seen, out => do
      if m.id ∈ seen then
        return out
      let next ← loadPrevious (faults (.getChain depth)) m
      loadChainLoop faults fuel (depth + 1) next (m.id :: seen) (out ++ [m])

def loadChain (faults : Faults) : BackupM (List Manifest) := do
  let s ← Prog.state
  let next ← loadLatest faults .chain
  loadChainLoop faults (s.metadata.entries.length + 1) 0 next [] []

def listMetaNames (faults : Faults) (pass : Pass) : BackupM (List MetaName) :=
  read (faults (.listMeta pass)) (.store "list meta") fun s => s.metadata.keys

/-- One round of `load_all_manifests`: a manifest that cannot be loaded, for whatever
reason, is left out. -/
def loadListed (faults : Faults) (pass : Pass) (out : List Manifest) (name : MetaName) :
    BackupM (List Manifest) :=
  match name with
  | .manifest id => do
      match ← Prog.attempt (loadById (faults (.getManifest pass id)) id) with
      | .ok (some m) => return out ++ [m]
      | .ok none => return out
      | .error _ => return out
  | _ => return out

def loadAllManifests (faults : Faults) (pass : Pass) : BackupM (List Manifest) := do
  let names ← listMetaNames faults pass
  names.foldlM (loadListed faults pass) []

/-- The order from new to old; the id breaks ties. -/
def newer (a b : Manifest) : Bool :=
  decide (b.created < a.created ∨ b.created = a.created ∧ b.id ≤ a.id)

def listRestorePoints (faults : Faults) : BackupM (List Manifest) := do
  let chain ← loadChain faults
  let all ← loadAllManifests faults .restorePoints
  let rest := all.filter fun m => decide (m.id ∉ chain.map Manifest.id)
  return chain ++ rest.mergeSort newer

/-! ### Collecting -/

structure GcStats where
  manifestsRemoved : Nat := 0
  objectsRemoved : Nat := 0
  bytesReclaimed : Nat := 0
deriving DecidableEq, Repr

def Store.eraseMeta (s : Store) (name : MetaName) : Store :=
  { s with metadata := s.metadata.erase name }

def Store.eraseObject (s : Store) (path : String) : Store :=
  { s with objects := s.objects.erase path }

def gcKeepIds (X : Extern) (faults : Faults) (policy : RetentionPolicy) :
    BackupM (List String) := do
  let candidates ← listRestorePoints faults
  let keepIds := selectManifests X.calendar candidates policy.effective
  match ← loadLatest faults .gc with
  | some latest => return latest.id :: keepIds
  | none => return keepIds

/-- One round of the loop over `meta/`. -/
def gcManifest (faults : Faults) (keepIds : List String) (stats : GcStats) (name : MetaName) :
    BackupM GcStats :=
  match name with
  | .manifest id =>
    if id ∈ keepIds then return stats
    else do
      write (faults (.deleteManifest id)) (.store "manifest delete") fun s => s.eraseMeta name
      return { stats with manifestsRemoved := stats.manifestsRemoved + 1 }
  | _ => return stats

/-- `obj_path`: the full path of a key. -/
def pathOf (X : Extern) (key : String) : Except BackupError String :=
  match X.objPath key with
  | some path => .ok path
  | none => .error (.invalidKey key)

def referencedPaths (X : Extern) (manifests : List Manifest) : Except BackupError (List String) :=
  (manifests.flatMap Manifest.objectKeys).mapM (pathOf X)

/-- One round of the loop over `obj/`: the next entry of the listing, and its deletion. -/
def reclaimObject (faults : Faults) (referenced : List String) (stats : GcStats)
    (entry : (String × Nat) × Nat) : BackupM GcStats := do
  read (faults (.nextObject entry.2)) (.store "list objects") fun _ => ()
  if entry.1.1 ∈ referenced then
    return stats
  write (faults (.deleteObject entry.1.1)) (.store "object delete") fun s =>
    s.eraseObject entry.1.1
  return { stats with
    objectsRemoved := stats.objectsRemoved + 1, bytesReclaimed := stats.bytesReclaimed + entry.1.2 }

/-- The listing of `obj/`, each entry with its position. -/
def Store.listing (s : Store) : List ((String × Nat) × Nat) :=
  (s.objects.entries.map fun e => (e.1, e.2)).zipIdx

def reclaimUnreferencedObjects (X : Extern) (faults : Faults) (stats : GcStats) :
    BackupM GcStats := do
  let manifests ← loadAllManifests faults .reclaim
  let referenced ← Prog.lift (referencedPaths X manifests)
  let s ← Prog.state
  let stats ← s.listing.foldlM (reclaimObject faults referenced) stats
  read (faults (.nextObject s.listing.length)) (.store "list objects") fun _ => ()
  return stats

def gc (X : Extern) (faults : Faults) (policy : RetentionPolicy) : BackupM GcStats := do
  let keepIds ← gcKeepIds X faults policy
  let names ← listMetaNames faults .retention
  let stats ← names.foldlM (gcManifest faults keepIds) {}
  reclaimUnreferencedObjects X faults stats

/-! ### Deleting one restore point -/

def Store.setLatest (s : Store) (id : String) : Store :=
  { s with metadata := s.metadata.insert .latest (.pointer (some (.manifest id))) }

/-- `LATEST` is pointed at the newest manifest that is left, or dropped. -/
def repoint (faults : Faults) : BackupM Unit := do
  let remaining ← loadAllManifests faults .repoint
  match (remaining.mergeSort newer).head? with
  | some newest =>
    write (faults .repointLatest) (.store "LATEST write") fun s => s.setLatest newest.id
  | none => write (faults .dropLatest) (.store "LATEST delete") fun s => s.eraseMeta .latest

/-- The name in `LATEST`, which need not be that of a manifest that exists. -/
def MetaObject.rawName : MetaObject → Option MetaName
  | pointer name => name
  | _ => none

def deleteRestorePoint (X : Extern) (faults : Faults) (id : String) : BackupM GcStats := do
  match ← loadById (faults .getRestorePoint) id with
  | none => Prog.fail (.notFound id)
  | some manifest =>
    let latest ← getObject (faults .getLatestRaw) .latest "LATEST read"
    let latestName := latest.bind MetaObject.rawName
    write (faults .deleteRestorePoint) (.store "manifest delete") fun s =>
      s.eraseMeta (.manifest manifest.id)
    if latestName = some (.manifest manifest.id) then
      repoint faults
    reclaimUnreferencedObjects X faults { manifestsRemoved := 1 }

/-! ### Uploading -/

structure ArtifactStat where
  kind : String
  newCount : Nat := 0
  newBytes : Nat := 0
  skippedCount : Nat := 0
  skippedBytes : Nat := 0
deriving DecidableEq, Repr

structure EngineSummary where
  uploadedBytes : Nat := 0
  newObjects : Nat := 0
  skippedObjects : Nat := 0
  byKind : List ArtifactStat := []
deriving DecidableEq, Repr

/-- Change the statistics of a kind, which are appended when it occurs first. -/
def updateStat (kind : String) (f : ArtifactStat → ArtifactStat) :
    List ArtifactStat → List ArtifactStat
  | [] => [f { kind }]
  | stat :: stats => if stat.kind = kind then f stat :: stats else stat :: updateStat kind f stats

def uploadPartSize : Nat := 16 * 1024 * 1024

def singlePutMax : Nat := uploadPartSize

/-- The parts of a multipart upload: how many bytes of the file went up. -/
def uploadParts (faults : Faults) (position onDisk size uploaded part : Nat) : BackupM Nat :=
  if h : uploaded < size ∧ min uploadPartSize (onDisk - uploaded) ≠ 0 then do
    read (faults (.multipartPart position part)) (.store "multipart part") fun _ => ()
    uploadParts faults position onDisk size
      (uploaded + min uploadPartSize (onDisk - uploaded)) (part + 1)
  else return uploaded
termination_by size - uploaded
decreasing_by omega

def Store.putObject (s : Store) (path : String) (size : Nat) : Store :=
  { s with objects := s.objects.insert path size }

/-- An upload in parts becomes visible when it is completed. -/
def putFileMultipart (faults : Faults) (position : Nat) (path : String) (onDisk : Option Nat)
    (size : Nat) : BackupM Unit := do
  read (faults (.multipartStart position)) (.store "multipart start") fun _ => ()
  match onDisk with
  | none => Prog.fail .cannotRead
  | some onDisk =>
    let uploaded ← uploadParts faults position onDisk size 0 0
    if uploaded ≠ size then
      Prog.fail (.changedSize uploaded size)
    else
      write (faults (.multipartComplete position)) (.store "multipart complete") fun s =>
        s.putObject path size

def putFile (faults : Faults) (position : Nat) (path : String) (onDisk : Option Nat)
    (size : Nat) : BackupM Unit :=
  if size ≤ singlePutMax then
    match onDisk with
    | none => Prog.fail .cannotRead
    | some data =>
      if data ≠ size then
        Prog.fail (.changedSize data size)
      else
        write (faults (.put position)) (.store "upload") fun s => s.putObject path size
  else putFileMultipart faults position path onDisk size

def toRef (art : Artifact) (key : String) : ObjectRef :=
  { key, sha256 := art.sha256, bytes := art.bytes }

/-- An object that is there with the right size is skipped. -/
def uploadArtifact (X : Extern) (faults : Faults) (position : Nat) (art : Artifact)
    (summary : EngineSummary) : BackupM (ObjectRef × EngineSummary) := do
  let key := Manifest.objectKey art.sha256
  let path ← Prog.lift (pathOf X key)
  let present ← read (faults (.head position)) (.store "head") fun s => s.objects.lookup path
  if present = some art.bytes then
    return (toRef art key, { summary with
      skippedObjects := summary.skippedObjects + 1
      byKind := updateStat art.logical.label (fun stat => { stat with
        skippedCount := stat.skippedCount + 1
        skippedBytes := stat.skippedBytes + art.bytes }) summary.byKind })
  putFile faults position path art.onDisk art.bytes
  return (toRef art key, { summary with
    newObjects := summary.newObjects + 1
    uploadedBytes := summary.uploadedBytes + art.bytes
    byKind := updateStat art.logical.label (fun stat => { stat with
      newCount := stat.newCount + 1
      newBytes := stat.newBytes + art.bytes }) summary.byKind })

def Store.putManifest (s : Store) (m : Manifest) : Store :=
  { s with metadata := s.metadata.insert (.manifest m.id) (.manifest m) }

def commit (faults : Faults) (manifest : Manifest) : BackupM Unit := do
  write (faults .putManifest) (.store "manifest write") fun s => s.putManifest manifest
  write (faults .putLatest) (.store "LATEST write") fun s => s.setLatest manifest.id

structure BackupSummary where
  manifestId : String
  uploadedBytes : Nat
  newObjects : Nat
  skippedObjects : Nat
  byKind : List ArtifactStat
deriving DecidableEq, Repr

/-- What a run is given: the captured artifacts, the retention policy, the facts about
the audit chain, and the fresh id and time of the manifest. -/
structure UploadArgs where
  artifacts : List Artifact
  trigger : String
  retention : RetentionPolicy
  audit : Manifest.AuditStamp
  id : String
  created : String

/-- One round of the loop over the artifacts. -/
def uploadNext (X : Extern) (faults : Faults) (acc : Manifest × EngineSummary)
    (entry : Artifact × Nat) : BackupM (Manifest × EngineSummary) := do
  let (_, summary) ← uploadArtifact X faults entry.2 entry.1 acc.2
  return (acc.1.addArtifact entry.1, summary)

/-- A whole backup run. A collection that fails is logged and nothing more. -/
def upload (X : Extern) (faults : Faults) (args : UploadArgs) : BackupM BackupSummary := do
  let previous ← loadLatest faults .upload
  let manifest := Manifest.new args.id args.created args.trigger (previous.map Manifest.id)
  let (manifest, esum) ← args.artifacts.zipIdx.foldlM (uploadNext X faults) (manifest, {})
  let manifest := (manifest.stampAudit args.audit).inheritAudit previous
  commit faults manifest
  let _ ← Prog.attempt (gc X faults args.retention)
  return { manifestId := manifest.id, uploadedBytes := esum.uploadedBytes,
           newObjects := esum.newObjects, skippedObjects := esum.skippedObjects,
           byKind := esum.byKind }

end Bichon.Backup
