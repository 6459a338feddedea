import Mathlib.Data.List.Basic

/-!
# Restore points

A manifest lists the objects of one restore point. Objects are named by the hash of
their content; the names with a meaning exist only in the slots of the manifest.
`addArtifact` fills the slot of one artifact and `inheritAudit` completes an audit
chain from the manifest before it. What a manifest refers to is `objectKeys`, and
`AllRefs.addArtifact` and `AllRefs.inheritAudit` say where its references come from.

Hashes are written in hexadecimal. An audit chain without a baseline has the empty
key as its base.
-/

namespace Bichon.Backup

open List

structure ObjectRef where
  key : String := ""
  sha256 : String := ""
  bytes : Nat := 0
deriving DecidableEq, Repr

structure SegmentRef where
  segId : Nat
  obj : ObjectRef
deriving DecidableEq, Repr

/-- The rows `seqFrom < seq ≤ seqTo`. -/
structure AuditDelta where
  seqFrom : Int
  seqTo : Int
  obj : ObjectRef
deriving DecidableEq, Repr

structure AuditObjects where
  base : ObjectRef := {}
  deltas : List AuditDelta := []
  cursor : Int := 0
  cumulativeDeltaBytes : Nat := 0
deriving DecidableEq, Repr

structure TantivyRef where
  name : String
  obj : ObjectRef
deriving DecidableEq, Repr

structure ManifestObjects where
  memdb : Option ObjectRef := none
  imapUid : Option ObjectRef := none
  blobSegments : List SegmentRef := []
  audit : Option AuditObjects := none
  integrity : Option ObjectRef := none
  timestamp : Option ObjectRef := none
  tantivy : List TantivyRef := []
deriving DecidableEq, Repr

structure Manifest where
  version : Nat
  id : String
  created : String
  trigger : String
  previous : Option String
  objects : ManifestObjects
deriving DecidableEq, Repr

/-! ### Artifacts -/

inductive ArtifactKey where
  | memdb
  | imapUid
  | blobSegment (segId : Nat)
  | tantivyEnvelope
  | tantivyAttachment
  | auditBase
  | auditDelta (seqFrom seqTo : Int)
  | integrity
  | timestampAnchor
deriving DecidableEq, Repr

def ArtifactKey.label : ArtifactKey → String
  | memdb => "memdb"
  | imapUid => "imap-uid"
  | blobSegment _ => "blob"
  | tantivyEnvelope => "envelope-index"
  | tantivyAttachment => "attachment-index"
  | auditBase | auditDelta .. => "audit"
  | integrity => "integrity"
  | timestampAnchor => "timestamp"

/-- One product of a contributor. `onDisk` is the length the local file has when it
is read for the upload, or nothing when it cannot be read. -/
structure Artifact where
  onDisk : Option Nat
  logical : ArtifactKey
  sha256 : String
  bytes : Nat
deriving DecidableEq, Repr

namespace Manifest

def manifestVersion : Nat := 1

def new (id created trigger : String) (previous : Option String) : Manifest where
  version := manifestVersion
  id := id
  created := created
  trigger := trigger
  previous := previous
  objects := {}

def objectKey (hash : String) : String := "obj/sha256/" ++ hash

def withAudit (m : Manifest) (f : AuditObjects → AuditObjects) : Manifest :=
  { m with objects := { m.objects with audit := some (f (m.objects.audit.getD {})) } }

def addArtifact (m : Manifest) (art : Artifact) : Manifest :=
  let obj : ObjectRef := { key := objectKey art.sha256, sha256 := art.sha256, bytes := art.bytes }
  match art.logical with
  | .memdb => { m with objects := { m.objects with memdb := some obj } }
  | .imapUid => { m with objects := { m.objects with imapUid := some obj } }
  | .blobSegment segId =>
    { m with objects :=
      { m.objects with blobSegments := m.objects.blobSegments ++ [{ segId, obj }] } }
  | .tantivyEnvelope =>
    { m with objects :=
      { m.objects with tantivy := m.objects.tantivy ++ [{ name := "envelope", obj }] } }
  | .tantivyAttachment =>
    { m with objects :=
      { m.objects with tantivy := m.objects.tantivy ++ [{ name := "attachment", obj }] } }
  | .auditBase => m.withAudit fun audit => { audit with base := obj }
  | .auditDelta seqFrom seqTo =>
    m.withAudit fun audit =>
      { audit with deltas := audit.deltas ++ [{ seqFrom, seqTo, obj }] }
  | .integrity => { m with objects := { m.objects with integrity := some obj } }
  | .timestampAnchor => { m with objects := { m.objects with timestamp := some obj } }

def setAuditCursor (m : Manifest) (cursor : Int) : Manifest :=
  m.withAudit fun audit => { audit with cursor := cursor }

end Manifest

def AuditObjects.keys (audit : AuditObjects) : List String :=
  audit.base.key :: audit.deltas.map fun d => d.obj.key

namespace Manifest

def objectKeys (m : Manifest) : List String :=
  ([m.objects.memdb, m.objects.imapUid, m.objects.integrity, m.objects.timestamp].flatMap
      fun slot => slot.toList.map ObjectRef.key) ++
    m.objects.blobSegments.map (fun seg => seg.obj.key) ++
    (m.objects.audit.elim [] AuditObjects.keys) ++
    m.objects.tantivy.map (fun t => t.obj.key)

/-- What the audit contributor reports about the chain. -/
structure AuditStamp where
  cursor : Option Int := none
  cumulativeDeltaBytes : Option Nat := none
deriving DecidableEq, Repr

/-- The sum is only recorded when there is a chain. -/
def setCumulativeDeltaBytes (m : Manifest) (cumulative : Nat) : Manifest :=
  match m.objects.audit with
  | some a =>
    { m with objects :=
      { m.objects with audit := some { a with cumulativeDeltaBytes := cumulative } } }
  | none => m

def stampAudit (m : Manifest) (audit : AuditStamp) : Manifest :=
  let m := audit.cursor.elim m m.setAuditCursor
  audit.cumulativeDeltaBytes.elim m m.setCumulativeDeltaBytes

/-- One earlier delta is added unless the new ones cover it or it is there already. -/
def inheritDelta (firstNew : Option Int) (deltas : List AuditDelta) (d : AuditDelta) :
    List AuditDelta :=
  if (firstNew.elim true fun f => decide (d.seqTo ≤ f)) &&
      !deltas.any (fun e => decide (e.seqFrom = d.seqFrom)) then deltas ++ [d]
  else deltas

def inheritDeltas (audit : AuditObjects) (earlier : List AuditDelta) : List AuditDelta :=
  let firstNew := (audit.deltas.map AuditDelta.seqFrom).min?
  (earlier.foldl (inheritDelta firstNew) audit.deltas).mergeSort
    fun a b => decide (a.seqFrom ≤ b.seqFrom)

/-- A chain without a baseline takes over the baseline and the earlier deltas of the
manifest before it. -/
def inheritAudit (m : Manifest) (previous : Option Manifest) : Manifest :=
  match m.objects.audit, previous.bind (fun p => p.objects.audit) with
  | some audit, some pa =>
    if audit.base.key = "" then
      { m with objects := { m.objects with
          audit := some { audit with
            base := pa.base, deltas := inheritDeltas audit pa.deltas } } }
    else m
  | _, _ => m

theorem mem_inheritDeltas {audit : AuditObjects} {earlier : List AuditDelta} {d : AuditDelta}
    (h : d ∈ inheritDeltas audit earlier) : d ∈ audit.deltas ∨ d ∈ earlier := by
  rw [inheritDeltas, mem_mergeSort] at h
  generalize (audit.deltas.map AuditDelta.seqFrom).min? = firstNew at h
  generalize audit.deltas = deltas at h ⊢
  induction earlier generalizing deltas with
  | nil => exact .inl h
  | cons e earlier ih =>
    rcases ih _ h with hmem | hmem
    · unfold inheritDelta at hmem
      split at hmem
      · rcases mem_append.mp hmem with hold | hnew
        · exact .inl hold
        · exact .inr (by simp [mem_singleton.mp hnew])
      · exact .inl hmem
    · exact .inr (mem_cons_of_mem e hmem)

end Manifest

open Manifest

/-! ### The references of a manifest -/

/-- Every reference of the manifest has the property; an absent baseline is none. -/
@[mk_iff]
structure AllRefs (P : ObjectRef → Prop) (m : Manifest) : Prop where
  memdb : ∀ obj, m.objects.memdb = some obj → P obj
  imapUid : ∀ obj, m.objects.imapUid = some obj → P obj
  blobSegments : ∀ seg ∈ m.objects.blobSegments, P seg.obj
  base : ∀ audit, m.objects.audit = some audit → audit.base.key ≠ "" → P audit.base
  deltas : ∀ audit, m.objects.audit = some audit → ∀ d ∈ audit.deltas, P d.obj
  integrity : ∀ obj, m.objects.integrity = some obj → P obj
  timestamp : ∀ obj, m.objects.timestamp = some obj → P obj
  tantivy : ∀ t ∈ m.objects.tantivy, P t.obj

section

variable {P : ObjectRef → Prop} {m : Manifest}

theorem forall_mem_objectKeys {Q : String → Prop} :
    (∀ key ∈ m.objectKeys, key ≠ "" → Q key) ↔
      AllRefs (fun obj => obj.key ≠ "" → Q obj.key) m := by
  have haudit : (∀ key ∈ m.objects.audit.elim [] AuditObjects.keys, key ≠ "" → Q key) ↔
      ∀ audit, m.objects.audit = some audit → (audit.base.key ≠ "" → Q audit.base.key) ∧
        ∀ d ∈ audit.deltas, d.obj.key ≠ "" → Q d.obj.key := by
    cases m.objects.audit <;> simp [AuditObjects.keys]
  simp only [objectKeys, flatMap_cons, flatMap_nil, append_nil, forall_mem_append,
    forall_mem_map, Option.mem_toList, haudit, allRefs_iff, and_assoc]
  constructor
  · rintro ⟨hmemdb, himap, hintegrity, htimestamp, hblob, hchain, htantivy⟩
    exact ⟨hmemdb, himap, hblob, fun a ha _ => (hchain a ha).1, fun a ha => (hchain a ha).2,
      hintegrity, htimestamp, htantivy⟩
  · rintro ⟨hmemdb, himap, hblob, hbase, hdeltas, hintegrity, htimestamp, htantivy⟩
    exact ⟨hmemdb, himap, hintegrity, htimestamp, hblob,
      fun a ha => ⟨fun hne => hbase a ha hne hne, hdeltas a ha⟩, htantivy⟩

theorem allRefs_new (id created trigger : String) (previous : Option String) :
    AllRefs P (.new id created trigger previous) := by
  constructor <;> simp [new]

section

variable (h : AllRefs P m)

include h

theorem AllRefs.withAudit {f : AuditObjects → AuditObjects}
    (hbase : (f (m.objects.audit.getD {})).base.key ≠ "" → P (f (m.objects.audit.getD {})).base)
    (hdeltas : ∀ d ∈ (f (m.objects.audit.getD {})).deltas, P d.obj) : AllRefs P (m.withAudit f) :=
  { h with
    base := by
      intro _ heq
      cases heq
      exact hbase
    deltas := by
      intro _ heq
      cases heq
      exact hdeltas }

theorem AllRefs.base_getD (hkey : (m.objects.audit.getD {}).base.key ≠ "") :
    P (m.objects.audit.getD {}).base := by
  cases haudit : m.objects.audit with
  | none => simp [haudit] at hkey
  | some audit => exact h.base audit haudit (by simpa [haudit] using hkey)

theorem AllRefs.deltas_getD : ∀ d ∈ (m.objects.audit.getD {}).deltas, P d.obj := by
  cases haudit : m.objects.audit with
  | none => simp
  | some audit => exact h.deltas audit haudit

theorem AllRefs.addArtifact {art : Artifact}
    (hart : P ⟨objectKey art.sha256, art.sha256, art.bytes⟩) : AllRefs P (m.addArtifact art) := by
  have hconcat : ∀ {α : Type} {xs : List α} {x : α} {f : α → ObjectRef}, (∀ y ∈ xs, P (f y)) →
      P (f x) → ∀ y ∈ xs ++ [x], P (f y) :=
    fun hxs hx => forall_mem_append.mpr ⟨hxs, forall_mem_singleton.mpr hx⟩
  unfold Manifest.addArtifact
  cases art.logical with
  | memdb => exact { h with memdb := fun _ heq => by cases heq; exact hart }
  | imapUid => exact { h with imapUid := fun _ heq => by cases heq; exact hart }
  | blobSegment segId =>
    exact { h with blobSegments := hconcat (f := SegmentRef.obj) h.blobSegments hart }
  | tantivyEnvelope | tantivyAttachment =>
    exact { h with tantivy := hconcat (f := TantivyRef.obj) h.tantivy hart }
  | auditBase => exact h.withAudit (fun _ => hart) h.deltas_getD
  | auditDelta seqFrom seqTo =>
    exact h.withAudit h.base_getD (hconcat (f := AuditDelta.obj) h.deltas_getD hart)
  | integrity => exact { h with integrity := fun _ heq => by cases heq; exact hart }
  | timestampAnchor => exact { h with timestamp := fun _ heq => by cases heq; exact hart }

theorem AllRefs.stampAudit (stamp : Manifest.AuditStamp) : AllRefs P (m.stampAudit stamp) := by
  have hcursor : AllRefs P (stamp.cursor.elim m m.setAuditCursor) := by
    cases stamp.cursor with
    | none => exact h
    | some cursor =>
      exact h.withAudit (f := fun audit => { audit with cursor := cursor }) h.base_getD
        h.deltas_getD
  unfold Manifest.stampAudit
  cases stamp.cumulativeDeltaBytes with
  | none => exact hcursor
  | some sum =>
    simp only [Option.elim_some, setCumulativeDeltaBytes]
    split
    next audit haudit =>
      exact { hcursor with
        base := by
          intro _ heq
          cases heq
          exact hcursor.base audit haudit
        deltas := by
          intro _ heq
          cases heq
          exact hcursor.deltas audit haudit }
    next => exact hcursor

theorem AllRefs.inheritAudit {previous : Option Manifest}
    (hprevious : ∀ p, previous = some p → AllRefs P p) : AllRefs P (m.inheritAudit previous) := by
  unfold Manifest.inheritAudit
  split
  next audit pa haudit hpa =>
    split
    · obtain ⟨p, hp, hpa⟩ := Option.bind_eq_some_iff.mp hpa
      exact { h with
        base := by
          intro _ heq
          cases heq
          exact (hprevious p hp).base pa hpa
        deltas := by
          intro _ heq d hd
          cases heq
          rcases mem_inheritDeltas hd with hd | hd
          · exact h.deltas audit haudit d hd
          · exact (hprevious p hp).deltas pa hpa d hd }
    · exact h
  next => exact h

end

end

end Bichon.Backup
