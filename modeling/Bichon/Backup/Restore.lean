import Bichon.Backup.Complete

/-!
# Restoring a restore point

A restore loads one manifest and downloads the objects it lists, slot by slot; the audit chain
is its baseline and then the deltas in their order. Every object is compared with the size the
manifest gives for it. `restore_result` says when all of this succeeds.

What is downloaded goes to a file that depends on the slot, so the program returns the slots
together with the objects, in the order of the downloads. Unpacking them, and replaying the
deltas, is not part of it.
-/

namespace Bichon.Backup

open Durable Remote List Manifest

inductive RestoreError where
  | backup (e : BackupError)
  | notFound (id : String)
  | wrongSize (key : String) (total bytes : Nat)
deriving DecidableEq, Repr

abbrev RestoreM := Prog Store RestoreError

def asRestore {α : Type} (m : BackupM α) : RestoreM α := fun s =>
  ⟨(m s).result.mapError .backup, (m s).state, (m s).passed⟩

/-- `download_object`, as far as the store is concerned. -/
def downloadObject (X : Extern) (reply : Reply) (obj : ObjectRef) : RestoreM Unit := do
  let path ← asRestore (Prog.lift (pathOf X obj.key))
  match ← read reply (.backup (.store "object read")) fun s => s.objects.lookup path with
  | none => Prog.fail (.backup (.store "object read"))
  | some total =>
    if total ≠ obj.bytes then Prog.fail (.wrongSize obj.key total obj.bytes) else return ()

/-- The index copies with a name that is known. -/
def tantivyKey (name : String) : Option ArtifactKey :=
  if name = "envelope" then some .tantivyEnvelope
  else if name = "attachment" then some .tantivyAttachment
  else none

/-- The chain as it is restored. A chain without a baseline has deltas only. -/
def AuditObjects.slots (audit : AuditObjects) : List (ArtifactKey × ObjectRef) :=
  (if audit.base.key = "" then [] else [(.auditBase, audit.base)]) ++
    audit.deltas.map fun d => (.auditDelta d.seqFrom d.seqTo, d.obj)

/-- `restore_into`: the downloads, in their order. -/
def restoreSlots (m : Manifest) : List (ArtifactKey × ObjectRef) :=
  (m.objects.memdb.toList.map fun obj => (.memdb, obj)) ++
    (m.objects.imapUid.toList.map fun obj => (.imapUid, obj)) ++
    (m.objects.blobSegments.map fun seg => (.blobSegment seg.segId, seg.obj)) ++
    m.objects.audit.elim [] AuditObjects.slots ++
    (m.objects.integrity.toList.map fun obj => (.integrity, obj)) ++
    (m.objects.timestamp.toList.map fun obj => (.timestampAnchor, obj)) ++
    m.objects.tantivy.filterMap fun t => (tantivyKey t.name).map fun key => (key, t.obj)

def downloadAll (X : Extern) (replies : Nat → Reply) :
    Nat → List (ArtifactKey × ObjectRef) → RestoreM (List (ArtifactKey × ObjectRef))
  | _, [] => return []
  | position, slot :: slots => do
      downloadObject X (replies position) slot.2
      let rest ← downloadAll X replies (position + 1) slots
      return slot :: rest

/-- `restore_with_engine` with the id of a restore point. -/
def restore (X : Extern) (reply : Reply) (replies : Nat → Reply) (id : String) :
    RestoreM (List (ArtifactKey × ObjectRef)) := do
  match ← asRestore (loadById reply id) with
  | none => Prog.fail (.notFound id)
  | some m => downloadAll X replies 0 (restoreSlots m)

section

variable {X : Extern} {replies : Nat → Reply} {s : Store}

/-- The object is on the store with the size that is written down for it. -/
def Store.Intact (X : Extern) (s : Store) (obj : ObjectRef) : Prop :=
  ∃ path, X.objPath obj.key = some path ∧ s.objects.lookup path = some obj.bytes

theorem downloadObject_ok {obj : ObjectRef} (h : s.Intact X obj) :
    downloadObject X .ok obj s = ⟨.ok (), s, []⟩ := by
  obtain ⟨path, hpath, hlookup⟩ := h
  have hlift : asRestore (Prog.lift (pathOf X obj.key)) s = ⟨.ok path, s, []⟩ := by
    rw [pathOf, hpath]
    rfl
  rw [downloadObject, Prog.bind_of_ok (a := path) (by rw [hlift]), hlift]
  simp [Prog.bind_of_ok, hlookup, Prog.pure_apply]

theorem downloadAll_ok {slots : List (ArtifactKey × ObjectRef)}
    (h : ∀ slot ∈ slots, s.Intact X slot.2) (position : Nat) :
    downloadAll X (fun _ => .ok) position slots s = ⟨.ok slots, s, []⟩ := by
  induction slots generalizing position with
  | nil => rfl
  | cons slot slots ih =>
    rw [forall_mem_cons] at h
    have hone := downloadObject_ok h.1
    have hrest := ih h.2 (position + 1)
    rw [downloadAll, Prog.bind_of_ok (a := ()) (by rw [hone]), hone]
    simp [Prog.bind_of_ok, hrest, Prog.pure_apply]

theorem restore_result {id : String} {m : Manifest} (hm : s.Holds (.manifest id) m)
    (h : ∀ slot ∈ restoreSlots m, s.Intact X slot.2) :
    (restore X .ok (fun _ => .ok) id s).result = .ok (restoreSlots m) := by
  have hload : (loadById .ok id s).result = .ok (some m) := loadById_result.mpr ⟨rfl, hm⟩
  have hread : (loadById .ok id s).state = s := (readOnly_loadById s).1
  have hok : (asRestore (loadById .ok id) s).result = .ok (some m) := by
    rw [asRestore, hload]
    rfl
  rw [restore, Prog.bind_of_ok hok, asRestore, hread]
  simp [downloadAll_ok h]

/-- What is downloaded of the audit chain. -/
def isAudit : ArtifactKey → Bool
  | .auditBase | .auditDelta .. => true
  | _ => false

theorem filter_isAudit_restoreSlots (m : Manifest) :
    (restoreSlots m).filter (fun slot => isAudit slot.1) =
      m.objects.audit.elim [] AuditObjects.slots := by
  have hnone : ∀ slots : List (ArtifactKey × ObjectRef),
      (∀ slot ∈ slots, isAudit slot.1 = false) →
        slots.filter (fun slot => isAudit slot.1) = [] := by
    intro slots h
    simpa using h
  have hall : (m.objects.audit.elim [] AuditObjects.slots).filter (fun slot => isAudit slot.1) =
      m.objects.audit.elim [] AuditObjects.slots := by
    rw [filter_eq_self]
    intro slot hslot
    cases haudit : m.objects.audit with
    | none => simp [haudit] at hslot
    | some audit =>
      rw [haudit] at hslot
      rcases mem_append.mp hslot with hslot | hslot
      · split at hslot
        · cases hslot
        · rw [mem_singleton.mp hslot]
          rfl
      · obtain ⟨d, -, rfl⟩ := mem_map.mp hslot
        rfl
  have htantivy : ∀ slot ∈ m.objects.tantivy.filterMap
      (fun t => (tantivyKey t.name).map fun key => (key, t.obj)), isAudit slot.1 = false := by
    intro slot hslot
    obtain ⟨t, -, hkey⟩ := mem_filterMap.mp hslot
    unfold tantivyKey at hkey
    split at hkey
    · cases hkey
      rfl
    · split at hkey
      · cases hkey
        rfl
      · cases hkey
  simp only [restoreSlots, filter_append]
  rw [hall, hnone _ (by simp [isAudit]), hnone _ (by simp [isAudit]), hnone _ (by simp [isAudit]),
    hnone _ (by simp [isAudit]), hnone _ (by simp [isAudit]), hnone _ htantivy]
  simp

end

/-! ### Where the references of a manifest come from -/

/-- The reference that a manifest keeps of an artifact. -/
def Artifact.ref (art : Artifact) : ObjectRef := toRef art (Manifest.objectKey art.sha256)

theorem AllRefs.restoreSlots {P : ObjectRef → Prop} {m : Manifest} (h : AllRefs P m) :
    ∀ slot ∈ restoreSlots m, P slot.2 := by
  intro slot hslot
  simp only [Backup.restoreSlots, mem_append, mem_map, mem_filterMap,
    Option.mem_toList, or_assoc] at hslot
  rcases hslot with ⟨obj, hobj, rfl⟩ | ⟨obj, hobj, rfl⟩ | ⟨seg, hseg, rfl⟩ | haudit |
    ⟨obj, hobj, rfl⟩ | ⟨obj, hobj, rfl⟩ | ⟨t, ht, hkey⟩
  · exact h.memdb obj hobj
  · exact h.imapUid obj hobj
  · exact h.blobSegments seg hseg
  · cases haudit' : m.objects.audit with
    | none => simp [haudit'] at haudit
    | some audit =>
      rw [haudit'] at haudit
      rcases mem_append.mp haudit with hbase | hdelta
      · split at hbase
        · cases hbase
        · rename_i hkey
          rw [mem_singleton.mp hbase]
          exact h.base audit haudit' hkey
      · obtain ⟨d, hd, rfl⟩ := mem_map.mp hdelta
        exact h.deltas audit haudit' d hd
  · exact h.integrity obj hobj
  · exact h.timestamp obj hobj
  · obtain ⟨key, -, rfl⟩ := Option.map_eq_some_iff.mp hkey
    exact h.tantivy t ht

end Bichon.Backup
