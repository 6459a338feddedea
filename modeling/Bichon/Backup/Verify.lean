import Bichon.Backup.AuditChain

/-!
# Verifying a restore point

`verify_manifest` asks the store for every object that the manifest refers to. The baseline of
an audit chain is one of them also when there is none, under the empty key; a restore does not
download it then.
-/

namespace Bichon.Backup

open Durable Remote Transition List Manifest

def Manifest.objectRefs (m : Manifest) : List ObjectRef :=
  ([m.objects.memdb, m.objects.imapUid, m.objects.integrity, m.objects.timestamp].flatMap
      Option.toList) ++
    m.objects.blobSegments.map SegmentRef.obj ++
    (m.objects.audit.elim [] fun audit => audit.base :: audit.deltas.map AuditDelta.obj) ++
    m.objects.tantivy.map TantivyRef.obj

/-- What is wrong with an object, given its size on the store. -/
def problems (ref : ObjectRef) : Option Nat → List String
  | some size =>
    if size = ref.bytes then []
    else ["size mismatch: " ++ ref.key ++ " has " ++ toString size ++
      " bytes, manifest says " ++ toString ref.bytes]
  | none => ["missing: " ++ ref.key]

def verifyRefs (X : Extern) (replies : Nat → Reply) : Nat → List ObjectRef → BackupM (List String)
  | _, [] => return []
  | position, ref :: refs => do
      let path ← Prog.lift (pathOf X ref.key)
      let size ← read (replies position) (.store "verify head") fun s => s.objects.lookup path
      let rest ← verifyRefs X replies (position + 1) refs
      return problems ref size ++ rest

def verifyManifest (X : Extern) (replies : Nat → Reply) (m : Manifest) : BackupM (List String) :=
  verifyRefs X replies 0 m.objectRefs

/-- A manifest that a run commits: the one before it was committed by a run, too. -/
inductive Committed : Manifest → Prop
  | run (args : UploadArgs) (previous : Option Manifest)
      (h : ∀ p, previous = some p → Committed p) : Committed (restorePoint args previous)

/-- An audit section has a baseline. -/
def Manifest.HasBaseline (m : Manifest) : Prop :=
  ∀ audit, m.objects.audit = some audit → audit.base.key ≠ ""

/-- Everything that a restore downloads is on the store. -/
def Restorable (X : Extern) (s : Store) (m : Manifest) : Prop :=
  ∀ slot ∈ restoreSlots m, s.Intact X slot.2

section

variable {X : Extern} {s : Store} {m : Manifest}

theorem problems_eq_nil_iff {ref : ObjectRef} {size : Option Nat} :
    problems ref size = [] ↔ size = some ref.bytes := by
  cases size with
  | none | some => simp [problems]

theorem readOnly_verifyRefs {replies : Nat → Reply} (position : Nat) (refs : List ObjectRef) :
    (verifyRefs X replies position refs).ReadOnly := by
  induction refs generalizing position with
  | nil => exact Prog.ReadOnly.pure _
  | cons ref refs ih =>
    refine (Prog.ReadOnly.lift _).bind fun path => readOnly_read.bind fun size => ?_
    exact (ih _).bind fun rest => Prog.ReadOnly.pure _

theorem verifyRefs_result {refs : List ObjectRef} (position : Nat) :
    (verifyRefs X (fun _ => .ok) position refs s).result = .ok [] ↔
      ∀ ref ∈ refs, s.Intact X ref := by
  induction refs generalizing position with
  | nil => simp [verifyRefs, Prog.pure_apply]
  | cons ref refs ih =>
    simp only [verifyRefs, (Prog.ReadOnly.lift _).bind_result, readOnly_read.bind_result,
      (readOnly_verifyRefs _ _).bind_result, Prog.lift_result, pathOf_eq_ok, read_result_eq_ok,
      Prog.pure_apply, Except.ok.injEq, append_eq_nil_iff, problems_eq_nil_iff]
    rw [forall_mem_cons, ← ih (position + 1)]
    constructor
    · rintro ⟨path, hpath, size, ⟨-, rfl⟩, rest, hrest, hsize, rfl⟩
      exact ⟨⟨path, hpath, hsize⟩, hrest⟩
    · rintro ⟨⟨path, hpath, hsize⟩, hrest⟩
      exact ⟨path, hpath, _, ⟨trivial, rfl⟩, [], hrest, hsize, rfl⟩

theorem verifyManifest_result :
    (verifyManifest X (fun _ => .ok) m s).result = .ok [] ↔ ∀ ref ∈ m.objectRefs, s.Intact X ref :=
  verifyRefs_result 0

/-! ## The manifests of runs -/

theorem tantivy_addArtifact {art : Artifact}
    (h : ∀ t ∈ m.objects.tantivy, (tantivyKey t.name).isSome) :
    ∀ t ∈ (m.addArtifact art).objects.tantivy, (tantivyKey t.name).isSome := by
  unfold addArtifact
  split
  case h_4 | h_5 =>
    simp only [forall_mem_append, forall_mem_singleton]
    exact ⟨h, by decide⟩
  all_goals exact h

theorem tantivy_stampAudit (m : Manifest) (stamp : Manifest.AuditStamp) :
    (m.stampAudit stamp).objects.tantivy = m.objects.tantivy := by
  have hcursor : (stamp.cursor.elim m m.setAuditCursor).objects.tantivy = m.objects.tantivy := by
    cases stamp.cursor <;> rfl
  unfold stampAudit
  cases stamp.cumulativeDeltaBytes with
  | none => exact hcursor
  | some sum =>
    rw [Option.elim_some, setCumulativeDeltaBytes]
    split <;> exact hcursor

theorem tantivy_inheritAudit (m : Manifest) (previous : Option Manifest) :
    (m.inheritAudit previous).objects.tantivy = m.objects.tantivy := by
  unfold inheritAudit
  split
  · split <;> rfl
  · rfl

theorem Committed.tantivy (h : Committed m) :
    ∀ t ∈ m.objects.tantivy, (tantivyKey t.name).isSome := by
  obtain ⟨args, previous, -⟩ := h
  rw [restorePoint, tantivy_inheritAudit, tantivy_stampAudit]
  refine foldlRecOn args.artifacts _ (motive := fun m : Manifest =>
    ∀ t ∈ m.objects.tantivy, (tantivyKey t.name).isSome) ?_ fun _ h _ _ => tantivy_addArtifact h
  simp [new]

theorem Committed.allRefs (h : Committed m) : AllRefs (fun ref => ref.key ≠ "") m := by
  induction h with
  | run args previous _ ih => exact allRefs_restorePoint (fun _ _ => objectKey_ne_empty _) ih

/-- Besides what is downloaded, an absent baseline is looked for. -/
theorem forall_objectRefs_iff {P : ObjectRef → Prop}
    (h : ∀ t ∈ m.objects.tantivy, (tantivyKey t.name).isSome) :
    (∀ ref ∈ m.objectRefs, P ref) ↔ (∀ slot ∈ restoreSlots m, P slot.2) ∧
      ∀ audit, m.objects.audit = some audit → audit.base.key = "" → P audit.base := by
  have htantivy : (∀ slot ∈ m.objects.tantivy.filterMap
      (fun t => (tantivyKey t.name).map fun key => (key, t.obj)), P slot.2) ↔
        ∀ t ∈ m.objects.tantivy, P t.obj := by
    constructor
    · intro hall t ht
      obtain ⟨key, hkey⟩ := Option.isSome_iff_exists.mp (h t ht)
      exact hall (key, t.obj) (mem_filterMap.mpr ⟨t, ht, by rw [hkey, Option.map_some]⟩)
    · intro hall slot hslot
      obtain ⟨t, ht, hslot⟩ := mem_filterMap.mp hslot
      obtain ⟨key, -, rfl⟩ := Option.map_eq_some_iff.mp hslot
      exact hall t ht
  have haudit : (∀ slot ∈ m.objects.audit.elim [] AuditObjects.slots, P slot.2) ∧
      (∀ audit, m.objects.audit = some audit → audit.base.key = "" → P audit.base) ↔
        ∀ ref ∈ m.objects.audit.elim [] fun audit => audit.base :: audit.deltas.map AuditDelta.obj,
          P ref := by
    cases m.objects.audit with
    | none => simp
    | some audit =>
      by_cases hkey : audit.base.key = ""
      · simp only [AuditObjects.slots, Option.elim_some, forall_mem_cons, forall_mem_map,
          if_true, nil_append, Option.some.injEq, forall_eq', hkey, true_implies, and_comm]
      · simp [AuditObjects.slots, hkey]
  simp only [objectRefs, restoreSlots, forall_mem_append, forall_mem_map,
    flatMap_cons, flatMap_nil, append_nil, htantivy, ← haudit]
  tauto

theorem verifyManifest_iff (h : Committed m) :
    (verifyManifest X (fun _ => .ok) m s).result = .ok [] ↔ Restorable X s m ∧
      ∀ audit, m.objects.audit = some audit → audit.base.key = "" → s.Intact X audit.base := by
  rw [verifyManifest_result, forall_objectRefs_iff h.tantivy, Restorable]

/-- Nothing that is downloaded is under the path of the empty key. -/
theorem Restorable.eraseObject (h : Restorable X s m) (hm : Committed m) {path : String}
    (hpath : ∀ key, X.objPath key = some path → key = "") :
    Restorable X (s.eraseObject path) m := by
  intro slot hslot
  obtain ⟨other, hother, hlookup⟩ := h slot hslot
  refine ⟨other, hother, ?_⟩
  rw [lookup_eraseObject, if_neg, hlookup]
  rintro rfl
  exact hm.allRefs.restoreSlots slot hslot (hpath _ hother)

end

/-- For a manifest that a run has committed, verification finds no problem just on those stores
from which it can be restored, if and only if an audit section of it has a baseline or it can be
restored from no store at all. -/
theorem verify_restorable_iff (X : Extern)
    (hpath : ∀ key path, X.objPath "" = some path → X.objPath key = some path → key = "")
    (m : Manifest) (hm : Committed m) :
    (∀ s, (verifyManifest X (fun _ => .ok) m s).result = .ok [] ↔ Restorable X s m) ↔
      m.HasBaseline ∨ ∀ s, ¬ Restorable X s m := by
  simp only [verifyManifest_iff hm]
  constructor
  · intro h
    by_contra hneg
    simp only [not_or, not_forall, not_not, Manifest.HasBaseline] at hneg
    obtain ⟨⟨audit, haudit, hkey⟩, s, hs⟩ := hneg
    obtain ⟨path, hbase, -⟩ := ((h s).mpr hs).2 audit haudit hkey
    rw [hkey] at hbase
    have herased := hs.eraseObject hm fun key => hpath key path hbase
    obtain ⟨path', hbase', hlookup⟩ := ((h _).mpr herased).2 audit haudit hkey
    rw [hkey, hbase, Option.some.injEq] at hbase'
    simp [lookup_eraseObject, hbase'] at hlookup
  · rintro (hbase | hnever) s
    · exact and_iff_left fun audit haudit hkey => (hbase audit haudit hkey).elim
    · exact ⟨And.left, fun hs => (hnever s hs).elim⟩

theorem verify_restorable_iff_memdb :
    let m := restorePoint (sampleUpload "1" "2026-09-20T02:00:00.000Z" "aa") none
    ∀ s, (verifyManifest sampleExtern (fun _ => .ok) m s).result = .ok [] ↔
      Restorable sampleExtern s m := by
  refine (verify_restorable_iff sampleExtern ?_ _ (.run _ none (by simp))).mpr (.inl ?_)
  · rintro key path hroot hkey
    exact Option.some.inj (hkey.trans hroot.symm)
  · intro audit haudit
    cases haudit

/-- The first run reports an audit cursor only. Everything it has uploaded can be restored, and
the drill reports an object without a name as missing. -/
theorem verify_misses_baseline :
    ∃ s m, runFrom (Store.next sampleExtern) .empty cursorOnlyRun = some s ∧
      s.Holds (.manifest "1") m ∧ Restorable sampleExtern s m ∧
      (verifyManifest sampleExtern (fun _ => .ok) m s).result = .ok ["missing: "] := by
  refine ⟨_, restorePoint { sampleUpload "1" "2026-09-20T02:00:00.000Z" "aa" with
    audit := { cursor := some 5 } } none, rfl, ?_, ?_, by decide +kernel⟩
  · unfold Store.Holds
    decide +kernel
  · intro slot hslot
    obtain rfl := mem_singleton.mp (show slot ∈ [_] from hslot)
    exact ⟨_, rfl, by decide +kernel⟩

end Bichon.Backup
