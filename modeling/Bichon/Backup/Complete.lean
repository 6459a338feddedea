import Bichon.Backup.GcSafety
import Bichon.Lib.Transition

/-!
# Every restore point is complete

A run is a list of uploads, collections and deletions, one after the other, each of
which may fail or crash at any of its durable steps. Objects are put before the manifest
that refers to them, and manifests are deleted before objects, so at every moment the
objects of every manifest on the store are there.

The key of an audit chain without a baseline is empty and names no object. With that
exception `restore_points_complete` says of every run in which the reads succeed that
every object a manifest refers to is present.
-/

namespace Bichon.Backup

open Durable Remote Transition Yields AList

/-! ### Runs -/

inductive BackupOp where
  | upload (args : UploadArgs)
  | gc (policy : RetentionPolicy)
  | deleteRestorePoint (id : String)

/-- One operation, with the replies of the store and the number of durable steps after
which it crashes, if it does. -/
structure BackupStep where
  op : BackupOp
  faults : Faults
  crash : Option Nat

def Store.empty : Store where
  metadata := ∅
  objects := ∅

def Store.next (X : Extern) (s : Store) (step : BackupStep) : Option Store :=
  match step.op with
  | .upload args => some ((upload X step.faults args).settle step.crash s)
  | .gc policy => some ((gc X step.faults policy).settle step.crash s)
  | .deleteRestorePoint id => some ((deleteRestorePoint X step.faults id).settle step.crash s)

def Call.isRead : Call → Bool
  | getLatest _ | getLatestManifest _ | getChain _ | listMeta _ | getManifest .. | nextObject _
  | head _ | getRestorePoint | getLatestRaw => true
  | _ => false

def ReadsSucceed (faults : Faults) : Prop := ∀ call : Call, call.isRead = true → faults call = .ok

/-- The states an operation can leave the store in. -/
def BackupOp.States (X : Extern) (faults : Faults) : BackupOp → Store → Store → Prop
  | upload args => UploadState X faults args
  | gc policy => GcState X faults policy
  | deleteRestorePoint id => DeleteState X faults id

/-- Wherever an operation ends or crashes, the store is in one of these states. -/
theorem next_states {X : Extern} {s t : Store} {step : BackupStep} (h : s.next X step = some t) :
    step.op.States X step.faults s t := by
  unfold Store.next at h
  split at h
  next args hop =>
    cases h
    have hupload : Yields (upload X step.faults args) s
        (fun _ => UploadState X step.faults args s) (UploadState X step.faults args s)
        (UploadState X step.faults args s) :=
      yields_upload.mono (fun _ _ ⟨previous, u, hlatest, hu, ht⟩ =>
        .inr ⟨previous, u, hlatest, hu, .inr ht⟩) (fun _ ht => ht) (fun _ ht => ht)
    rw [hop]
    exact hupload.settle (.inl (.refl X _ s)) step.crash
  next policy hop =>
    cases h
    rw [hop]
    exact yields_gcState.settle (.inl rfl) step.crash
  next id hop =>
    cases h
    rw [hop]
    exact yields_deleteRestorePoint.settle (.inl rfl) step.crash

/-! ### Completeness -/

theorem allRefs_restorePoint {P : ObjectRef → Prop} {args : UploadArgs} {previous : Option Manifest}
    (hart : ∀ art ∈ args.artifacts, P ⟨Manifest.objectKey art.sha256, art.sha256, art.bytes⟩)
    (hprevious : ∀ p, previous = some p → AllRefs P p) :
    AllRefs P (restorePoint args previous) := by
  refine AllRefs.inheritAudit (AllRefs.stampAudit ?_ _) hprevious
  generalize hnew : Manifest.new args.id args.created args.trigger (previous.map Manifest.id) = m
  have hm : AllRefs P m := hnew ▸ allRefs_new ..
  generalize args.artifacts = arts at hart ⊢
  clear hnew
  induction arts generalizing m with
  | nil => exact hm
  | cons art arts ih =>
    rw [List.forall_mem_cons] at hart
    exact ih _ (hm.addArtifact hart.1) hart.2

section

variable (X : Extern) (s : Store)

def Store.HasObjects (m : Manifest) : Prop := ∀ key ∈ m.objectKeys, key ≠ "" → s.Present X key

def Store.Complete : Prop := ∀ id m, s.Holds (.manifest id) m → s.HasObjects X m

end

/-- The invariant: what every state between two durable steps has. -/
structure Sound (X : Extern) (s : Store) : Prop where
  wellNamed : s.WellNamed
  complete : s.Complete X

section

variable {X : Extern} {faults : Faults} {s t : Store}

section

variable (h : Sound X s)

include h

theorem Sound.of_fewer (hobjects : t.objects = s.objects)
    (hholds : ∀ name m, t.Holds name m → s.Holds name m) : Sound X t where
  wellNamed name m hm := h.wellNamed name m (hholds name m hm)
  complete id m hm key hkey hne := by
    obtain ⟨path, hpath, hin⟩ := h.complete id m (hholds _ m hm) key hkey hne
    exact ⟨path, hpath, by rw [hobjects]; exact hin⟩

theorem Sound.of_sweeping (hreads : ReadsSucceed faults)
    (ht : Sweeping X faults s t) : Sound X t := by
  obtain ⟨hmeta, hobjects⟩ := ht
  have hholds {name : MetaName} {m : Manifest} (hm : t.Holds name m) : s.Holds name m := by
    rw [Store.Holds, ← hmeta]
    exact hm
  refine ⟨fun name m hm => h.wellNamed name m (hholds hm), ?_⟩
  intro id m hm key hkey hne
  obtain ⟨path, hpath, hin⟩ := h.complete id m (hholds hm) key hkey hne
  refine ⟨path, hpath, ?_⟩
  rcases hobjects path with heq | ⟨-, referenced, href, hnot⟩
  · rw [← lookup_isSome, heq, lookup_isSome]
    exact hin
  · have hloaded : m ∈ s.loaded faults .reclaim :=
      Store.mem_loaded.mpr ⟨id, hreads _ rfl, hholds hm⟩
    exact absurd ((mem_referencedPaths href).mpr ⟨m, hloaded, key, hkey, hpath⟩) hnot

theorem Sound.of_pruning {keepIds : List String} (ht : Pruning keepIds s t) : Sound X t := by
  refine h.of_fewer ht.1 fun name m hm => ?_
  rcases ht.2 name with heq | ⟨hnone, -⟩
  · exact heq.symm.trans hm
  · cases hnone.symm.trans hm

theorem Sound.of_gcState {policy : RetentionPolicy} (hreads : ReadsSucceed faults)
    (ht : GcState X faults policy s t) : Sound X t := by
  rcases ht with rfl | ⟨keepIds, -, ht | ⟨pruned, hpruned, ht⟩⟩
  · exact h
  · exact h.of_pruning ht
  · exact (h.of_pruning hpruned.pruning).of_sweeping hreads ht

theorem Sound.eraseMeta (name : MetaName) : Sound X (s.eraseMeta name) := by
  refine h.of_fewer rfl fun name' m hm => ?_
  rw [Store.Holds, lookup_eraseMeta] at hm
  split at hm
  · cases hm
  · exact hm

theorem Sound.setLatest (id : String) : Sound X (s.setLatest id) := by
  refine h.of_fewer rfl fun name m hm => ?_
  by_cases hname : name = .latest
  · subst hname
    cases hm
  · rw [Store.Holds, Store.setLatest, lookup_insert_ne hname] at hm
    exact hm

end

theorem Sound.putManifest (h : Sound X s) {m : Manifest} (hm : s.HasObjects X m) :
    Sound X (s.putManifest m) := by
  have hlookup {name : MetaName} {m' : Manifest} (hm' : (s.putManifest m).Holds name m') :
      name = .manifest m.id ∧ m' = m ∨ s.Holds name m' := by
    by_cases hname : name = .manifest m.id
    · subst hname
      rw [Store.Holds, Store.putManifest, lookup_insert] at hm'
      cases hm'
      exact .inl ⟨rfl, rfl⟩
    · rw [Store.Holds, Store.putManifest, lookup_insert_ne hname] at hm'
      exact .inr hm'
  refine ⟨fun name m' hm' => ?_, fun id m' hm' => ?_⟩
  · rcases hlookup hm' with ⟨rfl, rfl⟩ | hold
    · rfl
    · exact h.wellNamed name m' hold
  · rcases hlookup hm' with ⟨-, rfl⟩ | hold
    · exact hm
    · exact h.complete id m' hold

/-! ### The operations keep it -/

section

variable (h : Sound X s)

include h

theorem Sound.of_deleteState {id : String} (hreads : ReadsSucceed faults)
    (ht : DeleteState X faults id s t) : Sound X t := by
  rcases ht with rfl | ⟨m, u, -, hu, ht⟩
  · exact h
  have herased := h.eraseMeta (.manifest m.id)
  refine Sound.of_sweeping ?_ hreads ht
  rcases hu with rfl | ⟨m', -, rfl⟩ | rfl
  · exact herased
  · exact herased.setLatest m'.id
  · exact herased.eraseMeta .latest

theorem Sound.of_grown {arts : List Artifact} (ht : Grown X arts s t) : Sound X t := by
  have hholds {name : MetaName} {m : Manifest} (hm : t.Holds name m) : s.Holds name m := by
    rwa [Store.Holds, ← ht.metadata]
  exact ⟨fun name m hm => h.wellNamed name m (hholds hm),
    fun id m hm key hkey hne => ht.kept key (h.complete id m (hholds hm) key hkey hne)⟩

/-- Every object of the new manifest is one of the artifacts or of the manifest before. -/
theorem Sound.hasObjects_restorePoint {args : UploadArgs} {previous : Option Manifest}
    (hlatest : s.LatestIs previous) (ht : Uploaded X args.artifacts s t) :
    t.HasObjects X (restorePoint args previous) := by
  refine forall_mem_objectKeys.mpr (allRefs_restorePoint (fun art hart _ => ht.present art hart) ?_)
  rintro p rfl
  obtain ⟨name, -, hp⟩ := hlatest
  obtain rfl := h.wellNamed name p hp
  exact forall_mem_objectKeys.mp fun key hkey hne =>
    ht.kept key (h.complete _ p hp key hkey hne)

theorem Sound.of_uploadState {args : UploadArgs} (hreads : ReadsSucceed faults)
    (ht : UploadState X faults args s t) : Sound X t := by
  rcases ht with ht | ⟨previous, u, hlatest, hu, ht⟩
  · exact h.of_grown ht
  have hput := (h.of_grown hu.toGrown).putManifest (h.hasObjects_restorePoint hlatest hu)
  rcases ht with rfl | ht
  · exact hput
  · exact (hput.setLatest _).of_gcState hreads ht

end

theorem Sound.next {step : BackupStep} (h : Sound X s) (hreads : ReadsSucceed step.faults)
    (hnext : s.next X step = some t) : Sound X t := by
  have hstates := next_states hnext
  cases hop : step.op with
  | upload args => exact h.of_uploadState hreads (hop ▸ hstates)
  | gc policy => exact h.of_gcState hreads (hop ▸ hstates)
  | deleteRestorePoint id => exact h.of_deleteState hreads (hop ▸ hstates)

theorem sound_empty (X : Extern) : Sound X .empty where
  wellNamed := by
    intro name m hm
    cases hm
  complete := by
    intro id m hm
    cases hm

end

/-- In every run in which the reads of the store succeed, with writes that fail and
crashes at any point, every object that a manifest on the store refers to is on the
store. -/
theorem restore_points_complete (X : Extern) (steps : List BackupStep) (s : Store)
    (hreads : ∀ step ∈ steps, ReadsSucceed step.faults)
    (hrun : runFrom (Store.next X) .empty steps = some s) : s.Complete X := by
  suffices h : ∀ start, Sound X start → runFrom (Store.next X) start steps = some s → Sound X s from
    (h .empty (sound_empty X) hrun).complete
  clear hrun
  induction steps with
  | nil =>
    intro start hstart hrun
    cases hrun
    exact hstart
  | cons step steps ih =>
    intro start hstart hrun
    obtain ⟨t, hnext, hrun⟩ := Option.bind_eq_some_iff.mp hrun
    exact ih (fun step' hstep' => hreads step' (List.mem_cons_of_mem step hstep')) t
      (hstart.next (hreads step (by simp)) hnext) hrun

/-- A run with one object and a policy that keeps the newest two. -/
def sampleUpload (id created hash : String) : UploadArgs where
  artifacts := [{ onDisk := some 1, logical := .memdb, sha256 := hash, bytes := 1 }]
  trigger := "manual"
  retention := keepTwo
  audit := {}
  id := id
  created := created

/-- Two uploads, the second of which crashes in its commit, and a deletion. -/
def sampleRun : List BackupStep :=
  [{ op := .upload (sampleUpload "1" "2026-09-20T02:00:00.000Z" "aa"), faults := noFaults,
     crash := none },
   { op := .upload (sampleUpload "2" "2026-09-21T02:00:00.000Z" "bb"), faults := noFaults,
     crash := some 2 },
   { op := .deleteRestorePoint "1", faults := noFaults, crash := none }]

theorem restore_points_complete_sample :
    ∃ s, runFrom (Store.next sampleExtern) .empty sampleRun = some s ∧
      s.metadata.keys = [.latest, .manifest "2"] ∧ s.Complete sampleExtern :=
  ⟨_, rfl, by decide +kernel, restore_points_complete sampleExtern sampleRun _
    (by simp [sampleRun, ReadsSucceed, noFaults]) rfl⟩

/-- A first run that reports an audit cursor and delivers no baseline. -/
def cursorOnlyRun : List BackupStep :=
  [{ op := .upload { sampleUpload "1" "2026-09-20T02:00:00.000Z" "aa" with
       audit := { cursor := some 5 } }, faults := noFaults, crash := none }]

/-- The manifest of such a run refers to the empty key, and there is no object of that
key. -/
theorem audit_without_baseline :
    ∃ s m, runFrom (Store.next sampleExtern) .empty cursorOnlyRun = some s ∧
      s.Holds (.manifest "1") m ∧ "" ∈ m.objectKeys ∧ ¬ s.Present sampleExtern "" := by
  refine ⟨_, (sampleManifest "1" "2026-09-20T02:00:00.000Z" "aa" none).stampAudit
    { cursor := some 5 }, rfl, ?_, by decide +kernel, ?_⟩
  · unfold Store.Holds
    decide +kernel
  · rintro ⟨path, hpath, hin⟩
    obtain rfl : "" = path := Option.some.inj hpath
    exact absurd hin (by decide +kernel)

end Bichon.Backup
