import Bichon.Backup.Complete

/-!
# The pointer to the newest restore point

`LATEST` names a manifest, and is followed by every upload and by every list of restore
points: when it names one that does not exist, both fail. A commit writes the manifest
before the pointer, and a collection keeps the manifest the pointer names. The deletion
of that manifest is different: it deletes the manifest first and then looks for another
one to point to.

`latest_never_dangles`: if no deletion of the manifest that `LATEST` names is interrupted
between these two steps, by a crash or by the store, then in every run `LATEST` is absent
or names a manifest that exists, and the lookups that follow it succeed.
-/

namespace Bichon.Backup

open Durable Remote Transition

/-- Under the names of manifests there are manifests, each under its own id. -/
structure Tidy (s : Store) : Prop where
  wellNamed : s.WellNamed
  clean : s.Clean

/-- `LATEST` is absent or names a manifest that exists. -/
structure PointerOk (s : Store) : Prop extends Tidy s where
  latest : ∃ m?, s.LatestIs m?

section

variable {X : Extern} {faults : Faults} {s t : Store}

/-! ### Changes under `meta/` -/

theorem Tidy.of_metadata (h : Tidy s) (heq : t.metadata = s.metadata) : Tidy t := by
  have hholds {name : MetaName} {m : Manifest} (hm : t.Holds name m) : s.Holds name m := by
    rw [Store.Holds, ← heq]
    exact hm
  exact ⟨fun name m hm => h.wellNamed name m (hholds hm),
    fun id obj hobj => h.clean id obj (heq ▸ hobj)⟩

theorem PointerOk.of_metadata (h : PointerOk s) (heq : t.metadata = s.metadata) : PointerOk t := by
  refine ⟨h.toTidy.of_metadata heq, ?_⟩
  obtain ⟨m?, hm⟩ := h.latest
  refine ⟨m?, ?_⟩
  cases m? with
  | none => rwa [Store.LatestIs, heq]
  | some m => simpa only [Store.LatestIs, Store.Holds, heq] using hm

variable {id : String}

theorem lookup_setLatest {name : MetaName} :
    (s.setLatest id).metadata.lookup name =
      if name = .latest then some (.pointer (some (.manifest id)))
      else s.metadata.lookup name := by
  by_cases h : name = .latest
  · subst h
    simp [Store.setLatest]
  · simp [Store.setLatest, h, AList.lookup_insert_ne h]

variable {m : Manifest}

theorem lookup_putManifest {name : MetaName} :
    (s.putManifest m).metadata.lookup name =
      if name = .manifest m.id then some (.manifest m) else s.metadata.lookup name := by
  by_cases h : name = .manifest m.id
  · subst h
    simp [Store.putManifest]
  · simp [Store.putManifest, h, AList.lookup_insert_ne h]

theorem Tidy.setLatest (h : Tidy s) (id : String) : Tidy (s.setLatest id) where
  wellNamed name m hm := by
    rw [Store.Holds, lookup_setLatest] at hm
    split at hm
    · cases hm
    · exact h.wellNamed name m hm
  clean id' obj hobj := by
    rw [lookup_setLatest, if_neg (by simp)] at hobj
    exact h.clean id' obj hobj

theorem Tidy.eraseMeta (h : Tidy s) (name : MetaName) : Tidy (s.eraseMeta name) where
  wellNamed name' m hm := by
    rw [Store.Holds, lookup_eraseMeta] at hm
    split at hm
    · cases hm
    · exact h.wellNamed name' m hm
  clean id obj hobj := by
    rw [lookup_eraseMeta] at hobj
    split at hobj
    · cases hobj
    · exact h.clean id obj hobj

theorem Tidy.putManifest (h : Tidy s) (m : Manifest) : Tidy (s.putManifest m) where
  wellNamed name m' hm' := by
    rw [Store.Holds, lookup_putManifest] at hm'
    split at hm'
    next hname =>
      cases hm'
      exact hname
    next => exact h.wellNamed name m' hm'
  clean id obj hobj := by
    rw [lookup_putManifest] at hobj
    split at hobj
    · exact ⟨m, (Option.some.inj hobj).symm⟩
    · exact h.clean id obj hobj

theorem Tidy.pointerOk_setLatest (h : Tidy s) (hm : s.Holds (.manifest m.id) m) :
    PointerOk (s.setLatest m.id) := by
  refine ⟨h.setLatest m.id, some m, .manifest m.id, ?_, ?_⟩
  · rw [lookup_setLatest, if_pos rfl]
  · rw [Store.Holds, lookup_setLatest, if_neg (by simp)]
    exact hm

theorem Tidy.pointerOk_dropLatest (h : Tidy s) : PointerOk (s.eraseMeta .latest) :=
  ⟨h.eraseMeta .latest, none, by rw [Store.LatestIs, lookup_eraseMeta, if_pos rfl]⟩

theorem PointerOk.putManifest (h : PointerOk s) (m : Manifest) : PointerOk (s.putManifest m) := by
  refine ⟨h.toTidy.putManifest m, ?_⟩
  obtain ⟨m?, hm⟩ := h.latest
  cases m? with
  | none =>
    refine ⟨none, ?_⟩
    rw [Store.LatestIs, lookup_putManifest, if_neg (by simp)]
    exact hm
  | some m' =>
    obtain ⟨name, hlatest, hm'⟩ := hm
    have hpointer : (s.putManifest m).metadata.lookup .latest = some (.pointer (some name)) := by
      rw [lookup_putManifest, if_neg (by simp)]
      exact hlatest
    by_cases hname : name = .manifest m.id
    · exact ⟨some m, name, hpointer, by rw [Store.Holds, lookup_putManifest, if_pos hname]⟩
    · exact ⟨some m', name, hpointer, by
        rw [Store.Holds, lookup_putManifest, if_neg hname]
        exact hm'⟩

theorem PointerOk.of_fewer (h : PointerOk s)
    (hlookup : ∀ name, t.metadata.lookup name = s.metadata.lookup name ∨
      t.metadata.lookup name = none ∧ ∃ id, name = .manifest id ∧
        s.metadata.lookup .latest ≠ some (.pointer (some name))) : PointerOk t := by
  have hholds {name : MetaName} {obj : MetaObject} (hobj : t.metadata.lookup name = some obj) :
      s.metadata.lookup name = some obj := by
    rcases hlookup name with heq | ⟨hnone, -⟩
    · exact heq.symm.trans hobj
    · cases hnone.symm.trans hobj
  have hpointer : t.metadata.lookup .latest = s.metadata.lookup .latest := by
    rcases hlookup .latest with heq | ⟨-, id, hid, -⟩
    · exact heq
    · cases hid
  refine ⟨⟨fun name m hm => h.wellNamed name m (hholds hm),
    fun id obj hobj => h.clean id obj (hholds hobj)⟩, ?_⟩
  obtain ⟨m?, hm⟩ := h.latest
  refine ⟨m?, ?_⟩
  cases m? with
  | none => exact hpointer.trans hm
  | some m =>
    obtain ⟨name, hlatest, hm⟩ := hm
    refine ⟨name, hpointer.trans hlatest, ?_⟩
    rcases hlookup name with heq | ⟨-, -, -, hne⟩
    · exact heq.trans hm
    · exact absurd hlatest hne

/-! ### The operations -/

theorem PointerOk.of_gcState {policy : RetentionPolicy} (h : PointerOk s)
    (ht : GcState X faults policy s t) : PointerOk t := by
  rcases ht with rfl | ⟨keepIds, hkeep, ht⟩
  · exact h
  -- the collection keeps the manifest that the pointer names
  obtain ⟨_, latest, -, hlatest, hids⟩ := gcKeepIds_result.mp hkeep
  have hkept {id : String}
      (hid : s.metadata.lookup .latest = some (.pointer (some (.manifest id)))) :
      id ∈ keepIds := by
    have hlatest := (loadLatest_result.mp hlatest).2.1
    cases latest with
    | none => cases hid.symm.trans hlatest
    | some m =>
      obtain ⟨name, hname, hm⟩ := hlatest
      cases hid.symm.trans hname
      cases h.wellNamed _ _ hm
      simp [← hids]
  have hpruning {u : Store} (hu : Pruning keepIds s u) : PointerOk u := by
    refine h.of_fewer fun name => ?_
    rcases hu.2 name with heq | ⟨hnone, hdoomed⟩
    · exact .inl heq
    · obtain ⟨id, rfl, hout⟩ := doomed_eq_true.mp hdoomed
      exact .inr ⟨hnone, id, rfl, fun hid => hout (hkept hid)⟩
  rcases ht with ht | ⟨pruned, hpruned, ht⟩
  · exact hpruning ht
  · exact (hpruning hpruned.pruning).of_metadata ht.1

theorem yields_reclaim_pointerOk {stats : GcStats} (h : PointerOk s) :
    Yields (reclaimUnreferencedObjects X faults stats) s (fun _ => PointerOk) PointerOk PointerOk :=
  yields_reclaim.mono (fun _ _ ht => h.of_metadata ht.sweeping.1)
    (fun _ ht => h.of_metadata ht.1.1) (fun _ ht => h.of_metadata ht.1)

theorem PointerOk.of_uploadState {args : UploadArgs} (h : PointerOk s)
    (ht : UploadState X faults args s t) : PointerOk t := by
  rcases ht with ht | ⟨previous, u, -, hu, ht⟩
  · exact h.of_metadata ht.metadata
  have hput := (h.of_metadata hu.metadata).putManifest (restorePoint args previous)
  rcases ht with rfl | ht
  · exact hput
  · refine (hput.toTidy.pointerOk_setLatest ?_).of_gcState ht
    rw [Store.Holds, lookup_putManifest, if_pos rfl]

/-! ### Deleting a restore point -/

/-- The part of the deletion behind the last read. -/
def deleteAndReclaim (X : Extern) (faults : Faults) (m : Manifest) (latestName : Option MetaName) :
    BackupM GcStats := do
  write (faults .deleteRestorePoint) (.store "manifest delete") fun s =>
    s.eraseMeta (.manifest m.id)
  if latestName = some (.manifest m.id) then
    repoint faults
  reclaimUnreferencedObjects X faults { manifestsRemoved := 1 }

theorem deleteRestorePoint_cases :
    ((deleteRestorePoint X faults id s).state = s ∧
      (deleteRestorePoint X faults id s).passed = []) ∨
    ∃ m, s.Holds (.manifest id) m ∧ deleteRestorePoint X faults id s =
      deleteAndReclaim X faults m ((s.metadata.lookup .latest).bind MetaObject.rawName) s := by
  rcases readOnly_loadById.bind_cases _ s with hnothing | ⟨m?, hm, heq⟩
  · exact .inl hnothing
  cases m? with
  | none =>
    left
    rw [deleteRestorePoint, heq]
    exact ⟨rfl, rfl⟩
  | some m =>
    rcases readOnly_getObject.bind_cases _ s with hnothing | ⟨latest, hlatest, heq'⟩
    · left
      rw [deleteRestorePoint, heq]
      exact hnothing
    · right
      refine ⟨m, (loadById_result.mp hm).2, ?_⟩
      rw [deleteRestorePoint, heq]
      refine heq'.trans ?_
      rw [(getObject_result.mp hlatest).2]
      rfl

theorem Tidy.repointed (h : Tidy s) (ht : Repointed faults s t) : PointerOk t := by
  rcases ht with ⟨m, hm, rfl⟩ | rfl
  · obtain ⟨id, -, hholds⟩ := Store.mem_loaded.mp hm
    cases h.wellNamed _ _ hholds
    exact h.pointerOk_setLatest hholds
  · exact h.pointerOk_dropLatest

theorem repoint_passed (hlist : faults (.listMeta .repoint) = .ok)
    (hput : faults .repointLatest ≠ .refused) (hdrop : faults .dropLatest ≠ .refused) :
    (repoint faults s).passed ≠ [] := by
  have hwrite {reply : Reply} (hr : reply ≠ .refused) {e : BackupError} {f : Store → Store} :
      ((write reply e f : BackupM Unit) s).passed ≠ [] := by
    cases reply with
    | ok => simp [write, Prog.durable]
    | refused => exact absurd rfl hr
    | applied => simp [write, Prog.durable, Prog.fail, bind]
  rw [repoint, readOnly_loadAllManifests.bind_apply (loadAllManifests_result.mpr ⟨hlist, rfl⟩)]
  cases ((s.loaded faults .repoint).mergeSort newer).head? with
  | some newest => exact hwrite hput
  | none => exact hwrite hdrop

theorem yields_deleteAndReclaim_other {latestName : Option MetaName}
    (h : PointerOk s) (hname : (s.metadata.lookup .latest).bind MetaObject.rawName = latestName)
    (hother : latestName ≠ some (.manifest m.id)) :
    Yields (deleteAndReclaim X faults m latestName) s (fun _ => PointerOk) PointerOk PointerOk := by
  have herase : PointerOk (s.eraseMeta (.manifest m.id)) := by
    refine h.of_fewer fun name => ?_
    rw [lookup_eraseMeta]
    split
    next heq =>
      refine .inr ⟨rfl, m.id, heq, fun hpointer => hother ?_⟩
      rw [← hname, hpointer, ← heq]
      rfl
    next => exact .inl rfl
  apply yields_write_bind (fun _ => h) (fun _ => herase) (fun _ => herase)
  intro _
  rw [if_neg hother]
  exact yields_reclaim_pointerOk herase

/-- The deletion of the manifest that `LATEST` names is not interrupted between the
removal of the manifest and the change of `LATEST`. -/
def RepointsLatest (step : BackupStep) : Prop :=
  step.crash ≠ some 1 ∧ step.faults .deleteRestorePoint ≠ .applied ∧
    (step.faults .deleteRestorePoint = .ok → step.faults (.listMeta .repoint) = .ok ∧
      step.faults .repointLatest ≠ .refused ∧ step.faults .dropLatest ≠ .refused)

instance (step : BackupStep) : Decidable (RepointsLatest step) :=
  inferInstanceAs (Decidable (_ ∧ _ ∧ (_ → _)))

/-- The condition on a step: only the deletion of the manifest that `LATEST` names is
concerned. -/
def KeepsPointer (s : Store) (step : BackupStep) : Prop :=
  match step.op with
  | .deleteRestorePoint id =>
    s.metadata.lookup .latest = some (.pointer (some (.manifest id))) → RepointsLatest step
  | _ => True

instance KeepsPointer.decidable (s : Store) :
    (step : BackupStep) → Decidable (KeepsPointer s step)
  | ⟨.upload _, _, _⟩ => isTrue trivial
  | ⟨.gc _, _, _⟩ => isTrue trivial
  | ⟨.deleteRestorePoint _, _, _⟩ => inferInstanceAs (Decidable (_ = _ → RepointsLatest _))

theorem yields_repoint_reclaim (h : Tidy s) {stats : GcStats}
    (hlist : faults (.listMeta .repoint) = .ok) (hput : faults .repointLatest ≠ .refused)
    (hdrop : faults .dropLatest ≠ .refused) :
    Yields (do repoint faults; reclaimUnreferencedObjects X faults stats) s (fun _ => PointerOk)
      PointerOk PointerOk := by
  apply Yields.bind (yields_repoint.mono (fun _ _ ht => h.repointed ht) _
    (fun _ ht => h.repointed ht))
  · exact fun _ _ ht => yields_reclaim_pointerOk ht
  · rintro t (ht | ⟨-, hlist' | hput' | hdrop'⟩)
    · exact h.repointed ht
    · exact absurd hlist hlist'
    · exact absurd hput' hput
    · exact absurd hdrop' hdrop

theorem deleteAndReclaim_latest (h : faults .deleteRestorePoint = .ok) :
    deleteAndReclaim X faults m (some (.manifest m.id)) = (do
      Prog.durable fun s => s.eraseMeta (.manifest m.id)
      repoint faults
      reclaimUnreferencedObjects X faults { manifestsRemoved := 1 }) := by
  simp [deleteAndReclaim, h]

theorem settle_deleteAndReclaim_latest {crash : Option Nat} (h : PointerOk s)
    (hcrash : crash ≠ some 1) (hdelete : faults .deleteRestorePoint ≠ .applied)
    (hrest : faults .deleteRestorePoint = .ok → faults (.listMeta .repoint) = .ok ∧
      faults .repointLatest ≠ .refused ∧ faults .dropLatest ≠ .refused) :
    PointerOk ((deleteAndReclaim X faults m (some (.manifest m.id))).settle crash s) := by
  cases hreply : faults .deleteRestorePoint with
  | applied => exact absurd hreply hdelete
  | refused =>
    have hyields : Yields (deleteAndReclaim X faults m (some (.manifest m.id))) s
        (fun _ => PointerOk) PointerOk PointerOk := by
      rw [deleteAndReclaim, hreply]
      exact Yields.bind (Yields.fail h) fun _ _ ht => ht
    exact hyields.settle h crash
  | ok =>
    obtain ⟨hlist, hput, hdrop⟩ := hrest hreply
    have hbehind : Yields (do
          repoint faults
          reclaimUnreferencedObjects X faults { manifestsRemoved := 1 })
        (s.eraseMeta (.manifest m.id)) (fun _ => PointerOk) PointerOk PointerOk :=
      yields_repoint_reclaim (h.toTidy.eraseMeta _) hlist hput hdrop
    rw [deleteAndReclaim_latest hreply]
    match crash, hcrash with
    | none, _ => exact hbehind.final fun _ _ ht => ht
    | some 0, _ => exact h
    | some (n + 2), _ =>
      -- the first state that is passed lacks the manifest; the crash comes later
      exact hbehind.2.2 _ (Prog.crashPoint_bind_of_lt rfl
        (Prog.bind_passed_ne_nil (repoint_passed hlist hput hdrop)) (by simp [Prog.durable]))

theorem PointerOk.deleteRestorePoint {step : BackupStep} (h : PointerOk s)
    (hstep : s.metadata.lookup .latest = some (.pointer (some (.manifest id))) →
      RepointsLatest step) :
    PointerOk ((deleteRestorePoint X step.faults id).settle step.crash s) := by
  rcases deleteRestorePoint_cases with hnothing | ⟨m, hm, heq⟩
  · rw [Prog.settle_eq_self hnothing]
    exact h
  rw [Prog.settle_congr heq]
  cases h.wellNamed _ _ hm
  by_cases hname : (s.metadata.lookup .latest).bind MetaObject.rawName = some (.manifest m.id)
  · rw [hname]
    obtain ⟨obj, hobj, hraw⟩ := Option.bind_eq_some_iff.mp hname
    obtain rfl : obj = .pointer (some (.manifest m.id)) := by
      cases obj <;> simp_all [MetaObject.rawName]
    obtain ⟨hcrash, hdelete, hrest⟩ := hstep hobj
    exact settle_deleteAndReclaim_latest h hcrash hdelete hrest
  · exact (yields_deleteAndReclaim_other h rfl hname).settle h _

theorem PointerOk.next {step : BackupStep} (h : PointerOk s) (hstep : KeepsPointer s step)
    (hnext : s.next X step = some t) : PointerOk t := by
  have hstates := next_states hnext
  cases hop : step.op with
  | upload args => exact h.of_uploadState (hop ▸ hstates)
  | gc policy => exact h.of_gcState (hop ▸ hstates)
  | deleteRestorePoint id =>
    rw [Store.next, hop] at hnext
    cases hnext
    exact h.deleteRestorePoint (by simpa only [KeepsPointer, hop] using hstep)

theorem pointerOk_empty : PointerOk .empty where
  wellNamed := by
    intro name m hm
    cases hm
  clean := by
    intro id obj hobj
    cases hobj
  latest := ⟨none, rfl⟩

end

/-- In every run whose deletions of the manifest that `LATEST` names are not interrupted
in between, with crashes and failures of the store at all other points, `LATEST` is absent
or names a manifest that exists, and the lookups that start from it succeed. -/
theorem latest_never_dangles (X : Extern) (steps : List BackupStep) (s : Store)
    (hsteps : Along (Store.next X) KeepsPointer .empty steps)
    (hrun : runFrom (Store.next X) .empty steps = some s) :
    ∃ m?, s.LatestIs m? ∧ (∀ lookup, (loadLatest noFaults lookup s).result = .ok m?) ∧
      ∃ candidates, (listRestorePoints noFaults s).result = .ok candidates := by
  have hok : PointerOk s := Along.invariant (fun h hstep hnext => h.next hstep hnext)
    pointerOk_empty hsteps hrun
  obtain ⟨m?, hm⟩ := hok.latest
  exact ⟨m?, hm, fun _ => loadLatest_result.mpr ⟨rfl, hm, fun _ => rfl⟩,
    listRestorePoints_succeeds hok.clean hm⟩

/-- An upload, a second one that crashes between its manifest and `LATEST`, and the
deletion of the first, which crashes right after `LATEST` was changed. -/
def repointingRun : List BackupStep :=
  [{ op := .upload (sampleUpload "1" "2026-09-20T02:00:00.000Z" "aa"), faults := noFaults,
     crash := none },
   { op := .upload (sampleUpload "2" "2026-09-21T02:00:00.000Z" "bb"), faults := noFaults,
     crash := some 2 },
   { op := .deleteRestorePoint "1", faults := noFaults, crash := some 2 }]

theorem latest_never_dangles_repointed :
    ∃ s, runFrom (Store.next sampleExtern) .empty repointingRun = some s ∧
      s.metadata.lookup .latest = some (.pointer (some (.manifest "2"))) ∧
      ∃ m?, s.LatestIs m? ∧ (∀ lookup, (loadLatest noFaults lookup s).result = .ok m?) ∧
        ∃ candidates, (listRestorePoints noFaults s).result = .ok candidates :=
  ⟨_, rfl, by decide +kernel,
    latest_never_dangles sampleExtern repointingRun _ (by decide +kernel) rfl⟩

/-- An upload and the deletion of its restore point, with the given replies and crash. -/
def deletingRun (faults : Faults) (crash : Option Nat) : List BackupStep :=
  [{ op := .upload (sampleUpload "1" "2026-09-20T02:00:00.000Z" "aa"), faults := noFaults,
     crash := none },
   { op := .deleteRestorePoint "1", faults := faults, crash := crash }]

/-- After a crash behind the removal of the manifest, `LATEST` names a manifest that is
gone: the list of restore points and the next upload fail. The same state is left behind
when the store refuses the listing that follows the removal. -/
theorem latest_dangles :
    (∃ s, runFrom (Store.next sampleExtern) .empty (deletingRun noFaults (some 1)) = some s ∧
      s.metadata.lookup .latest = some (.pointer (some (.manifest "1"))) ∧
      s.metadata.lookup (.manifest "1") = none ∧
      (listRestorePoints noFaults s).result = .error (.store "manifest read") ∧
      (upload sampleExtern noFaults (sampleUpload "2" "2026-09-21T02:00:00.000Z" "bb")
        s).result = .error (.store "manifest read")) ∧
    ∃ s, runFrom (Store.next sampleExtern) .empty (deletingRun
        (fun call => if call = .listMeta .repoint then .refused else .ok) none) = some s ∧
      s.metadata.lookup .latest = some (.pointer (some (.manifest "1"))) ∧
      s.metadata.lookup (.manifest "1") = none := by
  refine ⟨⟨_, rfl, ?_, ?_, ?_, ?_⟩, _, rfl, ?_, ?_⟩ <;> decide +kernel

end Bichon.Backup
