import Bichon.Lib.Bytes
import Bichon.Backup.Reads

/-!
# What the operations do to the store

Each operation is described once by the states it can leave the store in: at its end,
when it fails, and at a crash. A collection first removes manifests and then objects
(`GcState`); the manifests it removes are not among the ids it keeps, and the objects are
not referred to by any manifest it could load. Deleting a restore point and uploading
one are described in the same way. The results on what survives follow from these
descriptions and do not look at the programs again.
-/

namespace Bichon.Backup

open Durable Remote List Yields

/-- A collection that keeps these ids deletes the object with this name. -/
def doomed (keepIds : List String) : MetaName → Bool
  | .manifest id => decide (id ∉ keepIds)
  | _ => false

theorem doomed_eq_true {keepIds : List String} {name : MetaName} :
    doomed keepIds name = true ↔ ∃ id, name = .manifest id ∧ id ∉ keepIds := by
  cases name <;> simp [doomed]

/-- Some of the manifests to delete are gone. -/
def Pruning (keepIds : List String) (s t : Store) : Prop :=
  t.objects = s.objects ∧ ∀ name, t.metadata.lookup name = s.metadata.lookup name ∨
    t.metadata.lookup name = none ∧ doomed keepIds name = true

def Pruned (keepIds : List String) (s t : Store) : Prop :=
  t.objects = s.objects ∧ ∀ name, t.metadata.lookup name =
    if doomed keepIds name = true then none else s.metadata.lookup name

/-- Some of the objects that no loaded manifest refers to are gone. -/
def Sweeping (X : Extern) (faults : Faults) (s t : Store) : Prop :=
  t.metadata = s.metadata ∧ ∀ path, t.objects.lookup path = s.objects.lookup path ∨
    t.objects.lookup path = none ∧
      ∃ referenced, referencedPaths X (s.loaded faults .reclaim) = .ok referenced ∧
        path ∉ referenced

def Swept (X : Extern) (faults : Faults) (s t : Store) : Prop :=
  ∃ referenced, referencedPaths X (s.loaded faults .reclaim) = .ok referenced ∧
    t.metadata = s.metadata ∧
    ∀ path, t.objects.lookup path =
      if path ∈ referenced then s.objects.lookup path else none

/-- Some call fails, apart from the reads that `load_all_manifests` makes. -/
def Faulty (faults : Faults) : Prop :=
  ∃ call, (∀ pass id, call ≠ .getManifest pass id) ∧ faults call ≠ .ok

variable {s : Store}

theorem Pruned.pruning {keepIds : List String} {t : Store} (h : Pruned keepIds s t) :
    Pruning keepIds s t := by
  refine ⟨h.1, fun name => ?_⟩
  by_cases hname : doomed keepIds name = true
  · exact .inr ⟨by rw [h.2, if_pos hname], hname⟩
  · exact .inl (by rw [h.2, if_neg hname])

variable {X : Extern}

theorem Swept.sweeping {faults : Faults} {t : Store} (h : Swept X faults s t) :
    Sweeping X faults s t := by
  obtain ⟨referenced, href, hmeta, hobj⟩ := h
  refine ⟨hmeta, fun path => ?_⟩
  by_cases hpath : path ∈ referenced
  · exact .inl (by rw [hobj, if_pos hpath])
  · exact .inr ⟨by rw [hobj, if_neg hpath], referenced, href, hpath⟩

theorem Sweeping.refl (X : Extern) (faults : Faults) (s : Store) : Sweeping X faults s s :=
  ⟨rfl, fun _ => .inl rfl⟩

/-! ### The paths of the keys -/

theorem pathOf_eq_ok {key path : String} : pathOf X key = .ok path ↔ X.objPath key = some path := by
  unfold pathOf
  split <;> simp [*]

theorem mapM_pathOf_ok {keys paths : List String} (h : keys.mapM (pathOf X) = .ok paths) :
    (∀ key ∈ keys, X.objPath key ≠ none) ∧
      ∀ path, path ∈ paths ↔ ∃ key ∈ keys, X.objPath key = some path := by
  induction keys generalizing paths with
  | nil =>
    cases h
    simp
  | cons key keys ih =>
    rw [mapM_cons] at h
    obtain ⟨path, hpath, h⟩ := ByteFile.bind_eq_ok h
    obtain ⟨rest, hrest, h⟩ := ByteFile.bind_eq_ok h
    cases h
    obtain ⟨hvalid, hmem⟩ := ih hrest
    rw [pathOf_eq_ok] at hpath
    refine ⟨by simpa [hpath] using hvalid, fun path' => ?_⟩
    simp [hpath, hmem, eq_comm]

theorem mapM_pathOf_error {keys : List String} {e : BackupError}
    (h : keys.mapM (pathOf X) = .error e) : ∃ key ∈ keys, X.objPath key = none := by
  induction keys with
  | nil => cases h
  | cons key keys ih =>
    rw [mapM_cons] at h
    cases hpath : X.objPath key with
    | none => exact ⟨key, by simp, hpath⟩
    | some path =>
      rw [pathOf_eq_ok.mpr hpath] at h
      cases hrest : keys.mapM (pathOf X) with
      | error e' =>
        obtain ⟨key', hkey', hnone⟩ := ih (by rw [hrest] at h ⊢; cases h; rfl)
        exact ⟨key', mem_cons_of_mem key hkey', hnone⟩
      | ok rest =>
        rw [hrest] at h
        cases h

section

variable {X : Extern} {ms : List Manifest}

theorem mem_referencedPaths {referenced : List String}
    (h : referencedPaths X ms = .ok referenced) {path : String} :
    path ∈ referenced ↔ ∃ m ∈ ms, ∃ key ∈ m.objectKeys, X.objPath key = some path := by
  rw [(mapM_pathOf_ok h).2]
  simp only [mem_flatMap]
  constructor
  · rintro ⟨key, ⟨m, hm, hkey⟩, hpath⟩
    exact ⟨m, hm, key, hkey, hpath⟩
  · rintro ⟨m, hm, key, hkey, hpath⟩
    exact ⟨key, ⟨m, hm, hkey⟩, hpath⟩

theorem objPath_ne_none {referenced : List String} (h : referencedPaths X ms = .ok referenced)
    {m : Manifest} (hm : m ∈ ms) {key : String} (hkey : key ∈ m.objectKeys) :
    X.objPath key ≠ none :=
  (mapM_pathOf_ok h).1 key (mem_flatMap.mpr ⟨m, hm, hkey⟩)

theorem exists_invalid {e : BackupError} (h : referencedPaths X ms = .error e) :
    ∃ m ∈ ms, ∃ key ∈ m.objectKeys, X.objPath key = none := by
  obtain ⟨key, hkey, hnone⟩ := mapM_pathOf_error h
  obtain ⟨m, hm, hkey⟩ := mem_flatMap.mp hkey
  exact ⟨m, hm, key, hkey, hnone⟩

end

/-! ### Erasing along a list -/

section Erased

variable {κ β : Type} [DecidableEq κ] {p : κ → Prop} [DecidablePred p] {done : List κ}
  {f g : κ → Option β} {k : κ}

/-- The keys among `done` that have the property are gone. -/
def ErasedOf (p : κ → Prop) [DecidablePred p] (f : κ → Option β) (done : List κ)
    (g : κ → Option β) : Prop :=
  ∀ k, g k = if k ∈ done ∧ p k then none else f k

theorem ErasedOf.skip (h : ErasedOf p f done g) (hk : ¬ p k) : ErasedOf p f (done ++ [k]) g := by
  intro k'
  rw [h]
  by_cases heq : k' = k <;> simp [heq, hk]

theorem ErasedOf.erase (h : ErasedOf p f done g) (hk : p k) {g' : κ → Option β}
    (hg : ∀ k', g' k' = if k' = k then none else g k') : ErasedOf p f (done ++ [k]) g' := by
  intro k'
  rw [hg, h]
  by_cases heq : k' = k <;> simp [heq, hk]

theorem ErasedOf.eq_or_none (h : ErasedOf p f done g) (k : κ) : g k = f k ∨ g k = none ∧ p k := by
  rw [h]
  split
  next hk => exact .inr ⟨rfl, hk.2⟩
  next => exact .inl rfl

theorem ErasedOf.all (h : ErasedOf p f done g) (hdone : ∀ k ∉ done, f k = none) (k : κ) :
    g k = if p k then none else f k := by
  rw [h]
  by_cases hk : k ∈ done
  · simp [hk]
  · simp [hk, hdone k hk]

end Erased

/-! ### The loop over the manifests -/

theorem lookup_eraseMeta {name name' : MetaName} :
    (s.eraseMeta name).metadata.lookup name' =
      if name' = name then none else s.metadata.lookup name' := by
  by_cases h : name' = name
  · subst h
    simp [Store.eraseMeta]
  · simp [Store.eraseMeta, h, AList.lookup_erase_ne h]

theorem lookup_eraseObject {path path' : String} :
    (s.eraseObject path).objects.lookup path' =
      if path' = path then none else s.objects.lookup path' := by
  by_cases h : path' = path
  · subst h
    simp [Store.eraseObject]
  · simp [Store.eraseObject, h, AList.lookup_erase_ne h]

section

variable {X : Extern} {faults : Faults} {s : Store}

/-- The state of the loop after the names `done`. -/
def PrunedOf (keepIds : List String) (s : Store) (done : List MetaName) (t : Store) : Prop :=
  t.objects = s.objects ∧
    ErasedOf (doomed keepIds · = true) s.metadata.lookup done t.metadata.lookup

variable {keepIds referenced : List String} {done : List MetaName} {t : Store}

theorem PrunedOf.pruning (h : PrunedOf keepIds s done t) : Pruning keepIds s t :=
  ⟨h.1, h.2.eq_or_none⟩

variable {name : MetaName}

variable {stats : GcStats}

theorem yields_gcManifest (h : PrunedOf keepIds s done t) :
    Yields (gcManifest faults keepIds stats name) t
      (fun _ => PrunedOf keepIds s (done ++ [name]))
      (fun t => Pruning keepIds s t ∧ Faulty faults) (Pruning keepIds s) := by
  unfold gcManifest
  split
  next id =>
    split
    next hmem => exact pure ⟨h.1, h.2.skip (by simp [doomed, hmem])⟩
    next hmem =>
      have herase : PrunedOf keepIds s (done ++ [.manifest id])
          (t.eraseMeta (.manifest id)) :=
        ⟨h.1, h.2.erase (by simp [doomed, hmem]) fun _ => lookup_eraseMeta⟩
      have hfault (hr : faults (.deleteManifest id) ≠ .ok) : Faulty faults :=
        ⟨.deleteManifest id, by simp, hr⟩
      apply yields_write_bind
      · exact fun hr => ⟨h.pruning, hfault (by simp [hr])⟩
      · exact fun hr => ⟨herase.pruning, hfault (by simp [hr])⟩
      · exact fun _ => herase.pruning
      · exact fun _ => pure herase
  next hname =>
    have hskip : ¬ doomed keepIds name = true := by
      cases name with
      | manifest id => exact absurd rfl (hname id)
      | latest | other => simp [doomed]
    exact pure ⟨h.1, h.2.skip hskip⟩

theorem yields_prune :
    Yields (s.metadata.keys.foldlM (gcManifest faults keepIds) stats) s
      (fun _ => Pruned keepIds s)
      (fun t => Pruning keepIds s t ∧ Faulty faults) (Pruning keepIds s) := by
  have hstart : PrunedOf keepIds s [] s := ⟨rfl, fun _ => by simp⟩
  apply (foldlM (I := fun done _ => PrunedOf keepIds s done) hstart
    fun _ _ _ _ _ _ h => yields_gcManifest h).mono _ (fun _ h => h) (fun _ h => h)
  exact fun _ t ht => ⟨ht.1, ht.2.all fun _ => AList.lookup_eq_none.mpr⟩

/-! ### The loop over the objects -/

/-- The state of the loop after the entries `done` of the listing. -/
def SweptOf (referenced : List String) (s : Store) (done : List ((String × Nat) × Nat))
    (t : Store) : Prop :=
  t.metadata = s.metadata ∧
    ErasedOf (· ∉ referenced) s.objects.lookup (done.map fun entry => entry.1.1) t.objects.lookup

variable {done : List ((String × Nat) × Nat)}

theorem SweptOf.sweeping (h : SweptOf referenced s done t)
    (href : referencedPaths X (s.loaded faults .reclaim) = .ok referenced) :
    Sweeping X faults s t :=
  ⟨h.1, fun path => (h.2.eq_or_none path).imp_right fun hnone =>
    ⟨hnone.1, referenced, href, hnone.2⟩⟩

variable {entry : (String × Nat) × Nat}

theorem yields_reclaimObject (href : referencedPaths X (s.loaded faults .reclaim) = .ok referenced)
    (h : SweptOf referenced s done t) :
    Yields (reclaimObject faults referenced stats entry) t
      (fun _ => SweptOf referenced s (done ++ [entry]))
      (fun t => Sweeping X faults s t ∧ Faulty faults) (Sweeping X faults s) := by
  have hnext (hr : faults (.nextObject entry.2) ≠ .ok) : Faulty faults :=
    ⟨.nextObject entry.2, by simp, hr⟩
  have hdelete (hr : faults (.deleteObject entry.1.1) ≠ .ok) : Faulty faults :=
    ⟨.deleteObject entry.1.1, by simp, hr⟩
  apply yields_read_bind
  · exact fun hr => ⟨h.sweeping href, hnext hr⟩
  intro _
  split
  next hmem =>
    refine pure ⟨h.1, ?_⟩
    rw [map_append]
    exact h.2.skip (not_not.mpr hmem)
  next hmem =>
    have hswept : SweptOf referenced s (done ++ [entry]) (t.eraseObject entry.1.1) := by
      refine ⟨h.1, ?_⟩
      rw [map_append]
      exact h.2.erase hmem fun _ => lookup_eraseObject
    have herase := hswept.sweeping href
    apply yields_write_bind
    · exact fun hr => ⟨h.sweeping href, hdelete (by simp [hr])⟩
    · exact fun hr => ⟨herase, hdelete (by simp [hr])⟩
    · exact fun _ => herase
    · exact fun _ => pure hswept

theorem map_listing : s.listing.map (fun entry => entry.1.1) = s.objects.keys := by
  have hfst : s.listing.map Prod.fst = s.objects.entries.map fun e => (e.1, e.2) :=
    zipIdx_map_fst ..
  calc s.listing.map (fun entry => entry.1.1)
      = (s.listing.map Prod.fst).map Prod.fst := by simp
    _ = s.objects.keys := by
        rw [hfst, map_map]
        rfl

theorem yields_sweep (href : referencedPaths X (s.loaded faults .reclaim) = .ok referenced) :
    Yields (s.listing.foldlM (reclaimObject faults referenced) stats) s
      (fun _ => Swept X faults s) (fun t => Sweeping X faults s t ∧ Faulty faults)
      (Sweeping X faults s) := by
  have hstart : SweptOf referenced s [] s := ⟨rfl, fun _ => by simp⟩
  apply (foldlM (I := fun done _ => SweptOf referenced s done) hstart
    fun _ _ _ _ _ _ h => yields_reclaimObject href h).mono _ (fun _ h => h) (fun _ h => h)
  intro _ t ht
  refine ⟨referenced, href, ht.1, fun path => ?_⟩
  rw [ht.2.all (by rw [map_listing]; exact fun _ => AList.lookup_eq_none.mpr), ite_not]

/-- The last phase of a collection. It can only stop early because a call fails or
because a key is not a path. -/
theorem yields_reclaim :
    Yields (reclaimUnreferencedObjects X faults stats) s (fun _ => Swept X faults s)
      (fun t => Sweeping X faults s t ∧ (Faulty faults ∨
        t = s ∧ ∃ e, referencedPaths X (s.loaded faults .reclaim) = .error e))
      (Sweeping X faults s) := by
  apply readOnly_bind readOnly_loadAllManifests
  · exact fun e he => ⟨.refl X faults s, .inl
      ⟨.listMeta .reclaim, by simp, loadAllManifests_error he⟩⟩
  intro manifests hmanifests
  obtain ⟨-, rfl⟩ := loadAllManifests_result.mp hmanifests
  apply readOnly_bind (Prog.ReadOnly.lift _)
  · intro e he
    rw [Prog.lift_result] at he
    exact ⟨.refl X faults s, .inr ⟨rfl, e, he⟩⟩
  intro referenced href
  rw [Prog.lift_result] at href
  apply state_bind
  apply bind ((yields_sweep href).mono (fun _ _ h => h) (fun _ h => ⟨h.1, .inl h.2⟩)
    (fun _ h => h))
  intro stats t hswept
  apply yields_read_bind
  · exact fun hr => ⟨hswept.sweeping, .inl ⟨.nextObject s.listing.length, by simp, hr⟩⟩
  · exact fun _ => pure hswept

/-! ### A collection -/

/-- The states a collection can leave the store in. -/
def GcState (X : Extern) (faults : Faults) (policy : RetentionPolicy) (s t : Store) : Prop :=
  t = s ∨ ∃ keepIds, (gcKeepIds X faults policy s).result = .ok keepIds ∧
    (Pruning keepIds s t ∨ ∃ pruned, Pruned keepIds s pruned ∧ Sweeping X faults pruned t)

/-- What a collection does to the end when no call fails except reads of
`load_all_manifests`: only a key that is not a path keeps it from removing objects. -/
def GcDone (X : Extern) (faults : Faults) (keepIds : List String) (s t : Store) : Prop :=
  ∃ pruned, Pruned keepIds s pruned ∧ (Swept X faults pruned t ∨
    t = pruned ∧ ∃ e, referencedPaths X (pruned.loaded faults .reclaim) = .error e)

variable {policy : RetentionPolicy}

theorem yields_gc :
    Yields (gc X faults policy) s (fun _ t => GcState X faults policy s t ∧
        ∃ keepIds, (gcKeepIds X faults policy s).result = .ok keepIds ∧ GcDone X faults keepIds s t)
      (fun t => GcState X faults policy s t ∧ (Faulty faults ∨
        ∀ keepIds, (gcKeepIds X faults policy s).result = .ok keepIds →
          GcDone X faults keepIds s t))
      (GcState X faults policy s) := by
  apply readOnly_bind readOnly_gcKeepIds
  · intro e he
    refine ⟨.inl rfl, .inr fun keepIds hkeep => ?_⟩
    cases he.symm.trans hkeep
  intro keepIds hkeep
  apply yields_read_bind
  · exact fun hr => ⟨.inl rfl, .inl ⟨.listMeta .retention, by simp, hr⟩⟩
  intro _
  have hpruning {t : Store} (ht : Pruning keepIds s t) : GcState X faults policy s t :=
    .inr ⟨keepIds, hkeep, .inl ht⟩
  apply bind (yields_prune.mono (fun _ _ h => h) (fun _ h => ⟨hpruning h.1, .inl h.2⟩)
    (fun _ h => hpruning h))
  intro stats pruned hpruned
  have hsweeping {t : Store} (ht : Sweeping X faults pruned t) : GcState X faults policy s t :=
    .inr ⟨keepIds, hkeep, .inr ⟨pruned, hpruned, ht⟩⟩
  apply yields_reclaim.mono
  · exact fun _ t ht => ⟨hsweeping ht.sweeping, keepIds, hkeep, pruned, hpruned, .inl ht⟩
  · rintro t ⟨ht, hfault | hinvalid⟩
    · exact ⟨hsweeping ht, .inl hfault⟩
    · refine ⟨hsweeping ht, .inr fun keepIds' hkeep' => ?_⟩
      cases hkeep.symm.trans hkeep'
      exact ⟨pruned, hpruned, .inr hinvalid⟩
  · exact fun t ht => hsweeping ht

theorem yields_gcState : Yields (gc X faults policy) s (fun _ => GcState X faults policy s)
    (GcState X faults policy s) (GcState X faults policy s) :=
  yields_gc.mono (fun _ _ h => h.1) (fun _ h => h.1) (fun _ h => h)

theorem gc_states (h : t = (gc X faults policy s).state ∨ t ∈ (gc X faults policy s).passed) :
    GcState X faults policy s t := by
  rcases h with rfl | hpassed
  · exact yields_gcState.final fun _ _ h => h
  · exact yields_gcState.2.2 t hpassed

/-- The end of a collection in which no call fails except reads of
`load_all_manifests`. -/
theorem gc_done (hfaults : ¬ Faulty faults)
    (hkeep : (gcKeepIds X faults policy s).result = .ok keepIds) :
    GcDone X faults keepIds s (gc X faults policy s).state := by
  have hgc : Yields (gc X faults policy) s (fun _ => GcDone X faults keepIds s)
      (GcDone X faults keepIds s) (fun _ => True) := by
    apply yields_gc.mono
    · rintro _ t ⟨-, keepIds', hkeep', hdone⟩
      cases hkeep.symm.trans hkeep'
      exact hdone
    · rintro t ⟨-, hfault | hdone⟩
      · exact absurd hfault hfaults
      · exact hdone keepIds hkeep
    · exact fun _ _ => trivial
  exact hgc.final fun _ _ h => h

/-! ### Deleting a restore point -/

/-- `LATEST` names a manifest that was loaded, or is dropped. -/
def Repointed (faults : Faults) (s t : Store) : Prop :=
  (∃ m ∈ s.loaded faults .repoint, t = s.setLatest m.id) ∨ t = s.eraseMeta .latest

theorem yields_repoint :
    Yields (repoint faults) s (fun _ => Repointed faults s)
      (fun t => Repointed faults s t ∨ t = s ∧ (faults (.listMeta .repoint) ≠ .ok ∨
        faults .repointLatest = .refused ∨ faults .dropLatest = .refused))
      (Repointed faults s) := by
  apply readOnly_bind readOnly_loadAllManifests
  · exact fun e he => .inr ⟨rfl, .inl (loadAllManifests_error he)⟩
  intro remaining hremaining
  obtain ⟨-, rfl⟩ := loadAllManifests_result.mp hremaining
  split
  next newest hnewest =>
    have ht : Repointed faults s (s.setLatest newest.id) :=
      .inl ⟨newest, mem_mergeSort.mp (mem_of_mem_head? hnewest), rfl⟩
    exact yields_write (fun _ => ht) (fun hr => .inr ⟨rfl, .inr (.inl hr)⟩)
      (fun _ => .inl ht) (fun _ => ht)
  next =>
    have ht : Repointed faults s (s.eraseMeta .latest) := .inr rfl
    exact yields_write (fun _ => ht) (fun hr => .inr ⟨rfl, .inr (.inr hr)⟩)
      (fun _ => .inl ht) (fun _ => ht)

/-- The manifest is gone, and `LATEST` may have been changed after it. -/
def Unlisted (faults : Faults) (m : Manifest) (s t : Store) : Prop :=
  t = s.eraseMeta (.manifest m.id) ∨ Repointed faults (s.eraseMeta (.manifest m.id)) t

/-- The states the deletion of a restore point can leave the store in. -/
def DeleteState (X : Extern) (faults : Faults) (id : String) (s t : Store) : Prop :=
  t = s ∨ ∃ m u, s.Holds (.manifest id) m ∧ Unlisted faults m s u ∧ Sweeping X faults u t

theorem yields_deleteRestorePoint {id : String} :
    Yields (deleteRestorePoint X faults id) s (fun _ => DeleteState X faults id s)
      (DeleteState X faults id s) (DeleteState X faults id s) := by
  have hsame : DeleteState X faults id s s := .inl rfl
  apply readOnly_bind readOnly_loadById (fun _ _ => hsame)
  rintro (_ | m) hm
  · exact fail hsame
  apply readOnly_bind readOnly_getObject (fun _ _ => hsame)
  intro latest _
  have hstate {u t : Store} (hu : Unlisted faults m s u) (ht : Sweeping X faults u t) :
      DeleteState X faults id s t :=
    .inr ⟨m, u, (loadById_result.mp hm).2, hu, ht⟩
  have hreclaim {u : Store} (hu : Unlisted faults m s u) :
      Yields (reclaimUnreferencedObjects X faults { manifestsRemoved := 1 }) u
        (fun _ => DeleteState X faults id s) (DeleteState X faults id s)
          (DeleteState X faults id s) :=
    yields_reclaim.mono (fun _ _ ht => hstate hu ht.sweeping) (fun _ ht => hstate hu ht.1)
      (fun _ ht => hstate hu ht)
  have herased := hstate (.inl rfl) (Sweeping.refl X faults _)
  apply yields_write_bind (fun _ => hsame) (fun _ => herased) (fun _ => herased)
  intro _
  split
  · apply bind (yields_repoint.mono (fun _ _ ht => ht) _ _)
    · exact fun _ _ ht => hreclaim (.inr ht)
    · rintro t (ht | ⟨rfl, -⟩)
      · exact hstate (.inr ht) (.refl X faults t)
      · exact herased
    · exact fun t ht => hstate (.inr ht) (.refl X faults t)
  · exact hreclaim (.inl rfl)

/-! ### Uploading a restore point -/

theorem readOnly_uploadParts {position onDisk size uploaded part : Nat} :
    (uploadParts faults position onDisk size uploaded part).ReadOnly := by
  fun_induction uploadParts faults position onDisk size uploaded part with
  | case1 uploaded part h ih => exact readOnly_read.bind fun _ => ih
  | case2 => exact Prog.ReadOnly.pure _

theorem yields_putFile {position : Nat} {path : String} {onDisk : Option Nat} {size : Nat} :
    Yields (putFile faults position path onDisk size) s (fun _ t => t = s.putObject path size)
      (fun t => t = s ∨ t = s.putObject path size) (fun t => t = s.putObject path size) := by
  have hwrite {reply : Reply} {e : BackupError} :
      Yields (write reply e fun s => s.putObject path size : BackupM Unit) s
        (fun _ t => t = s.putObject path size) (fun t => t = s ∨ t = s.putObject path size)
        (fun t => t = s.putObject path size) :=
    yields_write (fun _ => rfl) (fun _ => .inl rfl) (fun _ => .inr rfl) (fun _ => rfl)
  unfold putFile
  split
  · split
    · exact fail (.inl rfl)
    · split
      · exact fail (.inl rfl)
      · exact hwrite
  · apply yields_read_bind
    · exact fun _ => .inl rfl
    intro _
    split
    · exact fail (.inl rfl)
    · apply readOnly_bind readOnly_uploadParts
      · exact fun _ _ => .inl rfl
      intro uploaded _
      split
      · exact fail (.inl rfl)
      · exact hwrite

def Store.Present (X : Extern) (s : Store) (key : String) : Prop :=
  ∃ path, X.objPath key = some path ∧ path ∈ s.objects

/-- The manifests are as before, the objects are still there, and those that were added are
objects of the artifacts. -/
structure Grown (X : Extern) (arts : List Artifact) (s t : Store) : Prop where
  metadata : t.metadata = s.metadata
  kept : ∀ key, s.Present X key → t.Present X key
  objects : ∀ path n, t.objects.lookup path = some n → s.objects.lookup path = some n ∨
    ∃ art ∈ arts, X.objPath (Manifest.objectKey art.sha256) = some path ∧ n = art.bytes

variable {arts : List Artifact} {art : Artifact}

theorem Grown.refl (X : Extern) (arts : List Artifact) (s : Store) : Grown X arts s s :=
  ⟨rfl, fun _ h => h, fun _ _ h => .inl h⟩

/-- The object of the artifact was put, unless it was there. -/
def Puts (X : Extern) (art : Artifact) (s t : Store) : Prop :=
  t = s ∨ ∃ path, X.objPath (Manifest.objectKey art.sha256) = some path ∧
    t = s.putObject path art.bytes

theorem Puts.kept {u : Store} (h : Puts X art t u) {key : String} (hkey : t.Present X key) :
    u.Present X key := by
  rcases h with rfl | ⟨path, -, rfl⟩
  · exact hkey
  · obtain ⟨path', hpath', hin⟩ := hkey
    exact ⟨path', hpath', (AList.mem_insert _).mpr (.inr hin)⟩

theorem Grown.puts {u : Store} (h : Grown X arts s t) (hart : art ∈ arts) (hu : Puts X art t u) :
    Grown X arts s u := by
  refine ⟨?_, fun key hkey => hu.kept (h.kept key hkey), fun path n hn => ?_⟩
  · rcases hu with rfl | ⟨path, -, rfl⟩ <;> exact h.metadata
  · rcases hu with rfl | ⟨path', hpath', rfl⟩
    · exact h.objects path n hn
    · by_cases heq : path = path'
      · subst heq
        rw [Store.putObject, AList.lookup_insert, Option.some.injEq] at hn
        exact .inr ⟨art, hart, hpath', hn.symm⟩
      · rw [Store.putObject, AList.lookup_insert_ne heq] at hn
        exact h.objects path n hn

theorem yields_uploadArtifact {position : Nat} {summary : EngineSummary} :
    Yields (uploadArtifact X faults position art summary) s
      (fun _ t => Puts X art s t ∧ t.Present X (Manifest.objectKey art.sha256))
      (Puts X art s) (Puts X art s) := by
  have hsame : Puts X art s s := .inl rfl
  apply readOnly_bind (Prog.ReadOnly.lift _) (fun _ _ => hsame)
  intro path hpath
  rw [Prog.lift_result, pathOf_eq_ok] at hpath
  apply yields_read_bind (fun _ => hsame)
  intro _
  split
  next hpresent =>
    refine pure ⟨hsame, path, hpath, ?_⟩
    rw [← AList.lookup_isSome, hpresent]
    rfl
  next =>
    have hput : Puts X art s (s.putObject path art.bytes) := .inr ⟨path, hpath, rfl⟩
    apply bind (yields_putFile.mono (fun _ _ ht => ht) _ _)
    · rintro _ _ rfl
      exact pure ⟨hput, path, hpath, (AList.mem_insert _).mpr (.inl rfl)⟩
    · rintro _ (rfl | rfl)
      · exact hsame
      · exact hput
    · rintro _ rfl
      exact hput

/-- Among the artifacts, the objects of those in `done` are on the store. -/
structure Uploading (X : Extern) (arts done : List Artifact) (s t : Store) : Prop
    extends Grown X arts s t where
  present : ∀ art ∈ done, t.Present X (Manifest.objectKey art.sha256)

abbrev Uploaded (X : Extern) (arts : List Artifact) (s t : Store) : Prop :=
  Uploading X arts arts s t

variable (X faults s) in
theorem yields_uploadArtifacts (entries : List (Artifact × Nat))
    (start : Manifest × EngineSummary) :
    Yields (entries.foldlM (uploadNext X faults) start) s
      (fun acc t => acc.1 = (entries.map Prod.fst).foldl Manifest.addArtifact start.1 ∧
        Uploaded X (entries.map Prod.fst) s t)
      (Grown X (entries.map Prod.fst) s) (Grown X (entries.map Prod.fst) s) := by
  refine foldlM (I := fun (done : List (Artifact × Nat)) (acc : Manifest × EngineSummary) t =>
    acc.1 = (done.map Prod.fst).foldl Manifest.addArtifact start.1 ∧
      Uploading X (entries.map Prod.fst) (done.map Prod.fst) s t)
    ⟨rfl, .refl X _ s, by simp⟩ ?_
  rintro done entry rest acc t hall ⟨hacc, hgrown, hpresent⟩
  have hentry : entry.1 ∈ entries.map Prod.fst := by simp [hall]
  apply bind (yields_uploadArtifact.mono (fun _ _ ht => ht) (fun _ ht => hgrown.puts hentry ht)
    (fun _ ht => hgrown.puts hentry ht))
  rintro ⟨_, summary⟩ u ⟨hu, hnew⟩
  refine pure ⟨?_, hgrown.puts hentry hu, ?_⟩
  · rw [map_append, foldl_append, ← hacc]
    rfl
  · rw [map_append, forall_mem_append]
    exact ⟨fun art hart => hu.kept (hpresent art hart), by simpa using hnew⟩

/-- The manifest that a run commits. -/
def restorePoint (args : UploadArgs) (previous : Option Manifest) : Manifest :=
  ((args.artifacts.foldl Manifest.addArtifact
    (Manifest.new args.id args.created args.trigger (previous.map Manifest.id))).stampAudit
      args.audit).inheritAudit previous

/-- The store with the manifest and `LATEST`. -/
def Store.commit (s : Store) (m : Manifest) : Store := (s.putManifest m).setLatest m.id

/-- The states an upload can leave the store in: the objects come first, then the manifest,
then `LATEST`, and then a collection. -/
def UploadState (X : Extern) (faults : Faults) (args : UploadArgs) (s t : Store) : Prop :=
  Grown X args.artifacts s t ∨ ∃ previous u, s.LatestIs previous ∧ Uploaded X args.artifacts s u ∧
    (t = u.putManifest (restorePoint args previous) ∨
      GcState X faults args.retention (u.commit (restorePoint args previous)) t)

theorem yields_upload {args : UploadArgs} :
    Yields (upload X faults args) s
      (fun _ t => ∃ previous u, s.LatestIs previous ∧ Uploaded X args.artifacts s u ∧
        GcState X faults args.retention (u.commit (restorePoint args previous)) t)
      (UploadState X faults args s) (UploadState X faults args s) := by
  apply readOnly_bind readOnly_loadLatest (fun _ _ => .inl (.refl X _ s))
  intro previous hprevious
  have hlatest := (loadLatest_result.mp hprevious).2.1
  have huploads := yields_uploadArtifacts X faults s args.artifacts.zipIdx
    (Manifest.new args.id args.created args.trigger (previous.map Manifest.id), {})
  rw [zipIdx_map_fst] at huploads
  apply bind (huploads.mono (fun _ _ ht => ht) (fun _ ht => .inl ht) (fun _ ht => .inl ht))
  rintro ⟨manifest, esum⟩ u ⟨rfl, hu⟩
  have hgrown : UploadState X faults args s u := .inl hu.toGrown
  have hput : UploadState X faults args s (u.putManifest (restorePoint args previous)) :=
    .inr ⟨previous, u, hlatest, hu, .inl rfl⟩
  have hgc {t : Store}
      (ht : GcState X faults args.retention (u.commit (restorePoint args previous)) t) :
      UploadState X faults args s t :=
    .inr ⟨previous, u, hlatest, hu, .inr ht⟩
  have hcommit : Yields (commit faults (restorePoint args previous)) u
      (fun _ t => t = u.commit (restorePoint args previous)) (UploadState X faults args s)
      (UploadState X faults args s) := by
    apply yields_write_bind (fun _ => hgrown) (fun _ => hput) (fun _ => hput)
    intro _
    exact yields_write (fun _ => rfl) (fun _ => hput) (fun _ => hgc (.inl rfl))
      (fun _ => hgc (.inl rfl))
  apply Yields.bind hcommit
  rintro _ _ rfl
  apply bind (attempt (yields_gcState.mono (fun _ _ ht => ht) (fun _ ht => ht)
    (fun _ ht => hgc ht)))
  exact fun _ _ ht => pure ⟨previous, u, hlatest, hu, ht⟩

end

end Bichon.Backup
