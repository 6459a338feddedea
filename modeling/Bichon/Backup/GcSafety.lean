import Bichon.Backup.Steps

/-!
# What a collection leaves alone

A collection decides which restore points to keep from the manifests it could load, and
deletes the objects that no manifest it could load refers to. `load_all_manifests` leaves
out a manifest whose read fails, so a failed read makes a restore point look like one
that is not there.

`gc_keeps_iff` says for which stores this is harmless. Let some ids be given whose reads
in `load_all_manifests` may fail, while every other call may end in any way. Then every
manifest the policy keeps, and every object of it, survives under all such failures if
and only if each kept manifest with one of these ids is reached along the chain from
`LATEST`, and each of its objects is protected by a kept manifest whose read does not
fail.
-/

namespace Bichon.Backup

open Durable Remote List

/-- Only reads of these manifests fail in `load_all_manifests`. -/
def FailsWithin (ids : Set String) (faults : Faults) : Prop :=
  ∀ pass id, faults (.getManifest pass id) ≠ .ok → id ∈ ids

/-- The restore point is one that a collection without failures keeps. -/
def PolicyKeeps (X : Extern) (policy : RetentionPolicy) (s : Store) (id : String) : Prop :=
  ∃ keepIds, (gcKeepIds X noFaults policy s).result = .ok keepIds ∧ id ∈ keepIds

/-- The chain from `LATEST` reaches the restore point. -/
def OnChain (s : Store) (id : String) : Prop :=
  ∃ chain, (loadChain noFaults s).result = .ok chain ∧ id ∈ chain.map Manifest.id

/-- While the manifest is loaded, the object at the path is not deleted: the manifest
refers to it, or has a key that is no path, which stops the collection. -/
def Protects (X : Extern) (m : Manifest) (path : String) : Prop :=
  ∃ key ∈ m.objectKeys, X.objPath key = none ∨ X.objPath key = some path

/-- The manifest of the id is still there, with all the objects it had. -/
def Survives (X : Extern) (s t : Store) (id : String) : Prop :=
  ∀ m, s.Holds (.manifest id) m → t.Holds (.manifest id) m ∧
    ∀ key ∈ m.objectKeys, ∀ path, X.objPath key = some path → path ∈ s.objects →
      t.objects.lookup path = s.objects.lookup path

/-- Nothing the policy keeps is deleted. -/
def NoOverDelete (X : Extern) (policy : RetentionPolicy) (s t : Store) : Prop :=
  ∀ id, PolicyKeeps X policy s id → Survives X s t id

/-! ### Without the failures of the list -/

section

variable {X : Extern} {faults : Faults} {policy : RetentionPolicy} {s : Store}

theorem ok_of_not_faulty (h : ¬ Faulty faults) {call : Call}
    (hcall : ∀ pass id, call ≠ .getManifest pass id) : faults call = .ok := by
  by_contra hne
  exact h ⟨call, hcall, hne⟩

theorem loadLatest_of_not_faulty (h : ¬ Faulty faults) (lookup : Lookup) :
    loadLatest faults lookup = loadLatest noFaults lookup := by
  have h1 : faults (.getLatest lookup) = .ok := ok_of_not_faulty h (by simp)
  have h2 : faults (.getLatestManifest lookup) = .ok := ok_of_not_faulty h (by simp)
  simp only [loadLatest, h1, h2, noFaults]

theorem loadChainLoop_of_not_faulty (h : ¬ Faulty faults) (fuel depth : Nat)
    (next : Option Manifest) (seen : List String) (out : List Manifest) :
    loadChainLoop faults fuel depth next seen out =
      loadChainLoop noFaults fuel depth next seen out := by
  induction fuel generalizing depth next seen out with
  | zero => rfl
  | succ fuel ih =>
    cases next with
    | none => rfl
    | some m =>
      have hget : faults (.getChain depth) = .ok := ok_of_not_faulty h (by simp)
      simp only [loadChainLoop, hget, ih, noFaults]

theorem loadChain_of_not_faulty (h : ¬ Faulty faults) : loadChain faults = loadChain noFaults := by
  simp only [loadChain, loadLatest_of_not_faulty h, loadChainLoop_of_not_faulty h]

/-! ### The candidates when some manifests are not loaded -/

theorem loaded_eq_filter (hs : s.WellNamed) (pass : Pass) :
    s.loaded faults pass = (s.loaded noFaults pass).filter fun m =>
      decide (faults (.getManifest pass m.id) = .ok) := by
  rw [Store.loaded, Store.loaded, filter_filterMap]
  apply filterMap_congr
  intro name _
  apply Option.ext
  intro m
  rw [Option.filter_eq_some_iff, Store.loadedAt_eq_some, Store.loadedAt_eq_some]
  constructor
  · rintro ⟨id, rfl, hok, hm⟩
    cases hs _ _ hm
    exact ⟨⟨m.id, rfl, rfl, hm⟩, by simpa using hok⟩
  · rintro ⟨⟨id, rfl, -, hm⟩, hok⟩
    cases hs _ _ hm
    exact ⟨m.id, rfl, by simpa using hok, hm⟩

theorem newer_trans (a b c : Manifest) (hab : newer a b = true) (hbc : newer b c = true) :
    newer a c = true := by
  simp only [newer, decide_eq_true_eq] at hab hbc ⊢
  rcases hab with hab | ⟨hab, hid⟩
  · rcases hbc with hbc | ⟨hbc, -⟩
    · exact .inl (hbc.trans hab)
    · exact .inl (hbc ▸ hab)
  · rcases hbc with hbc | ⟨hbc, hid'⟩
    · exact .inl (hab ▸ hbc)
    · exact .inr ⟨hbc.trans hab, hid'.trans hid⟩

theorem newer_total (a b : Manifest) : (newer a b || newer b a) = true := by
  simp only [newer, Bool.or_eq_true, decide_eq_true_eq]
  rcases lt_trichotomy a.created b.created with h | h | h
  · exact .inr (.inl h)
  · rcases le_total a.id b.id with hid | hid
    · exact .inr (.inr ⟨h, hid⟩)
    · exact .inl (.inr ⟨h.symm, hid⟩)
  · exact .inl (.inl h)

theorem id_eq_of_newer {a b : Manifest} (hab : newer a b = true) (hba : newer b a = true) :
    a.id = b.id := by
  simp only [newer, decide_eq_true_eq] at hab hba
  rcases hab with hab | ⟨heq, hid⟩
  · rcases hba with hba | ⟨heq, -⟩
    · exact absurd hab hba.asymm
    · exact absurd heq hab.ne'
  · rcases hba with hba | ⟨-, hid'⟩
    · exact absurd heq hba.ne'
    · exact le_antisymm hid' hid

theorem mergeSort_filter {ms : List Manifest} (hms : (ms.map Manifest.id).Nodup)
    (p : Manifest → Bool) :
    (ms.filter p).mergeSort newer = (ms.mergeSort newer).filter p := by
  have hperm : ((ms.filter p).mergeSort newer).Perm ((ms.mergeSort newer).filter p) :=
    (mergeSort_perm _ _).trans ((mergeSort_perm _ _).filter p).symm
  apply hperm.eq_of_pairwise
  · -- two manifests of the list with one id are the same
    intro a b ha hb hab hba
    have ha' : a ∈ ms := mem_of_mem_filter (mem_mergeSort.mp ha)
    have hb' : b ∈ ms := mem_mergeSort.mp (mem_of_mem_filter hb)
    exact inj_on_of_nodup_map hms ha' hb' (id_eq_of_newer hab hba)
  · exact pairwise_mergeSort newer_trans newer_total _
  · exact (pairwise_mergeSort newer_trans newer_total _).filter p

/-- The list of restore points, and the list when some manifests are not loaded: the
chain is the same, and the others are missing from the rest. -/
theorem restorePoints_of_faults (hs : s.WellNamed) {candidates : List Manifest}
    (h : (listRestorePoints faults s).result = .ok candidates) :
    ∃ chain rest, (loadChain noFaults s).result = .ok chain ∧
      (listRestorePoints noFaults s).result = .ok (chain ++ rest) ∧
      ((chain ++ rest).map Manifest.id).Nodup ∧
      candidates = chain ++ rest.filter fun m =>
        decide (faults (.getManifest .restorePoints m.id) = .ok) := by
  obtain ⟨chain, hchain, -, rfl⟩ := listRestorePoints_result.mp h
  have hchain' := loadChain_noFaults hchain
  have hloaded := Store.nodup_loaded hs noFaults .restorePoints
  set others := (s.loaded noFaults .restorePoints).filter fun m =>
    decide (m.id ∉ chain.map Manifest.id) with hothers
  have hnodup : (others.map Manifest.id).Nodup := hloaded.sublist (filter_sublist.map Manifest.id)
  refine ⟨chain, others.mergeSort newer, hchain',
    listRestorePoints_result.mpr ⟨chain, hchain', rfl, rfl⟩, ?_, ?_⟩
  · rw [map_append, nodup_append]
    refine ⟨(loadChain_spec hchain').2.1, ?_, ?_⟩
    · exact ((mergeSort_perm others newer).map Manifest.id).nodup_iff.mpr hnodup
    · intro id hid id' hid' heq
      obtain ⟨m, hm, rfl⟩ := mem_map.mp hid'
      have hrest := mem_mergeSort.mp hm
      rw [hothers, mem_filter, decide_eq_true_eq] at hrest
      exact hrest.2 (heq ▸ hid)
  · rw [← mergeSort_filter hnodup, hothers, loaded_eq_filter hs, filter_filter,
      filter_filter]
    simp only [Bool.and_comm]

variable {ids : Set String} {keepIds : List String} {id path : String}

/-- A restore point the policy keeps is kept although some reads fail, if its own does
not, or if the chain reaches it. -/
theorem mem_keepIds_of_policyKeeps (hs : s.WellNamed)
    (hfaults : FailsWithin ids faults)
    (hkeep : (gcKeepIds X faults policy s).result = .ok keepIds)
    (hid : PolicyKeeps X policy s id) (hchain : id ∈ ids → OnChain s id) : id ∈ keepIds := by
  obtain ⟨keepIds₀, hkeep₀, hmem⟩ := hid
  obtain ⟨candidates, latest, hcand, hlatest, rfl⟩ := gcKeepIds_result.mp hkeep
  obtain ⟨candidates₀, latest₀, hcand₀, hlatest₀, rfl⟩ := gcKeepIds_result.mp hkeep₀
  obtain rfl : latest₀ = latest := by
    cases (loadLatest_noFaults .gc hlatest).symm.trans hlatest₀
    rfl
  rcases mem_append.mp hmem with hpointer | hselected
  · exact mem_append_left _ hpointer
  apply mem_append_right
  obtain ⟨m, hm, rfl⟩ := mem_selectManifests.mp hselected
  obtain ⟨chain, rest, hchain₀, hall, hnodup, rfl⟩ := restorePoints_of_faults hs hcand
  obtain rfl : chain ++ rest = candidates₀ := by
    cases hall.symm.trans hcand₀
    rfl
  have hsub : (chain ++ rest.filter fun m =>
      decide (faults (.getManifest .restorePoints m.id) = .ok)).Sublist (chain ++ rest) :=
    (List.Sublist.refl chain).append filter_sublist
  refine mem_selectManifests.mpr ⟨m, hm.of_sublist hsub ?_ hnodup.of_map, rfl⟩
  rcases mem_append.mp hm.mem with hin | hin
  · exact mem_append_left _ hin
  apply mem_append_right
  rw [mem_filter, decide_eq_true_eq]
  refine ⟨hin, ?_⟩
  by_contra hfail
  -- the manifest is not on the chain, so its read would have to succeed
  obtain ⟨chain', hchain', honchain⟩ := hchain (hfaults _ _ hfail)
  cases hchain₀.symm.trans hchain'
  rw [map_append, nodup_append] at hnodup
  exact hnodup.2.2 _ honchain _ (mem_map_of_mem hin) rfl

/-! ### Which objects are swept -/

variable {m : Manifest}

theorem mem_of_protects {ms : List Manifest} {referenced : List String}
    (h : referencedPaths X ms = .ok referenced) (hm : m ∈ ms)
    (hprotects : Protects X m path) : path ∈ referenced := by
  obtain ⟨key, hkey, hnone | hsome⟩ := hprotects
  · exact absurd hnone (objPath_ne_none h hm hkey)
  · exact (mem_referencedPaths h).mpr ⟨m, hm, key, hkey, hsome⟩

theorem Pruned.holds {pruned : Store} (h : Pruned keepIds s pruned)
    (hid : id ∈ keepIds) (hm : s.Holds (.manifest id) m) :
    pruned.Holds (.manifest id) m := by
  rw [Store.Holds, h.2, if_neg (by simp [doomed, hid])]
  exact hm

theorem Pruned.of_holds {pruned : Store} (h : Pruned keepIds s pruned)
    (hm : pruned.Holds (.manifest id) m) :
    id ∈ keepIds ∧ s.Holds (.manifest id) m := by
  rw [Store.Holds, h.2] at hm
  split at hm
  next => cases hm
  next hdoomed => exact ⟨by simpa [doomed] using hdoomed, hm⟩

/-! ### The result -/

/-- Each kept manifest whose read may fail is on the chain, and its objects are
protected by kept manifests whose reads do not fail. -/
def Covered (X : Extern) (policy : RetentionPolicy) (s : Store) (ids : Set String) : Prop :=
  ∀ id m, PolicyKeeps X policy s id → s.Holds (.manifest id) m → id ∈ ids →
    OnChain s id ∧ ∀ key ∈ m.objectKeys, ∀ path, X.objPath key = some path → path ∈ s.objects →
      ∃ id' m', PolicyKeeps X policy s id' ∧ id' ∉ ids ∧ s.Holds (.manifest id') m' ∧
        Protects X m' path

theorem Covered.exists_protects (h : Covered X policy s ids) (hid : PolicyKeeps X policy s id)
    (hm : s.Holds (.manifest id) m) {key : String} (hkey : key ∈ m.objectKeys)
    (hpath : X.objPath key = some path) (hobj : path ∈ s.objects) :
    ∃ id' m', PolicyKeeps X policy s id' ∧ id' ∉ ids ∧ s.Holds (.manifest id') m' ∧
      Protects X m' path := by
  by_cases hin : id ∈ ids
  · exact (h id m hid hm hin).2 key hkey path hpath hobj
  · exact ⟨id, m, hid, hin, hm, key, hkey, .inr hpath⟩

theorem noOverDelete_of_covered (hs : s.WellNamed)
    (hcovered : Covered X policy s ids) (hfaults : FailsWithin ids faults) {t : Store}
    (ht : GcState X faults policy s t) : NoOverDelete X policy s t := by
  intro id hid m hm
  rcases ht with rfl | ⟨keepIds, hkeep, ht⟩
  · exact ⟨hm, fun _ _ _ _ _ => rfl⟩
  have hkept {id' : String} (hid' : PolicyKeeps X policy s id') {m' : Manifest}
      (hm' : s.Holds (.manifest id') m') : id' ∈ keepIds :=
    mem_keepIds_of_policyKeeps hs hfaults hkeep hid' fun hin => (hcovered id' m' hid' hm' hin).1
  rcases ht with ⟨hobjects, hlookup⟩ | ⟨pruned, hpruned, hmeta, hlookup⟩
  · rcases hlookup (.manifest id) with heq | ⟨-, hdoomed⟩
    · exact ⟨heq.trans hm, fun _ _ _ _ _ => by rw [hobjects]⟩
    · simp [doomed, hkept hid hm] at hdoomed
  · refine ⟨by rw [Store.Holds, hmeta]; exact hpruned.holds (hkept hid hm) hm, ?_⟩
    intro key hkey path hpath hobj
    rcases hlookup path with heq | ⟨-, referenced, href, hnot⟩
    · rw [heq, hpruned.1]
    · obtain ⟨id', m', hid', hout, hm', hprotects⟩ :=
        hcovered.exists_protects hid hm hkey hpath hobj
      have hread : faults (.getManifest .reclaim id') = .ok := by
        by_contra hfail
        exact hout (hfaults _ _ hfail)
      have hloaded : m' ∈ pruned.loaded faults .reclaim :=
        Store.mem_loaded.mpr ⟨id', hread, hpruned.holds (hkept hid' hm') hm'⟩
      exact absurd (mem_of_protects href hloaded hprotects) hnot

theorem gcKeepIds_of_reclaim (hfaults : ¬ Faulty faults)
    (hreads : ∀ id, faults (.getManifest .restorePoints id) = .ok)
    (h : (gcKeepIds X noFaults policy s).result = .ok keepIds) :
    (gcKeepIds X faults policy s).result = .ok keepIds := by
  have hat (name : MetaName) :
      s.loadedAt faults .restorePoints name = s.loadedAt noFaults .restorePoints name := by
    cases name <;> simp [Store.loadedAt, hreads, noFaults]
  have hloaded : s.loaded faults .restorePoints = s.loaded noFaults .restorePoints :=
    filterMap_congr fun name _ => hat name
  obtain ⟨candidates, latest, hcand, hlatest, hkeep⟩ := gcKeepIds_result.mp h
  refine gcKeepIds_result.mpr ⟨candidates, latest, ?_, ?_, hkeep⟩
  · obtain ⟨chain, hchain, -, heq⟩ := listRestorePoints_result.mp hcand
    refine listRestorePoints_result.mpr ⟨chain, ?_, ok_of_not_faulty hfaults (by simp), ?_⟩
    · rw [loadChain_of_not_faulty hfaults]
      exact hchain
    · rw [hloaded]
      exact heq
  · rw [loadLatest_of_not_faulty hfaults]
    exact hlatest

/-- The failure of one read in the list of restore points. -/
def hideFromList (id : String) : Faults
  | .getManifest .restorePoints id' => if id' = id then .refused else .ok
  | _ => .ok

theorem hideFromList_not_faulty (id : String) : ¬ Faulty (hideFromList id) := by
  rintro ⟨call, hcall, hfail⟩
  unfold hideFromList at hfail
  split at hfail
  next id' => exact hcall .restorePoints id' rfl
  next => exact hfail rfl

theorem hideFromList_failsWithin (hid : id ∈ ids) : FailsWithin ids (hideFromList id) := by
  intro pass id' hfail
  cases pass with
  | restorePoints =>
    simp only [hideFromList, ne_eq, ite_eq_right_iff, not_forall] at hfail
    exact hfail.1 ▸ hid
  | _ => exact absurd rfl hfail

open Classical in
/-- The failure of the reads of these manifests when objects are reclaimed. -/
noncomputable def hideFromReclaim (ids : Set String) : Faults
  | .getManifest .reclaim id => if id ∈ ids then .refused else .ok
  | _ => .ok

theorem hideFromReclaim_not_faulty (ids : Set String) : ¬ Faulty (hideFromReclaim ids) := by
  rintro ⟨call, hcall, hfail⟩
  unfold hideFromReclaim at hfail
  split at hfail
  next id => exact hcall .reclaim id rfl
  next => exact hfail rfl

theorem hideFromReclaim_eq_ok :
    hideFromReclaim ids (.getManifest .reclaim id) = .ok ↔ id ∉ ids := by
  simp [hideFromReclaim]

theorem hideFromReclaim_failsWithin (ids : Set String) : FailsWithin ids (hideFromReclaim ids) := by
  intro pass id hfail
  cases pass with
  | reclaim => exact Classical.not_not.mp fun hout => hfail (hideFromReclaim_eq_ok.mpr hout)
  | _ => exact absurd rfl hfail

theorem lookup_of_gcDone {t : Store} (h : GcDone X faults keepIds s t)
    (hid : id ∉ keepIds) : t.metadata.lookup (.manifest id) = none := by
  obtain ⟨pruned, hpruned, ⟨-, -, hmeta, -⟩ | ⟨rfl, -⟩⟩ := h
  · rw [hmeta, hpruned.2, if_pos (by simp [doomed, hid])]
  · rw [hpruned.2, if_pos (by simp [doomed, hid])]

theorem onChain_of_survives (hs : s.WellNamed)
    (hid : PolicyKeeps X policy s id) (hm : s.Holds (.manifest id) m)
    (h : Survives X s (gc X (hideFromList id) policy s).state id) : OnChain s id := by
  by_contra hoff
  have hfaults := hideFromList_not_faulty id
  obtain ⟨_, hkeep₀, -⟩ := hid
  obtain ⟨_, latest, hcand₀, hlatest, -⟩ := gcKeepIds_result.mp hkeep₀
  obtain ⟨chain, hchain, -, -⟩ := listRestorePoints_result.mp hcand₀
  have hoff' : id ∉ chain.map Manifest.id := fun hmem => hoff ⟨chain, hchain, hmem⟩
  have hcand : ∃ candidates, (listRestorePoints (hideFromList id) s).result = .ok candidates ∧
      id ∉ candidates.map Manifest.id := by
    refine ⟨_, listRestorePoints_result.mpr ⟨chain, ?_, rfl, rfl⟩, ?_⟩
    · rw [loadChain_of_not_faulty hfaults]
      exact hchain
    · intro hmem
      obtain ⟨m', hm', rfl⟩ := mem_map.mp hmem
      rcases mem_append.mp hm' with hin | hin
      · exact hoff' (mem_map_of_mem hin)
      · obtain ⟨id', hread, hholds⟩ :=
          Store.mem_loaded.mp (mem_of_mem_filter (mem_mergeSort.mp hin))
        cases hs _ _ hholds
        simp [hideFromList] at hread
  obtain ⟨candidates, hcand, hout⟩ := hcand
  have hlatest' : (loadLatest (hideFromList id) .gc s).result = .ok latest := by
    exact hlatest
  have hkeep : (gcKeepIds X (hideFromList id) policy s).result = .ok _ :=
    gcKeepIds_result.mpr ⟨candidates, latest, hcand, hlatest', rfl⟩
  have hnot : id ∉ (latest.map Manifest.id).toList ++
      selectManifests X.calendar candidates policy.effective := by
    intro hmem
    rcases mem_append.mp hmem with hpointer | hselected
    · obtain ⟨l, rfl, rfl⟩ := Option.map_eq_some_iff.mp (Option.mem_toList.mp hpointer)
      exact hoff' ((loadChain_spec hchain).2.2 l (loadLatest_result.mp hlatest).2.1)
    · obtain ⟨m', hm', rfl⟩ := mem_selectManifests.mp hselected
      exact hout (mem_map_of_mem hm'.mem)
  have hgone := lookup_of_gcDone (gc_done hfaults hkeep) hnot
  cases hgone.symm.trans (h m hm).1

theorem exists_protects_of_survives (hid : PolicyKeeps X policy s id)
    (hm : s.Holds (.manifest id) m)
    (h : Survives X s (gc X (hideFromReclaim ids) policy s).state id) {key : String}
    (hkey : key ∈ m.objectKeys) (hpath : X.objPath key = some path) (hobj : path ∈ s.objects) :
    ∃ id' m', PolicyKeeps X policy s id' ∧ id' ∉ ids ∧ s.Holds (.manifest id') m' ∧
      Protects X m' path := by
  obtain ⟨keepIds, hkeep₀, -⟩ := hid
  have hfaults := hideFromReclaim_not_faulty ids
  have hkeep := gcKeepIds_of_reclaim hfaults (fun _ => rfl) hkeep₀
  obtain ⟨pruned, hpruned, hend⟩ := gc_done hfaults hkeep
  -- a manifest that is loaded in the last phase is a kept one whose read succeeds
  have hloaded {m' : Manifest} (hm' : m' ∈ pruned.loaded (hideFromReclaim ids) .reclaim)
      (hprotects : Protects X m' path) : ∃ id' m', PolicyKeeps X policy s id' ∧ id' ∉ ids ∧
        s.Holds (.manifest id') m' ∧ Protects X m' path := by
    obtain ⟨id', hread, hholds⟩ := Store.mem_loaded.mp hm'
    obtain ⟨hin, hholds'⟩ := hpruned.of_holds hholds
    exact ⟨id', m', ⟨keepIds, hkeep₀, hin⟩, hideFromReclaim_eq_ok.mp hread, hholds', hprotects⟩
  rcases hend with ⟨referenced, href, -, hlookup⟩ | ⟨-, e, he⟩
  · have hstays := (h m hm).2 key hkey path hpath hobj
    have hmem : path ∈ referenced := by
      by_contra hnot
      rw [hlookup, if_neg hnot] at hstays
      exact AList.lookup_eq_none.mp hstays.symm hobj
    obtain ⟨m', hm', key', hkey', hpath'⟩ := (mem_referencedPaths href).mp hmem
    exact hloaded hm' ⟨key', hkey', .inr hpath'⟩
  · obtain ⟨m', hm', key', hkey', hnone⟩ := exists_invalid he
    exact hloaded hm' ⟨key', hkey', .inl hnone⟩

end

/-- Under every pattern of failures in which `load_all_manifests` fails to read at most
the manifests of the given ids, and any other call may fail in any way, a collection
deletes nothing that the policy keeps, at its end, at a failure and at a crash, if and
only if these ids are covered. -/
theorem gc_keeps_iff (X : Extern) (policy : RetentionPolicy) (s : Store) (ids : Set String)
    (hs : s.WellNamed) :
    (∀ faults, FailsWithin ids faults → ∀ t,
      t = (gc X faults policy s).state ∨ t ∈ (gc X faults policy s).passed →
        NoOverDelete X policy s t) ↔ Covered X policy s ids := by
  constructor
  · intro h id m hid hm hin
    refine ⟨?_, fun key hkey path hpath hobj => ?_⟩
    · exact onChain_of_survives hs hid hm
        (h _ (hideFromList_failsWithin hin) _ (.inl rfl) id hid)
    · exact exists_protects_of_survives hid hm
        (h _ (hideFromReclaim_failsWithin ids) _ (.inl rfl) id hid) hkey hpath hobj
  · intro hcovered faults hfaults t ht
    exact noOverDelete_of_covered hs hcovered hfaults (gc_states ht)

def sampleManifest (id created hash : String) (previous : Option String) : Manifest :=
  (Manifest.new id created "manual" previous).addArtifact
    { onDisk := some 1, logical := .memdb, sha256 := hash, bytes := 1 }

/-- Two restore points that are left of three: the link of the newer one leads to the
one that is gone, so that the older one is not on the chain. -/
def strandedStore : Store where
  metadata :=
    AList.insert .latest (.pointer (some (.manifest "3"))) <|
    AList.insert (.manifest "3")
      (.manifest (sampleManifest "3" "2026-09-21T02:00:00.000Z" "cc" (some "2"))) <|
    AList.insert (.manifest "1")
      (.manifest (sampleManifest "1" "2026-09-01T02:00:00.000Z" "aa" none)) ∅
  objects := AList.insert "obj/sha256/aa" 1 (AList.insert "obj/sha256/cc" 1 ∅)

def sampleExtern : Extern where
  objPath key := some key
  calendar := ⟨fun _ => none, id, id⟩

def keepTwo : RetentionPolicy where
  keepLast := 2
  keepDaily := 0
  keepWeekly := 0
  keepMonthly := 0

theorem gc_keeps_iff_stranded :
    strandedStore.WellNamed ∧
    ((∀ faults, FailsWithin {"1"} faults → ∀ t,
      t = (gc sampleExtern faults keepTwo strandedStore).state ∨
        t ∈ (gc sampleExtern faults keepTwo strandedStore).passed →
        NoOverDelete sampleExtern keepTwo strandedStore t) ↔
      Covered sampleExtern keepTwo strandedStore {"1"}) :=
  ⟨by decide +kernel, gc_keeps_iff sampleExtern keepTwo strandedStore {"1"} (by decide +kernel)⟩

/-- Both restore points are kept by the policy. One failed read in the list of restore
points deletes the older one with its object; one failed read when objects are reclaimed
deletes the object of the newer one. -/
theorem gc_over_deletes :
    PolicyKeeps sampleExtern keepTwo strandedStore "1" ∧
    ¬ Survives sampleExtern strandedStore
      (gc sampleExtern (hideFromList "1") keepTwo strandedStore).state "1" ∧
    PolicyKeeps sampleExtern keepTwo strandedStore "3" ∧
    ¬ Survives sampleExtern strandedStore
      (gc sampleExtern
        (fun call => if call = .getManifest .reclaim "3" then .refused else .ok)
        keepTwo strandedStore).state "3" := by
  refine ⟨⟨["3", "3", "1"], by decide +kernel, by decide⟩, ?_,
    ⟨["3", "3", "1"], by decide +kernel, by decide⟩, ?_⟩
  · intro h
    have hgone : (gc sampleExtern (hideFromList "1") keepTwo
        strandedStore).state.metadata.lookup (.manifest "1") = none := by decide +kernel
    have hstays := (h (sampleManifest "1" "2026-09-01T02:00:00.000Z" "aa" none)
      (by unfold Store.Holds; decide +kernel)).1
    cases hgone.symm.trans hstays
  · intro h
    have hstays := (h (sampleManifest "3" "2026-09-21T02:00:00.000Z" "cc" (some "2"))
      (by unfold Store.Holds; decide +kernel)).2 "obj/sha256/cc" (by decide +kernel)
      "obj/sha256/cc" (by decide +kernel) (by decide +kernel)
    exact absurd hstays (by decide +kernel)

end Bichon.Backup
