import Bichon.Backup.Engine

/-!
# What the engine reads

The operations read the store before they change it. The programs that read change
nothing, and what they return is a function of the store and of the replies:
`loadAllManifests` returns the manifests whose read succeeds, and leaves the others out;
every other read that fails makes the whole lookup fail. So a lookup that succeeds finds
what it would have found without failures (`loadChain_noFaults`, `loadLatest_noFaults`),
apart from the manifests that `loadAllManifests` left out.
-/

namespace Bichon.Backup

open Durable Remote Prog List

namespace Store

def Holds (s : Store) (name : MetaName) (m : Manifest) : Prop :=
  s.metadata.lookup name = some (.manifest m)

/-- Every manifest is stored under its own id, as `commit` does it. -/
def WellNamed (s : Store) : Prop := ∀ name m, s.Holds name m → name = .manifest m.id

/-- The name of an entry is that of the manifest in it, if it is one. -/
def namedById (name : MetaName) : MetaObject → Bool
  | .manifest m => decide (name = .manifest m.id)
  | _ => true

variable {s : Store}

theorem wellNamed_iff : s.WellNamed ↔ ∀ e ∈ s.metadata.entries, namedById e.1 e.2 = true := by
  constructor
  · rintro h ⟨name, obj⟩ he
    cases obj with
    | manifest m => simpa [namedById] using h name m (AList.mem_lookup_iff.mpr he)
    | pointer | corrupt => rfl
  · intro h name m hm
    simpa [namedById] using h ⟨name, .manifest m⟩ (AList.mem_lookup_iff.mp hm)

instance (s : Store) : Decidable s.WellNamed := decidable_of_iff _ wellNamed_iff.symm

/-- The manifest that a round of `load_all_manifests` finds under a name. -/
def loadedAt (s : Store) (faults : Faults) (pass : Pass) : MetaName → Option Manifest
  | .manifest id =>
    if faults (.getManifest pass id) = .ok then
      match s.metadata.lookup (.manifest id) with
      | some (.manifest m) => some m
      | _ => none
    else none
  | _ => none

def loaded (s : Store) (faults : Faults) (pass : Pass) : List Manifest :=
  s.metadata.keys.filterMap (s.loadedAt faults pass)

variable {m : Manifest}

theorem loadedAt_eq_some {faults : Faults} {pass : Pass} {name : MetaName} :
    s.loadedAt faults pass name = some m ↔
      ∃ id, name = .manifest id ∧ faults (.getManifest pass id) = .ok ∧ s.Holds name m := by
  cases name with
  | manifest id =>
    simp only [loadedAt, Holds, MetaName.manifest.injEq, exists_eq_left']
    split
    next hok =>
      split
      next m' hm' => simp [hok, hm']
      next hnot =>
        constructor
        · intro h
          cases h
        · intro h
          exact absurd h.2 (hnot m)
    next hok => simp [hok]
  | latest | other => simp [loadedAt]

theorem mem_keys_of_holds {name : MetaName} (h : s.Holds name m) :
    name ∈ s.metadata.keys :=
  AList.mem_keys.mp (AList.lookup_isSome.mp (by rw [h]; rfl))

theorem mem_loaded {faults : Faults} {pass : Pass} :
    m ∈ s.loaded faults pass ↔
      ∃ id, faults (.getManifest pass id) = .ok ∧ s.Holds (.manifest id) m := by
  simp only [loaded, mem_filterMap, loadedAt_eq_some]
  constructor
  · rintro ⟨_, -, id, rfl, hok, hm⟩
    exact ⟨id, hok, hm⟩
  · rintro ⟨id, hok, hm⟩
    exact ⟨.manifest id, mem_keys_of_holds hm, id, rfl, hok, hm⟩

theorem nodup_loaded (hs : s.WellNamed) (faults : Faults) (pass : Pass) :
    ((s.loaded faults pass).map Manifest.id).Nodup := by
  rw [loaded, map_filterMap]
  refine (AList.keys_nodup s.metadata).filterMap ?_
  intro name name' id hname hname'
  obtain ⟨m, hm, rfl⟩ := Option.mem_map.mp hname
  obtain ⟨m', hm', hid⟩ := Option.mem_map.mp hname'
  obtain ⟨_, rfl, -, hholds⟩ := loadedAt_eq_some.mp hm
  obtain ⟨_, rfl, -, hholds'⟩ := loadedAt_eq_some.mp hm'
  rw [hs _ _ hholds, hs _ _ hholds', hid]

end Store

/-! ### The reads change nothing -/

section

variable {faults : Faults} {reply : Reply} {pass : Pass}

theorem readOnly_getObject {name : MetaName} {what : String} :
    (getObject reply name what).ReadOnly := readOnly_read

theorem readOnly_loadById {id : String} : (loadById reply id).ReadOnly := by
  apply readOnly_getObject.bind
  rintro (_ | obj)
  · exact ReadOnly.pure _
  · exact (ReadOnly.lift _).bind fun _ => ReadOnly.pure _

theorem readOnly_loadLatest {lookup : Lookup} : (loadLatest faults lookup).ReadOnly := by
  apply readOnly_getObject.bind
  rintro (_ | latest)
  · exact ReadOnly.pure _
  · apply (ReadOnly.lift _).bind
    intro name
    apply readOnly_getObject.bind
    rintro (_ | obj)
    · exact ReadOnly.fail _
    · exact (ReadOnly.lift _).bind fun _ => ReadOnly.pure _

theorem readOnly_loadPrevious {m : Manifest} : (loadPrevious reply m).ReadOnly := by
  unfold loadPrevious
  split
  · exact readOnly_loadById
  · exact ReadOnly.pure _

theorem readOnly_loadChainLoop {fuel depth : Nat} {next : Option Manifest}
    {seen : List String} {out : List Manifest} :
    (loadChainLoop faults fuel depth next seen out).ReadOnly := by
  induction fuel generalizing depth next seen out with
  | zero => exact ReadOnly.fail _
  | succ fuel ih =>
    cases next with
    | none => exact ReadOnly.pure _
    | some m =>
      rw [loadChainLoop]
      split
      · exact ReadOnly.pure _
      · exact readOnly_loadPrevious.bind fun _ => ih

theorem readOnly_loadChain : (loadChain faults).ReadOnly :=
  ReadOnly.state.bind fun _ => readOnly_loadLatest.bind fun _ => readOnly_loadChainLoop

theorem readOnly_loadListed {out : List Manifest} {name : MetaName} :
    (loadListed faults pass out name).ReadOnly := by
  unfold loadListed
  split
  · apply readOnly_loadById.attempt.bind
    intro r
    split <;> exact ReadOnly.pure _
  · exact ReadOnly.pure _

theorem readOnly_loadAllManifests : (loadAllManifests faults pass).ReadOnly :=
  readOnly_read.bind fun _ => ReadOnly.foldlM (fun _ _ => readOnly_loadListed) _ _

theorem readOnly_listRestorePoints : (listRestorePoints faults).ReadOnly :=
  readOnly_loadChain.bind fun _ => readOnly_loadAllManifests.bind fun _ => ReadOnly.pure _

theorem readOnly_gcKeepIds {X : Extern} {policy : RetentionPolicy} :
    (gcKeepIds X faults policy).ReadOnly := by
  apply readOnly_listRestorePoints.bind
  intro candidates
  apply readOnly_loadLatest.bind
  rintro (_ | latest) <;> exact ReadOnly.pure _

end

/-! ### What they return -/

theorem decodeGz_eq_ok {obj : MetaObject} {m : Manifest} :
    obj.decodeGz = .ok m ↔ obj = .manifest m := by
  cases obj <;> simp [MetaObject.decodeGz]

theorem latestName_eq_ok {obj : MetaObject} {name : MetaName} :
    obj.latestName = .ok name ↔ obj = .pointer (some name) := by
  cases obj with
  | pointer p => cases p <;> simp [MetaObject.latestName]
  | manifest | corrupt => simp [MetaObject.latestName]

/-- What is stored as the manifest of an id, if it can be read at all. -/
def Store.ById (s : Store) (id : String) : Option Manifest → Prop
  | none => s.metadata.lookup (.manifest id) = none
  | some m => s.Holds (.manifest id) m

/-- What the pointer leads to, if it leads anywhere. -/
def Store.LatestIs (s : Store) : Option Manifest → Prop
  | none => s.metadata.lookup .latest = none
  | some m => ∃ name, s.metadata.lookup .latest = some (.pointer (some name)) ∧ s.Holds name m

section

variable {faults : Faults} {reply : Reply} {pass : Pass} {s : Store}

theorem getObject_result {name : MetaName} {what : String} {obj? : Option MetaObject} :
    (getObject reply name what s).result = .ok obj? ↔
      reply = .ok ∧ s.metadata.lookup name = obj? :=
  read_result_eq_ok

variable {m? next : Option Manifest}

theorem decodeGz_result {obj : MetaObject} :
    ((do return some (← Prog.lift obj.decodeGz) : BackupM (Option Manifest)) s).result = .ok m? ↔
      ∃ m, obj = .manifest m ∧ some m = m? := by
  rw [(ReadOnly.lift _).bind_result]
  simp [decodeGz_eq_ok]

theorem loadById_result {id : String} :
    (loadById reply id s).result = .ok m? ↔ reply = .ok ∧ s.ById id m? := by
  rw [loadById, readOnly_getObject.bind_result]
  simp only [getObject_result, and_assoc, exists_and_left, exists_eq_left']
  refine and_congr_right fun _ => ?_
  cases hlookup : s.metadata.lookup (.manifest id) with
  | none => cases m? <;> simp [Store.ById, Store.Holds, hlookup]
  | some obj =>
    rw [decodeGz_result]
    cases m? <;> simp [Store.ById, Store.Holds, hlookup]

theorem loadLatest_result {lookup : Lookup} :
    (loadLatest faults lookup s).result = .ok m? ↔
      faults (.getLatest lookup) = .ok ∧ s.LatestIs m? ∧
        (m? ≠ none → faults (.getLatestManifest lookup) = .ok) := by
  rw [loadLatest, readOnly_getObject.bind_result]
  simp only [getObject_result, and_assoc, exists_and_left, exists_eq_left']
  refine and_congr_right fun _ => ?_
  cases hlatest : s.metadata.lookup .latest with
  | none => cases m? <;> simp [Store.LatestIs, hlatest]
  | some latest =>
    simp only [(ReadOnly.lift _).bind_result, lift_result, latestName_eq_ok,
      readOnly_getObject.bind_result, getObject_result, and_assoc, exists_and_left, exists_eq_left']
    constructor
    · rintro ⟨name, rfl, hreply, h⟩
      cases hobj : s.metadata.lookup name with
      | none => simp [hobj] at h
      | some obj =>
        rw [hobj] at h
        obtain ⟨m, rfl, rfl⟩ := decodeGz_result.mp h
        exact ⟨⟨name, hlatest, hobj⟩, fun _ => hreply⟩
    · rintro ⟨h, hreply⟩
      cases m? with
      | none => cases hlatest.symm.trans h
      | some m =>
        obtain ⟨name, hname, hm⟩ := h
        cases hlatest.symm.trans hname
        refine ⟨name, rfl, hreply nofun, ?_⟩
        rw [hm]
        exact decodeGz_result.mpr ⟨m, rfl, rfl⟩

/-- What the `previous` link of a manifest leads to. -/
def Store.PreviousIs (s : Store) (m : Manifest) (m? : Option Manifest) : Prop :=
  match m.previous with
  | some id => s.ById id m?
  | none => m? = none

variable {m : Manifest}

theorem loadPrevious_result :
    (loadPrevious reply m s).result = .ok m? ↔
      s.PreviousIs m m? ∧ (m.previous ≠ none → reply = .ok) := by
  cases hprev : m.previous with
  | none =>
    simp only [loadPrevious, Store.PreviousIs, hprev, pure_result]
    simp [eq_comm]
  | some id => simp [loadPrevious, Store.PreviousIs, hprev, loadById_result, and_comm]

variable {chain out : List Manifest}

theorem loadListed_result {name : MetaName} :
    (loadListed faults pass out name s).result =
      .ok (out ++ (s.loadedAt faults pass name).toList) := by
  cases name with
  | latest | other => simp [loadListed, Store.loadedAt, pure_apply]
  | manifest id =>
    rw [loadListed, readOnly_loadById.attempt.bind_result]
    refine ⟨_, rfl, ?_⟩
    have hfound {m : Manifest} : s.loadedAt faults pass (.manifest id) = some m ↔
        (loadById (faults (.getManifest pass id)) id s).result = .ok (some m) := by
      rw [loadById_result, Store.loadedAt_eq_some]
      simp [Store.ById]
    have hnone (h : ∀ m, (loadById (faults (.getManifest pass id)) id s).result ≠ .ok (some m)) :
        s.loadedAt faults pass (.manifest id) = none :=
      Option.eq_none_iff_forall_ne_some.mpr fun m hm => h m (hfound.mp hm)
    cases hr : (loadById (faults (.getManifest pass id)) id s).result with
    | error e => simp [hnone (by simp [hr]), pure_apply]
    | ok m? =>
      cases m? with
      | none => simp [hnone (by simp [hr]), pure_apply]
      | some m => simp [hfound.mpr hr, pure_apply]

theorem foldlM_loadListed_result {names : List MetaName} :
    (names.foldlM (loadListed faults pass) out s).result =
      .ok (out ++ names.filterMap (s.loadedAt faults pass)) := by
  induction names generalizing out with
  | nil => simp [pure_apply]
  | cons name names ih =>
    rw [foldlM_cons, readOnly_loadListed.bind_apply loadListed_result, ih]
    cases h : s.loadedAt faults pass name <;> simp [h]

theorem loadAllManifests_result {ms : List Manifest} :
    (loadAllManifests faults pass s).result = .ok ms ↔
      faults (.listMeta pass) = .ok ∧ s.loaded faults pass = ms := by
  rw [loadAllManifests, listMetaNames, readOnly_read.bind_result]
  simp [read_result_eq_ok, foldlM_loadListed_result, Store.loaded]

theorem loadAllManifests_error {e : BackupError}
    (h : (loadAllManifests faults pass s).result = .error e) : faults (.listMeta pass) ≠ .ok := by
  intro hok
  cases h.symm.trans (loadAllManifests_result.mpr ⟨hok, rfl⟩)

theorem listRestorePoints_result {candidates : List Manifest} :
    (listRestorePoints faults s).result = .ok candidates ↔
      ∃ chain, (loadChain faults s).result = .ok chain ∧
        faults (.listMeta .restorePoints) = .ok ∧
        chain ++ ((s.loaded faults .restorePoints).filter fun m =>
          decide (m.id ∉ chain.map Manifest.id)).mergeSort newer = candidates := by
  rw [listRestorePoints, readOnly_loadChain.bind_result]
  simp only [readOnly_loadAllManifests.bind_result, loadAllManifests_result, pure_result]
  simp

theorem gcKeepIds_result {X : Extern} {policy : RetentionPolicy} {keepIds : List String} :
    (gcKeepIds X faults policy s).result = .ok keepIds ↔
      ∃ candidates latest, (listRestorePoints faults s).result = .ok candidates ∧
        (loadLatest faults .gc s).result = .ok latest ∧
        (latest.map Manifest.id).toList ++
          selectManifests X.calendar candidates policy.effective = keepIds := by
  rw [gcKeepIds, readOnly_listRestorePoints.bind_result]
  simp only [readOnly_loadLatest.bind_result]
  constructor
  · rintro ⟨candidates, hc, latest, hl, h⟩
    refine ⟨candidates, latest, hc, hl, ?_⟩
    cases latest <;> exact pure_result.mp h
  · rintro ⟨candidates, latest, hc, hl, h⟩
    refine ⟨candidates, hc, latest, hl, ?_⟩
    cases latest <;> exact pure_result.mpr h

/-! ### Failures do not change what a lookup finds -/

theorem loadLatest_noFaults {lookup : Lookup} (lookup' : Lookup)
    (h : (loadLatest faults lookup s).result = .ok m?) :
    (loadLatest noFaults lookup' s).result = .ok m? := by
  obtain ⟨-, hlatest, -⟩ := loadLatest_result.mp h
  exact loadLatest_result.mpr ⟨rfl, hlatest, fun _ => rfl⟩

variable {depth fuel : Nat} {seen : List String}

/-! ### The chain -/

/-- The manifest is stored, under whatever name. -/
def Store.Stored (s : Store) (m : Manifest) : Prop := ∃ name, s.Holds name m

theorem stored_of_latestIs (h : s.LatestIs (some m)) : s.Stored m := by
  obtain ⟨name, -, hm⟩ := h
  exact ⟨name, hm⟩

theorem stored_of_previousIs {m' : Manifest} (h : s.PreviousIs m (some m')) : s.Stored m' := by
  unfold Store.PreviousIs at h
  split at h
  next id _ => exact ⟨.manifest id, h⟩
  next => cases h

/-- The manifests that the walk meets from `next` on. -/
inductive Walks (s : Store) : Option Manifest → List String → List Manifest → Prop where
  | done {seen : List String} : Walks s none seen []
  | cycle {m : Manifest} {seen : List String} (h : m.id ∈ seen) : Walks s (some m) seen []
  | step {m : Manifest} {seen : List String} {next : Option Manifest} {rest : List Manifest}
      (hnew : m.id ∉ seen) (hnext : s.PreviousIs m next)
        (hrest : Walks s next (m.id :: seen) rest) :
      Walks s (some m) seen (m :: rest)

/-- The number of stored ids that are not yet seen. -/
def Store.unseen (s : Store) (seen : List String) : Nat := ((s.metadata.entries.filterMap fun e =>
    match e.2 with
    | .manifest m => some m.id
    | _ => none).toFinset \ seen.toFinset).card

theorem unseen_lt (hm : s.Stored m) (hnew : m.id ∉ seen) :
    s.unseen (m.id :: seen) < s.unseen seen := by
  obtain ⟨name, hname⟩ := hm
  rw [Store.unseen, toFinset_cons, Finset.sdiff_insert]
  refine Finset.card_erase_lt_of_mem (Finset.mem_sdiff.mpr ⟨?_, by simpa using hnew⟩)
  rw [mem_toFinset, mem_filterMap]
  exact ⟨⟨name, .manifest m⟩, AList.mem_lookup_iff.mp hname, rfl⟩

theorem Store.unseen_nil_lt (s : Store) : s.unseen [] < s.metadata.entries.length + 1 := by
  rw [Store.unseen, toFinset_nil, Finset.sdiff_empty]
  exact Nat.lt_succ_of_le ((toFinset_card_le _).trans (length_filterMap_le _ _))

/-- With enough fuel the walk ends, or it fails where one of its reads fails. -/
theorem loadChainLoop_ends (faults : Faults) (fuel depth : Nat) (out : List Manifest)
    (hnext : ∀ m ∈ next, s.Stored m) (hfuel : s.unseen seen < fuel) :
    (∃ rest, Walks s next seen rest ∧
        (loadChainLoop faults fuel depth next seen out s).result = .ok (out ++ rest)) ∨
      ∃ e step m, (loadChainLoop faults fuel depth next seen out s).result = .error e ∧
        (loadPrevious (faults (.getChain step)) m s).result = .error e := by
  induction fuel generalizing depth next seen out with
  | zero => exact absurd hfuel (Nat.not_lt_zero _)
  | succ fuel ih =>
    cases next with
    | none => exact .inl ⟨[], .done, by simp [loadChainLoop]⟩
    | some m =>
      rw [loadChainLoop]
      split
      next hseen => exact .inl ⟨[], .cycle hseen, by simp⟩
      next hnew =>
        cases hr : (loadPrevious (faults (.getChain depth)) m s).result with
        | error e => exact .inr ⟨e, depth, m, by rw [bind_of_error hr], hr⟩
        | ok next' =>
          have hprev := (loadPrevious_result.mp hr).1
          have hstored : ∀ m' ∈ next', s.Stored m' := fun m' hm' =>
            stored_of_previousIs (hm' ▸ hprev)
          have hlt := unseen_lt (hnext m rfl) hnew
          rw [readOnly_loadPrevious.bind_apply hr]
          rcases ih (depth + 1) (out ++ [m]) hstored
            (Nat.lt_of_lt_of_le hlt (Nat.le_of_lt_succ hfuel))
            with ⟨rest, hrest, h⟩ | h
          · exact .inl ⟨m :: rest, .step hnew hprev hrest, by rw [h]; simp⟩
          · exact .inr h

theorem loadChainLoop_of_walks {rest : List Manifest} (h : Walks s next seen rest)
    (hnext : ∀ m ∈ next, s.Stored m) (hfuel : s.unseen seen < fuel) (depth : Nat)
    (out : List Manifest) :
    (loadChainLoop noFaults fuel depth next seen out s).result = .ok (out ++ rest) := by
  induction h generalizing fuel depth out with
  | done =>
    obtain ⟨k, rfl⟩ := Nat.exists_eq_add_of_lt hfuel
    simp [loadChainLoop]
  | cycle hseen =>
    obtain ⟨k, rfl⟩ := Nat.exists_eq_add_of_lt hfuel
    simp [loadChainLoop, hseen]
  | @step m seen next rest hnew hprev _ ih =>
    have hlt := unseen_lt (hnext m rfl) hnew
    obtain ⟨k, rfl⟩ := Nat.exists_eq_add_of_lt hfuel
    have hload : (loadPrevious (noFaults (.getChain depth)) m s).result = .ok next :=
      loadPrevious_result.mpr ⟨hprev, fun _ => rfl⟩
    rw [loadChainLoop, if_neg hnew, readOnly_loadPrevious.bind_apply hload, append_cons out m rest]
    exact ih (fun m' hm' => stored_of_previousIs (hm' ▸ hprev)) (by omega) _ _

theorem walks_of_loadChain (h : (loadChain faults s).result = .ok chain) :
    ∃ latest, s.LatestIs latest ∧ Walks s latest [] chain := by
  obtain ⟨latest, hlatest, h⟩ := readOnly_loadLatest.bind_result.mp h
  obtain ⟨-, hlatest, -⟩ := loadLatest_result.mp hlatest
  rcases loadChainLoop_ends faults _ 0 [] (fun m hm => stored_of_latestIs (hm ▸ hlatest))
    s.unseen_nil_lt with ⟨rest, hrest, h'⟩ | ⟨e, -, -, h', -⟩
  · cases h'.symm.trans h
    exact ⟨latest, hlatest, hrest⟩
  · cases h'.symm.trans h

theorem loadChain_iff :
    (loadChain noFaults s).result = .ok chain ↔
      ∃ latest, s.LatestIs latest ∧ Walks s latest [] chain := by
  refine ⟨walks_of_loadChain, ?_⟩
  rintro ⟨latest, hlatest, hwalks⟩
  exact readOnly_loadLatest.bind_result.mpr
    ⟨latest, loadLatest_result.mpr ⟨rfl, hlatest, fun _ => rfl⟩, loadChainLoop_of_walks hwalks
      (fun m hm => stored_of_latestIs (hm ▸ hlatest)) s.unseen_nil_lt 0 []⟩

theorem loadChain_noFaults (h : (loadChain faults s).result = .ok chain) :
    (loadChain noFaults s).result = .ok chain :=
  loadChain_iff.mpr (walks_of_loadChain h)

theorem Walks.spec {rest : List Manifest} (h : Walks s next seen rest)
    (hnext : ∀ m ∈ next, s.Stored m) :
    (∀ m ∈ rest, s.Stored m ∧ m.id ∉ seen) ∧ (rest.map Manifest.id).Nodup := by
  induction h with
  | done | cycle => simp
  | @step m seen next rest hnew hprev _ ih =>
    obtain ⟨hrest, hnodup⟩ := ih fun m' hm' => stored_of_previousIs (hm' ▸ hprev)
    refine ⟨forall_mem_cons.mpr ⟨⟨hnext m rfl, hnew⟩, fun m' hm' => ⟨(hrest m' hm').1, fun hseen =>
      (hrest m' hm').2 (mem_cons_of_mem _ hseen)⟩⟩, nodup_cons.mpr ⟨fun hmem => ?_, hnodup⟩⟩
    obtain ⟨m', hm', heq⟩ := mem_map.mp hmem
    exact (hrest m' hm').2 (heq ▸ mem_cons_self)

theorem Store.LatestIs.unique {m?' : Option Manifest} (h : s.LatestIs m?)
    (h' : s.LatestIs m?') : m? = m?' := by
  have hload : ∀ {l}, s.LatestIs l → (loadLatest noFaults .gc s).result = .ok l :=
    fun hl => loadLatest_result.mpr ⟨rfl, hl, fun _ => rfl⟩
  exact Except.ok.inj ((hload h).symm.trans (hload h'))

/-- The chain consists of stored manifests with distinct ids, and has the one that
`LATEST` names. -/
theorem loadChain_spec (h : (loadChain faults s).result = .ok chain) :
    (∀ m ∈ chain, s.Stored m) ∧ (chain.map Manifest.id).Nodup ∧
      ∀ m, s.LatestIs (some m) → m.id ∈ chain.map Manifest.id := by
  obtain ⟨latest, hlatest, hwalks⟩ := walks_of_loadChain h
  obtain ⟨hstored, hnodup⟩ := hwalks.spec fun m hm => stored_of_latestIs (hm ▸ hlatest)
  refine ⟨fun m hm => (hstored m hm).1, hnodup, fun m hm => ?_⟩
  cases hlatest.unique hm
  cases hwalks with
  | cycle hseen => cases hseen
  | step => simp

/-- The objects under the names of manifests are manifests. -/
def Store.Clean (s : Store) : Prop :=
  ∀ id obj, s.metadata.lookup (.manifest id) = some obj → ∃ m, obj = .manifest m

theorem Store.Clean.exists_byId (hs : s.Clean) (id : String) : ∃ m?, s.ById id m? := by
  cases hlookup : s.metadata.lookup (.manifest id) with
  | none => exact ⟨none, hlookup⟩
  | some obj =>
    obtain ⟨m, rfl⟩ := hs id obj hlookup
    exact ⟨some m, hlookup⟩

theorem Store.Clean.exists_previous (hs : s.Clean) (m : Manifest) :
    ∃ m?, (loadPrevious .ok m s).result = .ok m? := by
  cases hprev : m.previous with
  | none => exact ⟨none, by simp [loadPrevious, hprev]⟩
  | some id =>
    obtain ⟨m?, hm⟩ := hs.exists_byId id
    exact ⟨m?, by simpa [loadPrevious, hprev, loadById_result] using hm⟩

/-- Without failures the restore points can be listed as soon as the pointer leads to a
manifest, or is not there. -/
theorem listRestorePoints_succeeds (hs : s.Clean) {latest : Option Manifest}
    (h : s.LatestIs latest) :
    ∃ candidates, (listRestorePoints noFaults s).result = .ok candidates := by
  rcases loadChainLoop_ends noFaults _ 0 [] (fun m hm => stored_of_latestIs (hm ▸ h))
    s.unseen_nil_lt with ⟨chain, hwalks, -⟩ | ⟨e, step, m, -, hr⟩
  · exact ⟨_, listRestorePoints_result.mpr ⟨chain, loadChain_iff.mpr ⟨latest, h, hwalks⟩, rfl, rfl⟩⟩
  · obtain ⟨_, hok⟩ := hs.exists_previous m
    cases hok.symm.trans hr

end

end Bichon.Backup
