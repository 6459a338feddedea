import Bichon.Blob.GcFrame

/-!
# Rebuilding the index

When the index cannot be read, `Engine::open` starts from an empty one and inserts a
record for every entry in the segment files, in the order of the log. `rebuild_same`
says when this gives back what the lost index said. An operation keeps the log and the
index in step unless it is a batch that is refused half way, and a compaction does
unless it drops the last tombstone of a key that has a value in some other segment:
`View.Replays.compacted` is the heart of the matter.
-/

namespace Bichon.Blob

open ByteFile LastWrite Durable Transition List IndexStore View Status

/-! ## Replaying the log -/

namespace View

/-- The index a rebuild makes. -/
def replayed (v : View) : IndexStore := IndexStore.empty.insertBatch v.records

/-- The rebuilt index has the live records of the index in use. -/
def Replays (v : View) : Prop := ∀ key, v.replayed.get key = v.index.get key

def recordsOutside (v : View) (id : Nat) : List IndexRecord :=
  ((List.range (v.active + 1)).filter fun id' => decide (id' ≠ id)).flatMap v.recordsIn

end View

theorem IndexStore.table_empty_insertBatch (records : List IndexRecord) (key : Key) :
    (IndexStore.empty.insertBatch records).table key =
      (lastFor key (IndexStore.updates records)).getD none := by
  rw [table_insertBatch, setAll_apply]
  rfl

theorem IndexStore.mem_of_lastFor_updates {records : List IndexRecord} {key : Key}
    {slot : Option IndexRecord} (h : lastFor key (IndexStore.updates records) = some slot) :
    ∃ record ∈ records, slot = some record := by
  obtain ⟨record, hrecord, heq⟩ := mem_map.mp (mem_of_lastFor h)
  cases heq
  exact ⟨record, hrecord, rfl⟩

section

variable {X : Extern} {v w : View} {s : Engine} {d : Disk} {config : Config} {id : Nat}

namespace View

theorem Replays.of_eq (h : v.Replays) (hrecords : w.records = v.records)
    (htable : w.table = v.table) : w.Replays := by
  intro key
  rw [replayed, hrecords, index, htable]
  exact h key

theorem Replays.write (h : v.Replays) (ho : v.Open) (es : List Entry) (ends : List (Nat × Nat)) :
    (v.write es ends).Replays := by
  have hrecords : (v.write es ends).records = v.records ++ v.recordsFor es := by
    rw [View.write, markAll_eq]
    exact records_appendAll ho es
  have htable : (v.write es ends).table = setAll v.table (updates (v.recordsFor es)) := by
    rw [View.write, markAll_eq, insertAll, table_appendAll]
  intro key
  have hkey := h key
  rw [replayed, hrecords, index, htable]
  rw [replayed, index] at hkey
  cases hlast : lastFor key (updates (v.recordsFor es)) with
  | some slot =>
    refine get_congr ?_
    rw [table_empty_insertBatch, updates_append, lastFor_append, hlast]
    dsimp only
    rw [setAll_apply, hlast]
    rfl
  | none =>
    refine Eq.trans (get_congr ?_) (hkey.trans (get_congr ?_))
    · rw [table_empty_insertBatch, table_empty_insertBatch,
        updates_append, lastFor_append, hlast]
      rfl
    · dsimp only
      rw [setAll_apply, hlast]
      rfl

/-- The last record of a key in some of the segments. -/
def lastIn (v : View) (ids : List Nat) (key : Key) : Option (Option IndexRecord) :=
  lastFor key (IndexStore.updates (ids.flatMap v.recordsIn))

theorem lastIn_append (v : View) (ids ids' : List Nat) (key : Key) :
    v.lastIn (ids ++ ids') key = (v.lastIn ids' key).or (v.lastIn ids key) := by
  rw [lastIn, flatMap_append, updates_append, lastFor_append]
  rfl

theorem lastIn_congr {ids : List Nat} (h : ∀ id ∈ ids, w.recordsIn id = v.recordsIn id)
    (key : Key) : w.lastIn ids key = v.lastIn ids key := by
  rw [lastIn, flatMap_congr h]
  rfl

theorem segmentId_mem_of_lastIn {ids : List Nat} {key : Key} {slot : Option IndexRecord}
    (h : v.lastIn ids key = some slot) : ∃ record, slot = some record ∧ record.segmentId ∈ ids := by
  obtain ⟨record, hmem, rfl⟩ := mem_of_lastFor_updates h
  obtain ⟨id', hid', hin⟩ := mem_flatMap.mp hmem
  exact ⟨record, rfl, by rwa [segmentId_of_mem_recordsIn hin]⟩

theorem table_replayed (v : View) (key : Key) :
    v.replayed.table key = (v.lastIn (List.range (v.active + 1)) key).getD none :=
  table_empty_insertBatch _ key

theorem range_split {n : Nat} (hid : id < n) :
    ∃ front back, id ∉ front ∧ id ∉ back ∧ List.range n = front ++ ([id] ++ back) ∧
      (List.range n).filter (fun id' => decide (id' ≠ id)) = front ++ back := by
  obtain ⟨front, back, heq⟩ := append_of_mem (mem_range.mpr hid)
  have hnodup : (range n).Nodup := nodup_range
  rw [heq, nodup_append, nodup_cons] at hnodup
  have hfront : id ∉ front := fun h => hnodup.2.2 id h id mem_cons_self rfl
  have hall : ∀ {ids : List Nat}, id ∉ ids → ids.filter (fun id' => decide (id' ≠ id)) = ids :=
    fun hnotin => filter_eq_self.mpr fun id' hid' =>
      decide_eq_true fun heq => hnotin (heq ▸ hid')
  refine ⟨front, back, hfront, hnodup.2.1.1, heq, ?_⟩
  rw [heq, filter_append, filter_cons_of_neg (by simp), hall hfront,
    hall hnodup.2.1.1]

theorem recordsIn_compacted_ne {id' : Nat} (h : id' ≠ id) :
    (v.compacted id).recordsIn id' = v.recordsIn id' := by
  rw [recordsIn, recordsIn, entriesAt, entriesAt, compacted, layout_committed_ne _ h]

theorem recordsIn_compacted_self (hkeeps : v.kept id = [] ∨ dataBytes (v.kept id) ≠ 0) :
    (v.compacted id).recordsIn id = recordsOf id (v.kept id) := by
  rw [recordsIn, entriesAt, compacted, v.layout_committed_self id (v.kept id)]
  rcases hkeeps with hnil | hdata
  · rw [hnil]
    rfl
  · rw [if_neg hdata]
    rfl

/-- A compaction keeps the log and the index in step if it drops no tombstone that
still hides an entry of another segment. -/
theorem Replays.compacted (h : v.Replays) (hv : v.Coherent) (hid : id < v.active)
    (hlayout : v.layout id ≠ none) (hkeeps : v.kept id = [] ∨ dataBytes (v.kept id) ≠ 0)
    (hspare : ∀ key, v.index.get key = none →
      (IndexStore.empty.insertBatch (v.recordsOutside id)).get key = none) :
    (v.compacted id).Replays := by
  intro key
  obtain ⟨front, back, hfront, hback, hrange, hfilter⟩ := range_split (Nat.lt_succ_of_lt hid)
  have hother : ∀ {ids : List Nat}, id ∉ ids → (v.compacted id).lastIn ids key = v.lastIn ids key :=
    fun hnotin => lastIn_congr (fun id' hid' =>
      recordsIn_compacted_ne fun heq : id' = id => hnotin (heq ▸ hid')) key
  have hself : (v.compacted id).lastIn [id] key =
      lastFor key (updates (recordsOf id (v.kept id))) := by
    rw [lastIn, flatMap_singleton, recordsIn_compacted_self hkeeps]
  have htable : (v.compacted id).table key =
      ((v.compacted id).lastIn [id] key).getD (v.table key) := by
    rw [hself]
    exact setAll_apply _ _ _
  have hreplay := (v.compacted id).table_replayed key
  have hactive : (v.compacted id).active = v.active := rfl
  rw [hactive, hrange, lastIn_append, lastIn_append, hother hfront, hother hback] at hreplay
  have hreplay₀ := v.table_replayed key
  rw [hrange, lastIn_append, lastIn_append] at hreplay₀
  cases hlast : (v.compacted id).lastIn [id] key with
  | some slot =>
    -- the key is kept, and in the log nothing of it comes after the segment
    refine get_congr ?_
    have hlive : v.LiveIn id key := by
      rw [hself] at hlast
      obtain ⟨e, offset, hat, rfl, -⟩ := mem_updates_recordsOf (mem_of_lastFor hlast)
      exact liveIn_of_mem_kept (mem_of_mem_offsetsFrom hat)
    obtain ⟨record, hget, hrid⟩ := hlive
    have hnone : v.lastIn back key = none := by
      cases hbacklast : v.lastIn back key with
      | none => rfl
      | some slot' =>
        obtain ⟨record', rfl, hmem⟩ := segmentId_mem_of_lastIn hbacklast
        rw [← h key] at hget
        rw [hbacklast] at hreplay₀
        have heq := hreplay₀.symm.trans (get_eq_some_iff.mp hget).1
        cases heq
        exact absurd (hrid ▸ hmem) hback
    rw [hreplay, hnone, hlast]
    exact (htable.trans (by rw [hlast]; rfl)).symm
  | none =>
    rw [hlast] at htable hreplay
    have hindex : (v.compacted id).index.get key = v.index.get key := get_congr htable
    rw [hindex]
    cases hget : v.index.get key with
    | none =>
      rw [← hspare key hget]
      refine get_congr ?_
      rw [hreplay, recordsOutside, hfilter, table_empty_insertBatch]
      have happend := v.lastIn_append front back key
      rw [lastIn] at happend
      rw [happend, Option.or_none]
    | some record =>
      rw [← hget, ← h key]
      refine get_congr ?_
      rw [hreplay, hreplay₀, Option.or_none]
      -- the segment has no record of the key that counts
      have hrid : record.segmentId ≠ id := by
        rintro rfl
        obtain ⟨e, he, rfl⟩ := (hv.sound.liveIn_iff hlayout).mp ⟨record, hget, rfl⟩
        obtain ⟨offset, hat⟩ := exists_offset_of_mem he 0
        rw [hself, lastFor_eq_none_iff] at hlast
        exact hlast _ (mem_map.mpr ⟨_, mem_recordsOf.mpr ⟨e, offset, hat, rfl⟩, rfl⟩) rfl
      cases hbacklast : v.lastIn back key with
      | some slot => rfl
      | none =>
        cases hselflast : v.lastIn [id] key with
        | none => rfl
        | some slot =>
          obtain ⟨record', rfl, hmem⟩ := segmentId_mem_of_lastIn hselflast
          rw [← h key] at hget
          rw [hbacklast, hselflast] at hreplay₀
          have heq := hreplay₀.symm.trans (get_eq_some_iff.mp hget).1
          cases heq
          exact absurd (mem_singleton.mp hmem) hrid

/-! ## Opening without an index -/

def unindexed (v : View) : View := { v with table := fun _ => none, marks := fun _ => 0 }

theorem pending_unindexed (v : View) : v.unindexed.pending = v.records := by
  refine filter_eq_self.mpr fun record _ => ?_
  exact decide_eq_true (Nat.zero_le _)

theorem table_opened_unindexed (v : View) : v.unindexed.opened.table = v.replayed.table := by
  change setAll (fun _ => none) (updates v.unindexed.pending) = _
  rw [pending_unindexed, replayed, table_insertBatch]
  rfl

theorem Replays.lookup_opened (h : v.Replays) (ho : v.Open) (key : Key) :
    v.unindexed.opened.lookup X key = v.lookup X key := by
  have hget : v.unindexed.opened.index.get key = v.index.get key :=
    (get_congr (congrFun v.table_opened_unindexed key)).trans (h key)
  rw [lookup_eq, lookup_eq, hget]
  cases v.index.get key with
  | none => rfl
  | some record =>
    refine readRecord_congr ?_
    obtain ⟨es, hes⟩ := Option.ne_none_iff_exists'.mp ho.active
    by_cases hid : record.segmentId = v.active
    · rw [hid, hes, opened]
      simp [unindexed, entriesAt, hes]
    · simp [opened, unindexed, hid]

end View

theorem Discovered.reset {m : GlobalMeta} (h : Discovered v m) :
    Discovered v.unindexed m.resetStats where
  active := h.active
  marks := m.indexedUpTo_resetStats
  stats := by
    intro id st hst
    rw [GlobalMeta.resetStats, Std.ExtTreeMap.getElem?_map] at hst
    obtain ⟨st', hst', rfl⟩ := Option.map_eq_some_iff.mp hst
    have hstats := h.stats hst'
    exact hstats
  fresh := by
    intro hnone
    rw [GlobalMeta.resetStats, Std.ExtTreeMap.getElem?_map]
    exact Option.map_eq_none_iff.mpr (h.fresh hnone)

theorem OnDisk.runs_rebuild (h : OnDisk X v d) (hconfig : config.validate = .ok ())
    {broken : IndexStore} (hbroken : broken.readable = false) :
    Runs (openStore X config) { d with index := broken }
      (fun out d' => InMemory X v.unindexed.opened (Engine.opened d' out)) (fun _ => True) := by
  have hmeta : ({ d with index := broken } : Disk).scanMeta =
      (discover (diskSegments d.fs) (d.metaBin.getD .new)).resetStats :=
    if_neg (by rw [hbroken]; exact Bool.false_ne_true)
  have hscannable : Scannable X v.unindexed (fun _ => []) { d with index := broken } :=
    { valid := h.valid
      aligned := fun id => by
        exact boundary_zero _
      short := fun _ => by decide
      behind := fun _ hne => absurd rfl hne
      files := h.holdsTorn
      table := by
        rw [Disk.openedIndex, if_neg (by rw [hbroken]; exact Bool.false_ne_true)]
        rfl
      discovered := by
        rw [hmeta]
        exact (discovered_of_described h.toDescribed h.holdsTorn).reset
      full := fun _ _ => rfl
      pos := h.pos
      top := h.top }
  exact (hscannable.runs_openStore hconfig).weaken fun _ _ => trivial

/-! ## Runs -/

/-- The records a scan of all segment files but one finds. -/
def Disk.recordsOutside (X : Extern) (d : Disk) (id : Nat) : List IndexRecord :=
  ((diskSegments d.fs).filter fun id' => decide (id' ≠ id)).flatMap fun id' =>
    (Blob.scanEntries X id' ((d.fs.read? (.seg id')).getD []) 0).visited.map
      (IndexRecord.ofEntry id')

theorem OnDisk.recordsOutside_eq (h : OnDisk X v d) (id : Nat) :
    d.recordsOutside X id = v.recordsOutside id := by
  rw [Disk.recordsOutside, recordsOutside, diskSegments_of_holds h.holdsTorn h.top, filter_comm,
    ← flatMap_filter_layout recordsIn_of_layout_none]
  refine flatMap_congr fun id' hid' => ?_
  obtain ⟨es, hes⟩ := Option.isSome_iff_exists.mp (mem_filter.mp hid').2
  rw [h.read id', hes, Option.map_some, Option.getD_some, h.scanEntries hes, recordsIn, entriesAt,
    hes]
  rfl

section

variable (X : Extern) (config : Config)

/-- A compaction hides nothing: a key without a live record has no value at the end
of what the other segments say about it. -/
def Engine.GcSparesTombstones (s : Engine) : Prop :=
  ∀ id, gcTarget config s = some id → ∀ key, s.disk.index.get key = none →
    (IndexStore.empty.insertBatch (s.disk.recordsOutside X id)).get key = none

/-- Batches are refused before they have appended anything, and compactions neither
drop live entries nor uncover old ones. -/
def Rebuildable : Status → Step → Prop
  | _, .act (.op op) => op.Fits ∨ op.accepted X config = []
  | .running s, .act (.gc _) => s.GcKeepsData config ∧ s.GcSparesTombstones X config
  | .stopped _, .openStore => True
  | _, _ => False

/-- Opening the store without its index gives back what was readable before. -/
def Engine.RebuildsSame (s : Engine) : Prop :=
  ∀ broken : IndexStore, broken.readable = false →
    ∃ s', (Status.stopped { s.disk with index := broken }).next X config .openStore =
        some (.running s') ∧
      ∀ key, (Engine.get X key s').result = (Engine.get X key s).result

end

theorem Op.replays_after (op : Op) (hsafe : op.Fits ∨ op.accepted X config = [])
    (h : v.Replays) (hv : v.Coherent) : (op.after X config v).Replays := by
  unfold Op.after
  by_cases hfits : op.Fits
  · rw [if_pos hfits]
    exact op.view_induction X config v (h.of_eq (records_roll hv.isOpen) rfl) h
      (h.write hv.isOpen _ _)
  · rw [if_neg hfits, hsafe.resolve_left hfits]
    exact h

/-- What holds in every state of a run that meets the condition. -/
def Status.InStep (X : Extern) (config : Config) : Status → Prop
  | running s => config.validate = .ok () ∧ ∃ v, InMemory X v s ∧ v.Coherent ∧ v.Replays
  | stopped d => d = Disk.empty

theorem View.replays_empty_opened : View.empty.opened.Replays := by
  intro key
  refine get_congr ?_
  rfl

theorem Status.InStep.next {st st' : Status} {step : Step} (h : st.InStep X config)
    (hguard : Rebuildable X config st step) (hnext : st.next X config step = some st') :
    st'.InStep X config := by
  cases st with
  | stopped d =>
    cases step with
    | openStore =>
      subst h
      rcases (onDisk_empty X).next_openStore (fun _ => boundary_zero _) hnext with
        rfl | ⟨hconfig, s, rfl, hmem⟩
      · rfl
      · exact ⟨hconfig, _, hmem, mends_empty.opened (fun _ _ h => by cases h)
          (fun _ => rfl), replays_empty_opened⟩
    | openCrash | crash | close => exact hguard.elim
    | act action => cases hnext
  | running s =>
    obtain ⟨hconfig, v, hmem, hv, hreplays⟩ := h
    cases step with
    | act action =>
      cases hnext
      refine ⟨hconfig, ?_⟩
      cases action with
      | op operation =>
        exact ⟨_, operation.inMemory_after config hmem, operation.coherent_after config hv,
          operation.replays_after hguard hreplays hv⟩
      | gc timestamp =>
        rcases hmem.gc_after hv config timestamp with
          ⟨-, heq, -⟩ | ⟨id, ht, hid, hlayout, hafter, -⟩
        · rw [heq]
          exact ⟨v, hmem, hv, hreplays⟩
        · refine ⟨_, hafter, hv.compacted hid hlayout, hreplays.compacted hv hid hlayout
            ((hv.keepsData_iff hmem ht).mp hguard.1) fun key hkey => ?_⟩
          rw [← hmem.recordsOutside_eq]
          rw [← hmem.index_eq] at hkey
          exact hguard.2 id ht key hkey
    | _ => exact hguard.elim

end

/-- In every run from an empty directory in which no batch is refused half way and no
compaction drops live entries or uncovers old ones, losing the index changes nothing
for a reader once the store is open again. -/
theorem rebuild_same {X : Extern} {config : Config} {actions : List Action} {s : Engine}
    (hsafe : Along (Status.next X config) (Rebuildable X config) (.stopped Disk.empty)
      (freshSteps actions))
    (hrun : runFrom (Status.next X config) (.stopped Disk.empty) (freshSteps actions) =
      some (.running s)) : s.RebuildsSame X config := by
  have hstart : (stopped Disk.empty).InStep X config := rfl
  obtain ⟨hconfig, v, hmem, hv, hreplays⟩ := hsafe.invariant
    (fun hst hguard hnext => hst.next hguard hnext) hstart hrun
  intro broken hbroken
  obtain ⟨out, hout, hafter, -⟩ := hmem.runs_rebuild hconfig hbroken
  refine ⟨_, by rw [Status.next, hout], fun key => ?_⟩
  rw [get_eq_lookup hafter, get_eq_lookup hmem, hreplays.lookup_opened hv.isOpen]

theorem along_fits (X : Extern) (config : Config) (ops : List Op) (h : ∀ op ∈ ops, op.Fits)
    (st : Status) :
    Along (Status.next X config) (Rebuildable X config) st (ops.map fun op => .act (.op op)) := by
  induction ops generalizing st with
  | nil => trivial
  | cons op ops ih =>
    refine ⟨?_, fun st' _ => ih (fun op' hop' => h op' (mem_cons_of_mem _ hop')) st'⟩
    cases st <;> exact .inl (h op mem_cons_self)

theorem rebuild_same_keeping :
    ∃ s, runFrom (Status.next reference quarterConfig) (.stopped Disk.empty)
        (freshSteps (keepingActions ++ [.gc 7])) = some (.running s) ∧
      s.RebuildsSame reference quarterConfig := by
  obtain ⟨s, hs, htarget, houtside, r, hr, hseg, hsize⟩ :
      ∃ s ∈ engineAfter reference quarterConfig keepingSteps,
        gcTarget quarterConfig s = some 1 ∧ s.disk.recordsOutside reference 1 = [] ∧
        ∃ r ∈ s.disk.index.get (Key.fill 2), r.segmentId = 1 ∧ r.dataSize = 1 := by
    decide +kernel
  have hops : Along (next reference quarterConfig) (Rebuildable reference quarterConfig)
      (.stopped Disk.empty) keepingSteps :=
    ⟨trivial, fun st _ => along_fits _ _ [_, _, _, _] (by decide) st⟩
  have hgc : Rebuildable reference quarterConfig (.running s) (.act (.gc 7)) := by
    refine ⟨fun id hid _ => ?_, fun id hid key _ => ?_⟩
    · rw [htarget] at hid
      cases hid
      exact ⟨r, ⟨_, hr, hseg⟩, by rw [hsize]; decide⟩
    · rw [htarget] at hid
      cases hid
      rw [houtside]
      rfl
  have hbefore := runFrom_of_engineAfter hs
  have hafter : runFrom (next reference quarterConfig) (.stopped Disk.empty)
      (freshSteps (keepingActions ++ [.gc 7])) =
        some (.running ((Action.gc 7).run reference quarterConfig s).state) :=
    runFrom_concat hbefore
  exact ⟨_, hafter, rebuild_same (by exact hops.concat hbefore hgc) hafter⟩

/-- The tombstone of the first key is compacted away while its value still stands in
an older segment, and the rebuilt index brings it back. -/
theorem rebuild_uncovers_value :
    (engineAfter reference quarterConfig (freshSteps
      [.op (.put (Key.fill 1) [1] .none), .op (.put (Key.fill 2) [2] .none),
        .op .sealActiveSegment, .op (.put (Key.fill 3) [3] .none), .op (.delete (Key.fill 1)),
        .op (.delete (Key.fill 3)), .op .sealActiveSegment, .gc 7])).map (fun s =>
      ((Engine.get reference (Key.fill 1) s).result.toOption,
        ((((Status.stopped { s.disk with index := ⟨fun _ => none, false⟩ }).next reference
          quarterConfig .openStore).bind engine?).map fun s' =>
            (Engine.get reference (Key.fill 1) s').result.toOption))) =
      some (some none, some (some (some [1]))) := by
  decide +kernel

end Bichon.Blob
