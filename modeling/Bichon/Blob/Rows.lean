import Bichon.Blob.GcFrame

/-!
# Index rows and the entries they lead to

A row of the index, live or tombstone, should name an entry of its key that stands in
the file of its segment. Puts, deletes and reopenings keep it that way, and so does a
compaction of a segment whose rows are all live and one of which has data. The clean-up
of tombstone rows in `gc_prepare` asks the index for the key and the index hides
tombstones, so it never finds one: `rows_lead_of_sweeping` says that a compaction keeps
the rows in order exactly when there is nothing for that clean-up to do.
-/

namespace Bichon.Blob

open ByteFile LastWrite Durable Transition Option IndexStore

/-- Every row of the index names an entry of its key in the file of its segment. -/
def Disk.RowsLead (X : Extern) (d : Disk) : Prop :=
  ∀ key record, d.index.table key = some record →
    ∃ file e, d.fs.read? (.seg record.segmentId) = some file ∧
      (e, record.offset) ∈ (scanEntries X record.segmentId file 0).visited ∧ e.key = key

/-- If the index has a row of the segment a compaction would rewrite, none of these rows
is a tombstone and one of them has data. -/
def Engine.Sweepable (config : Config) (s : Engine) : Prop :=
  ∀ id, gcTarget config s = some id →
    ∀ key record, s.disk.index.table key = some record → record.segmentId = id →
      record.isTombstone = false ∧ ∃ live, s.disk.index.Live id live ∧ live.dataSize ≠ 0

/-- The steps of a history without crashes whose compactions find nothing to clean up
and whose reopenings start to read between two entries. -/
def Sweeping (X : Extern) (config : Config) : Status → Step → Prop
  | .running _, .act (.op _) => True
  | .running s, .act (.gc _) => s.Sweepable config
  | .running _, .close => True
  | .stopped d, .openStore => d.Aligned X
  | _, _ => False

namespace View

/-- The rows are records of the log, each under its own key. -/
def Rows (v : View) : Prop :=
  ∀ key record, v.table key = some record → record ∈ v.records ∧ record.key = key

/-- The rows lead to entries of their keys. -/
def RowsLead (v : View) : Prop :=
  ∀ key record, v.table key = some record → ∃ e, v.EntryOf record e ∧ e.key = key

section

variable {v : View} {id : Nat}

section

variable (h : v.Rows)

include h

theorem Rows.exists_entry {key : Key} {record : IndexRecord} (hrecord : v.table key = some record) :
    ∃ e, v.EntryOf record e ∧ e.key = key ∧ record.isTombstone = e.isTombstone := by
  obtain ⟨hmem, rfl⟩ := h key record hrecord
  obtain ⟨e, offset, hat, heq⟩ := mem_recordsIn.mp (mem_records.mp hmem).2
  have hne : v.layout record.segmentId ≠ none := by
    intro hnone
    rw [entriesAt, hnone] at hat
    cases hat
  obtain ⟨es, hes⟩ := ne_none_iff_exists'.mp hne
  rw [entriesAt, hes] at hat
  rw [heq]
  exact ⟨e, ⟨es, hes, hat⟩, rfl, rfl⟩

theorem Rows.rowsLead : v.RowsLead := by
  intro key record hrecord
  obtain ⟨e, he, hkey, -⟩ := h.exists_entry hrecord
  exact ⟨e, he, hkey⟩

theorem Rows.roll (ho : v.Open) : v.roll.Rows := by
  intro key record hrecord
  rw [records_roll ho]
  exact h key record hrecord

theorem Rows.appendAll (ho : v.Open) (es : List Entry) : (v.appendAll es).Rows := by
  intro key record hrecord
  rw [table_appendAll] at hrecord
  obtain ⟨hmem, hkey⟩ := h key record hrecord
  rw [records_appendAll ho]
  exact ⟨List.mem_append_left _ hmem, hkey⟩

theorem Rows.insertAll {rs : List IndexRecord} (hrs : ∀ r ∈ rs, r ∈ v.records) :
    (v.insertAll rs).Rows := by
  intro key record hrecord
  change setAll v.table (updates rs) key = some record at hrecord
  rw [setAll_apply] at hrecord
  cases hlast : lastFor key (updates rs) with
  | none =>
    rw [hlast] at hrecord
    exact h key record hrecord
  | some slot =>
    rw [hlast] at hrecord
    obtain ⟨r, hr, heq⟩ := List.mem_map.mp (mem_of_lastFor hlast)
    cases heq
    cases hrecord
    exact ⟨hrs record hr, rfl⟩

theorem Rows.markAll (ends : List (Nat × Nat)) : (v.markAll ends).Rows := by
  rw [markAll_eq]
  exact h

theorem Rows.write (ho : v.Open) (es : List Entry) (ends : List (Nat × Nat)) :
    (v.write es ends).Rows := by
  refine ((h.appendAll ho es).insertAll fun r hr => ?_).markAll ends
  rw [records_appendAll ho]
  exact List.mem_append_right _ hr

theorem Rows.opened : v.opened.Rows := by
  have hinserted : (v.insertAll v.pending).Rows := h.insertAll fun r hr =>
    v.pending_sublist.subset hr
  have hrecords : v.opened.records = v.records := by
    have hin : v.opened.recordsIn = v.recordsIn :=
      funext fun id => by rw [recordsIn, entriesAt_opened, recordsIn]
    rw [records, hin]
    rfl
  intro key record hrecord
  rw [hrecords]
  exact hinserted key record hrecord

end

theorem table_compacted_cases (v : View) (id : Nat) (key : Key) :
    (∃ e offset, (e, offset) ∈ offsetsFrom 0 (v.kept id) ∧ e.key = key ∧
        (v.compacted id).table key = some (IndexRecord.ofEntry id (e, offset))) ∨
      ((∀ e ∈ v.kept id, e.key ≠ key) ∧ (v.compacted id).table key = v.table key) :=
  setAll_recordsOf_cases v.table id (v.kept id) key

theorem mem_records_compacted {record : IndexRecord} (h : record ∈ v.records)
    (hne : record.segmentId ≠ id) : record ∈ (v.compacted id).records := by
  obtain ⟨hle, hmem⟩ := mem_records.mp h
  refine mem_records.mpr ⟨hle, ?_⟩
  have hsame : (v.compacted id).entriesAt record.segmentId = v.entriesAt record.segmentId :=
    entriesAt_of_layout_ne (layout_committed_ne (v := v) (v.kept id)) hne
  rwa [recordsIn, hsame]

theorem Rows.compacted (h : v.Rows) (hv : v.Coherent) (hid : id ≤ v.active)
    (hlayout : v.layout id ≠ none)
    (hlive : ∀ key record, v.table key = some record → record.segmentId = id →
      record.isTombstone = false ∧ dataBytes (v.kept id) ≠ 0) : (v.compacted id).Rows := by
  intro key record hrecord
  rcases v.table_compacted_cases id key with ⟨e, offset, hat, hkey, htable⟩ | ⟨hgone, htable⟩
  · rw [htable] at hrecord
    cases hrecord
    obtain ⟨old, hget, hold⟩ := liveIn_of_mem_kept (mem_of_mem_offsetsFrom hat)
    have hdata := (hlive _ old (get_eq_some_iff.mp hget).1 hold).2
    have hself : (v.compacted id).entriesAt id = v.kept id := by
      rw [entriesAt, View.compacted, layout_committed_self, if_neg hdata]
      rfl
    refine ⟨mem_records.mpr ⟨hid, mem_recordsIn.mpr ⟨e, offset, ?_, rfl⟩⟩, hkey⟩
    exact hself.symm ▸ hat
  · rw [htable] at hrecord
    obtain ⟨hmem, hkey⟩ := h key record hrecord
    refine ⟨mem_records_compacted hmem fun hsame => ?_, hkey⟩
    have hget : v.index.get key = some record :=
      get_eq_some_iff.mpr ⟨hrecord, (hlive key record hrecord hsame).1⟩
    obtain ⟨e, he, hekey, -⟩ := hv.sound.kept_of_get hget (hsame ▸ hlayout)
    exact hgone e (hsame ▸ he) hekey

/-- After a compaction no row is left of a tombstone of the segment, so such a row
leads nowhere; and none of the rows leads anywhere once the file is gone. -/
theorem RowsLead.of_compacted (h : (v.compacted id).RowsLead) {key : Key} {record : IndexRecord}
    (hrecord : v.table key = some record) (hsame : record.segmentId = id) :
    record.isTombstone = false ∧ dataBytes (v.kept id) ≠ 0 := by
  have hfile : ∀ {key' record'}, (v.compacted id).table key' = some record' →
      record'.segmentId = id → ∃ e ∈ v.kept id, e.key = key' ∧ dataBytes (v.kept id) ≠ 0 := by
    intro key' record' htable hrow
    obtain ⟨e, ⟨es, hes, hat⟩, hkey⟩ := h key' record' htable
    rw [hrow, View.compacted, layout_committed_self] at hes
    split at hes
    · cases hes
    · rename_i hdata
      cases hes
      exact ⟨e, mem_of_mem_offsetsFrom hat, hkey, hdata⟩
  rcases v.table_compacted_cases id key with ⟨e, offset, hat, rfl, htable⟩ | ⟨hgone, htable⟩
  · obtain ⟨-, -, -, hdata⟩ := hfile htable rfl
    obtain ⟨old, hget, -⟩ := liveIn_of_mem_kept (mem_of_mem_offsetsFrom hat)
    obtain ⟨hold, hlive⟩ := get_eq_some_iff.mp hget
    change v.table e.key = some old at hold
    rw [hrecord] at hold
    cases hold
    exact ⟨hlive, hdata⟩
  · obtain ⟨e, he, hkey, -⟩ := hfile (htable.trans hrecord) hsame
    exact absurd hkey (hgone e he)

end

end View

section

variable {X : Extern} {v : View} {s : Engine} {d : Disk} {config : Config}

theorem OnDisk.rowsLead_iff (h : OnDisk X v d) : d.RowsLead X ↔ v.RowsLead := by
  simp only [Disk.RowsLead, View.RowsLead, h.table]
  refine forall_congr' fun key => forall_congr' fun record => imp_congr_right fun _ => ?_
  constructor
  · rintro ⟨file, e, hfile, hat, hkey⟩
    rw [h.read] at hfile
    obtain ⟨es, hes, rfl⟩ := map_eq_some_iff.mp hfile
    rw [h.scanEntries hes] at hat
    exact ⟨e, ⟨es, hes, hat⟩, hkey⟩
  · rintro ⟨e, ⟨es, hes, hat⟩, hkey⟩
    refine ⟨encodeAll X es, e, by rw [h.read, hes]; rfl, ?_, hkey⟩
    rw [h.scanEntries hes]
    exact hat

theorem InMemory.sweepable_iff (h : InMemory X v s) (hv : v.Coherent) {id : Nat}
    (ht : Blob.gcTarget config s = some id) :
    s.Sweepable config ↔ ∀ key record, v.table key = some record → record.segmentId = id →
      record.isTombstone = false ∧ dataBytes (v.kept id) ≠ 0 := by
  obtain ⟨-, hlayout, -⟩ := h.gcTarget ht
  have hdata : dataBytes (v.kept id) ≠ 0 ↔
      ∃ live, s.disk.index.Live id live ∧ live.dataSize ≠ 0 := by
    rw [Ne, hv.dataBytes_kept_eq_zero_iff hlayout, h.index_eq]
    push Not
    rfl
  rw [hdata, ← h.table]
  constructor
  · exact fun hs key record hrecord hid => hs id ht key record hrecord hid
  · intro hs id' ht' key record hrecord hid
    rw [ht] at ht'
    cases ht'
    exact hs key record hrecord hid

/-- A store whose rows are in order. -/
def Status.Swept (X : Extern) : Status → Prop
  | running s => ∃ v, InMemory X v s ∧ v.Coherent ∧ v.Rows
  | stopped d => ∃ v, OnDisk X v d ∧ v.Mends ∧ v.Rows

theorem Op.rows_after (op : Op) (config : Config) (hv : v.Coherent) (h : v.Rows) :
    (op.after X config v).Rows := by
  unfold Op.after
  split
  · exact op.view_induction X config v (h.roll hv.isOpen) h (h.write hv.isOpen _ _)
  · exact h.appendAll hv.isOpen _

theorem gc_rowsLead_iff (h : InMemory X v s) (hv : v.Coherent) (hrows : v.Rows) (timestamp : Nat) :
    ((Action.gc timestamp).run X config s).state.disk.RowsLead X ↔ s.Sweepable config := by
  rcases h.gc_after hv config timestamp with ⟨ht, heq, -⟩ | ⟨id, ht, hid, hlayout, hmem, -⟩
  · rw [heq]
    refine ⟨fun _ id hid => ?_, fun _ => h.rowsLead_iff.mpr hrows.rowsLead⟩
    rw [ht] at hid
    cases hid
  · rw [h.sweepable_iff hv ht]
    refine hmem.rowsLead_iff.trans ⟨fun hlead key record => hlead.of_compacted, fun hlive => ?_⟩
    exact (hrows.compacted hv hid.le hlayout hlive).rowsLead

theorem gc_swept (h : InMemory X v s) (hv : v.Coherent) (hrows : v.Rows)
    (hsweep : s.Sweepable config) (timestamp : Nat) :
    (Status.running ((Action.gc timestamp).run X config s).state).Swept X := by
  rcases h.gc_after hv config timestamp with ⟨-, heq, -⟩ | ⟨id, ht, hid, hlayout, hmem, -⟩
  · rw [heq]
    exact ⟨v, h, hv, hrows⟩
  · have hlive := (h.sweepable_iff hv ht).mp hsweep
    exact ⟨_, hmem, hv.compacted hid hlayout, hrows.compacted hv hid.le hlayout hlive⟩

theorem Status.Swept.next {st st' : Status} {step : Step} (h : st.Swept X)
    (hguard : Sweeping X config st step) (hnext : st.next X config step = some st') :
    st'.Swept X := by
  cases st with
  | running s =>
    obtain ⟨v, hmem, hv, hrows⟩ := h
    cases step with
    | act action =>
      cases hnext
      cases action with
      | op operation =>
        exact ⟨_, operation.inMemory_after config hmem, operation.coherent_after config hv,
          operation.rows_after config hv hrows⟩
      | gc timestamp => exact gc_swept hmem hv hrows hguard timestamp
    | close =>
      cases hnext
      exact ⟨v, hmem.toOnDisk, hv.mends, hrows⟩
    | _ => exact hguard.elim
  | stopped d =>
    obtain ⟨v, hd, hm, hrows⟩ := h
    cases step with
    | openStore =>
      rcases hd.next_openStore (hd.aligned hguard) hnext with rfl | ⟨-, s, rfl, hmem⟩
      · exact ⟨v, hd, hm, hrows⟩
      · exact ⟨_, hmem, hm.opened hd.validView hd.layout_above, hrows.opened⟩
    | _ => exact hguard.elim

theorem along_sweeping_ops (X : Extern) (config : Config) (s : Engine) (ops : List Op) :
    Along (Status.next X config) (Sweeping X config) (.running s)
      (ops.map fun op => .act (.op op)) := by
  induction ops generalizing s with
  | nil => trivial
  | cons op ops ih =>
    refine ⟨trivial, fun st' hst => ?_⟩
    cases hst
    exact ih _

theorem swept_empty (X : Extern) : (Status.stopped Disk.empty).Swept X :=
  ⟨View.empty, onDisk_empty X, View.mends_empty, fun _ _ h => by cases h⟩

theorem swept_of_sweeping {steps : List Step}
    (hrun : Along (Status.next X config) (Sweeping X config) (.stopped Disk.empty) steps)
    (hs : runFrom (Status.next X config) (.stopped Disk.empty) steps = some (.running s)) :
    ∃ v, InMemory X v s ∧ v.Coherent ∧ v.Rows :=
  hrun.invariant (I := Status.Swept X) (fun h hguard hnext => h.next hguard hnext)
    (swept_empty X) hs

end

/-- Along a history whose compactions find no tombstone row and no segment that is left
without data, every index row leads to an entry of its key. In the states of such a
history the next compaction keeps it that way exactly under the condition. -/
theorem rows_lead_of_sweeping {X : Extern} {config : Config} {steps : List Step} {s : Engine}
    (hrun : Along (Status.next X config) (Sweeping X config) (.stopped Disk.empty) steps)
    (hs : runFrom (Status.next X config) (.stopped Disk.empty) steps = some (.running s)) :
    s.disk.RowsLead X ∧ ∀ timestamp,
      (((Action.gc timestamp).run X config s).state.disk.RowsLead X ↔ s.Sweepable config) := by
  obtain ⟨v, hmem, hv, hrows⟩ := swept_of_sweeping hrun hs
  exact ⟨hmem.rowsLead_iff.mpr hrows.rowsLead, gc_rowsLead_iff hmem hv hrows⟩

/-- The value is deleted after its segment was sealed, so the tombstone stands in the
next one. -/
def laterDeleteActions : List Action :=
  [.op (.put (Key.fill 1) [1] .none),
   .op (.put (Key.fill 2) [2] .none),
   .op .sealActiveSegment,
   .op (.delete (Key.fill 1))]

theorem rows_lead_later_delete :
    ∃ s, runFrom (Status.next reference quarterConfig) (.stopped Disk.empty)
        (freshSteps (laterDeleteActions ++ [.gc 7])) = some (.running s) ∧
      s.disk.fs.read? (.seg 1) = some (encodeAll reference [⟨0, .none, Key.fill 2, 1, [2]⟩]) ∧
      s.disk.RowsLead reference := by
  obtain ⟨s, hs, htarget, ⟨r, hr, hrseg, hsize⟩, hlive, hfile⟩ :
      ∃ s ∈ engineAfter reference quarterConfig (freshSteps laterDeleteActions),
        gcTarget quarterConfig s = some 1 ∧
        (∃ r ∈ s.disk.index.get (Key.fill 2), r.segmentId = 1 ∧ r.dataSize = 1) ∧
        (∀ p ∈ (scanEntries reference 1 ((s.disk.fs.read? (.seg 1)).getD []) 0).visited,
          p.1.isTombstone = false) ∧
        ((Action.gc 7).run reference quarterConfig s).state.disk.fs.read? (.seg 1) =
          some (encodeAll reference [⟨0, .none, Key.fill 2, 1, [2]⟩]) := by
    decide +kernel
  have hbefore := runFrom_of_engineAfter hs
  have halign : Disk.empty.Aligned reference := fun id file hread => by cases hread
  have hops : Along (Status.next reference quarterConfig) (Sweeping reference quarterConfig)
      (.stopped Disk.empty) (freshSteps laterDeleteActions) := by
    refine ⟨halign, fun st hst => ?_⟩
    cases st with
    | running s₀ => exact along_sweeping_ops _ _ s₀ [_, _, _, _]
    | stopped d =>
      rw [freshSteps, runFrom, hst] at hbefore
      cases hbefore
  have hsweep : s.Sweepable quarterConfig := by
    intro id hid key record hrow hseg
    rw [htarget] at hid
    cases hid
    refine ⟨?_, r, ⟨_, hr, hrseg⟩, by rw [hsize]; decide⟩
    obtain ⟨v, hmem, hv, hrows⟩ := swept_of_sweeping hops hbefore
    rw [hmem.table] at hrow
    obtain ⟨e, ⟨es, hes, hat⟩, -, htomb⟩ := hrows.exists_entry hrow
    rw [hseg] at hes
    rw [hmem.read, hes, map_some, getD_some, hmem.scanEntries hes] at hlive
    rw [htomb]
    exact hlive _ hat
  have hafter : runFrom (Status.next reference quarterConfig) (.stopped Disk.empty)
      (freshSteps (laterDeleteActions ++ [.gc 7])) =
        some (.running ((Action.gc 7).run reference quarterConfig s).state) :=
    runFrom_concat hbefore
  obtain ⟨hlead, -⟩ := rows_lead_of_sweeping (by exact hops.concat hbefore hsweep) hafter
  exact ⟨_, hafter, hfile, hlead⟩

/-- The deleted value and its tombstone are compacted away, and the row of the tombstone
stays with the offset it had in the old file. -/
theorem gc_leaves_tombstone_row :
    ∃ s, runFrom (Status.next reference quarterConfig) (.stopped Disk.empty)
        (freshSteps (keepingActions ++ [.gc 7])) = some (.running s) ∧
      ((s.disk.index.table (Key.fill 1)).map fun r => (r.segmentId, r.offset, r.isTombstone)) =
        some (1, 102, true) ∧
      (s.disk.fs.read? (.seg 1)).map List.length = some 51 ∧ ¬ s.disk.RowsLead reference := by
  obtain ⟨s, hs, hrow, hlength, hoffsets⟩ :
      ∃ s ∈ engineAfter reference quarterConfig (freshSteps (keepingActions ++ [.gc 7])),
        ((s.disk.index.table (Key.fill 1)).map fun r => (r.segmentId, r.offset, r.isTombstone)) =
          some (1, 102, true) ∧
        (s.disk.fs.read? (.seg 1)).map List.length = some 51 ∧
        ∀ p ∈ (scanEntries reference 1 ((s.disk.fs.read? (.seg 1)).getD []) 0).visited,
          p.2 ≠ 102 := by
    decide +kernel
  refine ⟨s, runFrom_of_engineAfter hs, hrow, hlength, fun hlead => ?_⟩
  obtain ⟨record, hrecord, hfields⟩ := map_eq_some_iff.mp hrow
  simp only [Prod.mk.injEq] at hfields
  obtain ⟨hid, hoffset, -⟩ := hfields
  obtain ⟨file, e, hfile, hat, -⟩ := hlead _ record hrecord
  rw [hid] at hfile hat
  rw [hfile] at hoffsets
  exact hoffsets _ hat hoffset

end Bichon.Blob
