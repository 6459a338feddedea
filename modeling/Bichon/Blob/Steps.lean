import Bichon.Blob.View

/-!
# The steps of the engine as changes of the view

One lemma for every durable step of the engine, and from them the effect of
appending an entry. The crash condition of each lemma says what the directory
holds on the way.
-/

namespace Bichon.Blob

open ByteFile LastWrite Durable FileSystem Option View Runs

section

variable {X : Extern} {v : View} {s : Engine}

/-! ## Statistics -/

variable {f : SegmentStats → SegmentStats}

theorem GlobalMeta.indexedUpTo_modify (m : GlobalMeta) (id : Nat)
    (hf : ∀ st, (f st).indexedUpToOffset = st.indexedUpToOffset) (id' : Nat) :
    (m.modify id f).indexedUpTo id' = m.indexedUpTo id' := by
  unfold GlobalMeta.indexedUpTo
  rw [GlobalMeta.getElem?_modify]
  by_cases h : id = id'
  · rw [if_pos h, map_map]
    cases m.segments[id']? with
    | none => rfl
    | some st => exact hf st
  · rw [if_neg h]

theorem GlobalMeta.indexedUpTo_upsert (m : GlobalMeta) (id : Nat)
    (hf : ∀ st, (f st).indexedUpToOffset = st.indexedUpToOffset) (id' : Nat) :
    (m.upsert id f).indexedUpTo id' = m.indexedUpTo id' := by
  unfold GlobalMeta.indexedUpTo
  rw [GlobalMeta.getElem?_upsert]
  by_cases h : id = id'
  · subst h
    rw [if_pos rfl, map_some, getD_some, hf]
    cases m.segments[id]? <;> rfl
  · rw [if_neg h]

/-- The statistics keep the id of the segment, whether it is sealed and what is indexed. -/
def KeepsMark (f : SegmentStats → SegmentStats) : Prop :=
  ∀ st, (f st).segmentId = st.segmentId ∧ (f st).sealed = st.sealed ∧
    (f st).indexedUpToOffset = st.indexedUpToOffset

theorem keepsMark_accountEntry (X : Extern) (entry : Entry) (flags : UInt8) :
    KeepsMark (Engine.accountEntry X entry flags) := by
  intro st
  unfold Engine.accountEntry
  split <;> simp

theorem InMemory.modifyStats (h : InMemory X v s) (id : Nat) (hf : KeepsMark f) :
    InMemory X v { s with globalMeta := s.globalMeta.modify id f } :=
  { h with
    memMarks := fun id' => by
      rw [GlobalMeta.indexedUpTo_modify _ _ fun st => (hf st).2.2, h.memMarks]
    memStats := by
      intro id' st hst
      rw [GlobalMeta.getElem?_modify] at hst
      by_cases hne : id = id'
      · rw [if_pos hne] at hst
        obtain ⟨st', hst', rfl⟩ := map_eq_some_iff.mp hst
        rw [(hf st').1, (hf st').2.1]
        exact h.memStats hst'
      · rw [if_neg hne] at hst
        exact h.memStats hst
    tracked := by
      intro id' es hes hne
      have := h.tracked hes hne
      rw [GlobalMeta.getElem?_modify]
      split
      · simpa using this
      · exact this }

/-! ## Saving -/

theorem InMemory.saved (h : InMemory X v s) :
    InMemory X v { s with disk := { s.disk with metaBin := some s.globalMeta } } :=
  { h with
    marks := h.memMarks
    metaTop := le_of_eq h.activeId
    stats := fun hst => ⟨(h.memStats hst).1, (h.memStats hst).2.1⟩
    fresh := fun hnone => absurd hnone h.layout_active }

theorem runs_save (h : InMemory X v s) :
    Runs Engine.save s (fun _ t => InMemory X v t) (fun t => OnDisk X v t.disk) :=
  durable h.saved h.saved.toOnDisk

/-! ## The index -/

theorem InMemory.inserted (h : InMemory X v s) (records : List IndexRecord) :
    InMemory X (v.insertAll records)
      { s with disk := { s.disk with index := s.disk.index.insertBatch records } } :=
  { h with
    table := by rw [IndexStore.table_insertBatch, h.table]; rfl
    readable := by rw [IndexStore.readable_insertBatch, h.readable] }

theorem runs_insertRecord (h : InMemory X v s) (record : IndexRecord) :
    Runs (Engine.insertRecord record) s (fun _ t => InMemory X (v.insertAll [record]) t)
      (fun t => OnDisk X (v.insertAll [record]) t.disk) :=
  durable (h.inserted [record]) (h.inserted [record]).toOnDisk

theorem runs_insertBatch (h : InMemory X v s) (records : List IndexRecord) :
    Runs (Engine.insertBatch records) s (fun _ t => InMemory X (v.insertAll records) t)
      (fun t => OnDisk X (v.insertAll records) t.disk) := by
  cases records with
  | nil => exact pure h
  | cons record records =>
    exact durable (h.inserted (record :: records)) (h.inserted (record :: records)).toOnDisk

/-! ## Marking -/

variable {id : Nat}

/-- The statistics of one segment are replaced or dropped and the metadata is saved. -/
theorem InMemory.rerecorded (h : InMemory X v s) {m : GlobalMeta}
    (hactive : m.activeSegmentId = v.active)
    (hother : ∀ {id' : Nat}, id' ≠ id → m.segments[id']? = s.globalMeta.segments[id']?)
    (hself : ∀ {st}, m.segments[id]? = some st →
      st.segmentId = id ∧ id ≤ v.active ∧ (st.sealed = true → id ≠ v.active)) :
    OnDisk X { v with marks := Function.update v.marks id (m.indexedUpTo id) }
        { s.disk with metaBin := some m } ∧
      ((∀ {es}, v.layout id = some es → es ≠ [] → m.segments[id]? ≠ none) →
        InMemory X { v with marks := Function.update v.marks id (m.indexedUpTo id) }
          { s with globalMeta := m, disk := { s.disk with metaBin := some m } }) := by
  have hmarks : ∀ id', m.indexedUpTo id' = Function.update v.marks id (m.indexedUpTo id) id' := by
    intro id'
    by_cases hne : id' = id
    · rw [hne, Function.update_self]
    · rw [Function.update_of_ne hne, ← h.memMarks id', GlobalMeta.indexedUpTo,
        GlobalMeta.indexedUpTo, hother hne]
  have hstats : ∀ {id' : Nat} {st : SegmentStats}, m.segments[id']? = some st →
      st.segmentId = id' ∧ id' ≤ v.active ∧ (st.sealed = true → id' ≠ v.active) := by
    intro id' st hst
    by_cases hne : id' = id
    · subst hne
      exact hself hst
    · rw [hother hne] at hst
      exact h.memStats hst
  have hdisk : OnDisk X { v with marks := Function.update v.marks id (m.indexedUpTo id) }
      { s.disk with metaBin := some m } :=
    { h.toOnDisk with
      marks := hmarks
      metaTop := hactive.le
      stats := fun hst => ⟨(hstats hst).1, (hstats hst).2.1⟩
      fresh := fun hnone => absurd hnone h.layout_active }
  refine ⟨hdisk, fun htracked => ?_⟩
  exact
    { h with
      toOnDisk := hdisk
      activeId := hactive
      memMarks := hmarks
      memStats := hstats
      tracked := by
        intro id' es hes hnil
        by_cases hne : id' = id
        · subst hne
          exact htracked hes hnil
        · rw [hother hne]
          exact h.tracked hes hnil }

variable {es : List Entry}

theorem InMemory.marked (h : InMemory X v s) {offset : Nat} (hes : v.layout id = some es)
    (hne : es ≠ []) {m : GlobalMeta}
    (hm : m = s.globalMeta.modify id fun stats =>
      if stats.indexedUpToOffset < offset then { stats with indexedUpToOffset := offset }
      else stats) :
    InMemory X (v.mark id offset)
      { s with disk := { s.disk with metaBin := some m }, globalMeta := m } := by
  obtain ⟨st, hst⟩ := ne_none_iff_exists'.mp (h.tracked hes hne)
  have hself : m.segments[id]? = some (if st.indexedUpToOffset < offset then
      { st with indexedUpToOffset := offset } else st) := by
    rw [hm, GlobalMeta.getElem?_modify, if_pos rfl, hst]
    rfl
  have hmark : m.indexedUpTo id = max (v.marks id) offset := by
    rw [← h.memMarks id, GlobalMeta.indexedUpTo, GlobalMeta.indexedUpTo, hself, hst]
    simp only [map_some, getD_some]
    split
    · dsimp only
      omega
    · omega
  rw [mark, ← hmark]
  refine (h.rerecorded ?_ (fun hne => ?_) fun hst' => ?_).2 fun _ _ => ?_
  · rw [hm]
    exact h.activeId
  · rw [hm, GlobalMeta.getElem?_modify, if_neg (Ne.symm hne)]
  · rw [hself] at hst'
    cases hst'
    have hold := h.memStats hst
    split <;> exact hold
  · rw [hself]
    exact some_ne_none _

theorem runs_markIndexed (h : InMemory X v s) (offset : Nat)
    (hes : v.layout id = some es) (hne : es ≠ []) :
    Runs (Engine.markIndexed id offset) s (fun _ t => InMemory X (v.mark id offset) t)
      (fun t => OnDisk X (v.mark id offset) t.disk) := by
  have hmarked : InMemory X (v.mark id offset) _ := h.marked hes hne rfl
  exact bind (modify (durable hmarked hmarked.toOnDisk))

/-! ## Appending -/

variable {e : Entry}

theorem View.layout_push_ne (e : Entry) (h : id ≠ v.active) :
    (v.push e).layout id = v.layout id := by
  simp [push, h]

theorem InMemory.activeSize_eq (h : InMemory X v s) :
    v.activeSize = s.activeWriter.bytesWritten := by
  obtain ⟨es, hes, hdata⟩ := h.activeEntries
  rw [h.writerBytes, hdata, length_encodeAll, activeSize, hes, getD_some]

/-- One segment gets another file, or loses it. -/
theorem OnDisk.relayout {d : Disk} (h : OnDisk X v d) {file : Option (List Entry)} {active : Nat}
    (hactive : v.active ≤ active)
    (hfile : ∀ es, file = some es → id ≤ active ∧ ∀ e ∈ es, e.Valid)
    (hfresh : (id = active ∧ file ≠ none) ∨ (id < active ∧ active = v.active))
    {fs : FileSystem FileName} (hread : ∀ id', fs.read? (.seg id') =
      if id' = id then file.map (encodeAll X) else d.fs.read? (.seg id')) :
    OnDisk X { v with layout := Function.update v.layout id file, active := active }
      { d with fs := fs } := by
  have hlayout : ∀ {id' es}, Function.update v.layout id file id' = some es →
      (id' = id ∧ file = some es) ∨ v.layout id' = some es := by
    intro id' es hes
    by_cases hne : id' = id
    · rw [hne, Function.update_self] at hes
      exact .inl ⟨hne, hes⟩
    · rw [Function.update_of_ne hne] at hes
      exact .inr hes
  exact
    { valid := by
        intro id' es hes
        rcases hlayout hes with ⟨-, hsome⟩ | hes
        · exact (hfile es hsome).2
        · exact h.valid hes
      table := h.table
      readable := h.readable
      marks := h.marks
      pos := h.pos.trans hactive
      top := by
        intro id' es hes
        rcases hlayout hes with ⟨rfl, hsome⟩ | hes
        · exact (hfile es hsome).1
        · exact (h.top hes).trans hactive
      metaTop := h.metaTop.trans hactive
      stats := fun hst => ⟨(h.stats hst).1, (h.stats hst).2.trans hactive⟩
      fresh := by
        intro hnone
        dsimp only at hnone
        rcases hfresh with ⟨rfl, hsome⟩ | ⟨hlt, rfl⟩
        · rw [Function.update_self] at hnone
          exact absurd hnone hsome
        · rw [Function.update_of_ne (Nat.ne_of_gt hlt)] at hnone
          exact h.fresh hnone
      read := by
        intro id'
        dsimp only
        rw [hread]
        by_cases hne : id' = id
        · rw [if_pos hne, hne, Function.update_self]
        · rw [if_neg hne, Function.update_of_ne hne]
          exact h.read id' }

theorem InMemory.onDisk_push (h : InMemory X v s) (hv : e.Valid) : OnDisk X (v.push e) { s.disk with
      fs := s.disk.fs.write s.activeWriter.file
        (s.disk.fs.data s.activeWriter.file ++ e.encode X) } := by
  obtain ⟨es, hes, hdata⟩ := h.activeEntries
  rw [push, hes, map_some]
  refine h.toOnDisk.relayout le_rfl ?_ (.inl ⟨rfl, some_ne_none _⟩) fun id => ?_
  · rintro _ ⟨⟩
    exact ⟨le_rfl, List.forall_mem_append.mpr ⟨h.valid hes, List.forall_mem_singleton.mpr hv⟩⟩
  · split
    next hid =>
      rw [hid, read?_write_self h.writerFile, hdata, map_some, encodeAll_append]
      simp [encodeAll_cons]
    next hid => exact read?_write_ne h.writerFile _ (by simpa using hid)

theorem InMemory.pushed (h : InMemory X v s) (hv : e.Valid) (hf : KeepsMark f) :
    InMemory X (v.push e)
      { s with
        disk := { s.disk with
          fs := s.disk.fs.write s.activeWriter.file
            (s.disk.fs.data s.activeWriter.file ++ e.encode X) }
        activeWriter :=
          { s.activeWriter with
            pos := (s.disk.fs.data s.activeWriter.file ++ e.encode X).length
            bytesWritten := s.activeWriter.bytesWritten + e.diskSize }
        globalMeta := s.globalMeta.upsert v.active f } :=
  { h with
    toOnDisk := h.onDisk_push hv
    writerPos := by rw [data_write_self]
    writerBytes := by simp [h.writerBytes]
    memMarks := fun id => by
      rw [GlobalMeta.indexedUpTo_upsert _ _ fun st => (hf st).2.2]
      exact h.memMarks id
    memStats := by
      intro id st hst
      rw [GlobalMeta.getElem?_upsert] at hst
      by_cases hne : v.active = id
      · rw [if_pos hne] at hst
        subst hne
        cases hst
        rw [(hf _).1, (hf _).2.1]
        cases hold : s.globalMeta.segments[v.active]? with
        | none => exact ⟨rfl, le_refl _, fun hsealed => by simp [SegmentStats.new] at hsealed⟩
        | some st => exact h.memStats hold
      · rw [if_neg hne] at hst
        exact h.memStats hst
    tracked := by
      intro id es hes hne
      rw [GlobalMeta.getElem?_upsert]
      by_cases hid : v.active = id
      · simp [hid]
      · rw [if_neg hid]
        rw [layout_push_ne e (Ne.symm hid)] at hes
        exact h.tracked hes hne }

/-! ## Starting the next segment -/

theorem View.layout_roll_ne (h : id ≠ v.active + 1) : v.roll.layout id = v.layout id := by
  simp [roll, h]

theorem View.layout_roll_active : v.roll.layout (v.active + 1) = some [] := by
  simp [roll]

theorem OnDisk.layout_above {d : Disk} (h : OnDisk X v d) (hid : v.active < id) :
    v.layout id = none := by
  cases hes : v.layout id with
  | none => rfl
  | some es => exact absurd (h.top hes) (by omega)

theorem OnDisk.roll {d : Disk} (h : OnDisk X v d) :
    OnDisk X v.roll { d with fs := d.fs.create (.seg (v.active + 1)) } := by
  refine h.relayout (Nat.le_succ _) ?_ (.inl ⟨rfl, some_ne_none _⟩) fun id => ?_
  · rintro _ ⟨⟩
    exact ⟨le_rfl, List.forall_mem_nil _⟩
  · split
    next hid =>
      rw [hid, read?_create_self]
      rfl
    next hid => exact read?_create_ne _ (by simpa using hid)

/-- The metadata once the active segment is sealed and the next one announced. -/
def GlobalMeta.sealActive (oldId : Nat) (hash : Key) (m : GlobalMeta) : GlobalMeta :=
  { (m.upsert oldId fun stats => { stats with sealed := true }).modify oldId
      fun stats => { stats with sha256 := some hash } with
    activeSegmentId := oldId + 1 }

theorem GlobalMeta.getElem?_sealActive (m : GlobalMeta) (oldId : Nat) (hash : Key) (id : Nat) :
    (m.sealActive oldId hash).segments[id]? =
      if oldId = id then
        some { (m.segments[oldId]?).getD (.new oldId) with sealed := true, sha256 := some hash }
      else
        m.segments[id]? := by
  simp only [GlobalMeta.sealActive, GlobalMeta.getElem?_modify, GlobalMeta.getElem?_upsert]
  by_cases h : oldId = id
  · simp only [if_pos h, map_some]
  · simp only [if_neg h]

theorem GlobalMeta.indexedUpTo_sealActive (m : GlobalMeta) (oldId : Nat) (hash : Key)
    (id : Nat) : (m.sealActive oldId hash).indexedUpTo id = m.indexedUpTo id := by
  rw [GlobalMeta.indexedUpTo, GlobalMeta.getElem?_sealActive, GlobalMeta.indexedUpTo]
  by_cases h : oldId = id
  · subst h
    rw [if_pos rfl]
    cases m.segments[oldId]? <;> rfl
  · rw [if_neg h]

theorem InMemory.rolled (h : InMemory X v s) (hash : Key) :
    InMemory X v.roll
      { s with
        disk := { s.disk with
          fs := s.disk.fs.create (.seg (v.active + 1))
          metaBin := some (s.globalMeta.sealActive v.active hash) }
        globalMeta := s.globalMeta.sealActive v.active hash
        activeWriter :=
          { file := ((s.disk.fs.create (.seg (v.active + 1))).inode? (.seg (v.active + 1))).getD 0
            pos := 0
            id := v.active + 1
            bytesWritten := 0 } } := by
  have hroll := h.toOnDisk.roll
  have hmarks : ∀ id, (s.globalMeta.sealActive v.active hash).indexedUpTo id = v.marks id := by
    intro id
    rw [GlobalMeta.indexedUpTo_sealActive, h.memMarks]
  have hstats : ∀ {id st}, (s.globalMeta.sealActive v.active hash).segments[id]? = some st →
      st.segmentId = id ∧ id ≤ v.active := by
    intro id st hst
    rw [GlobalMeta.getElem?_sealActive] at hst
    by_cases hid : v.active = id
    · rw [if_pos hid] at hst
      subst hid
      cases hst
      cases hold : s.globalMeta.segments[v.active]? with
      | none => exact ⟨rfl, le_refl _⟩
      | some st => exact ⟨(h.memStats hold).1, le_refl _⟩
    · rw [if_neg hid] at hst
      exact ⟨(h.memStats hst).1, (h.memStats hst).2.1⟩
  have hnone : s.disk.fs.inode? (.seg (v.active + 1)) = none := by
    rw [← read?_eq_none_iff, h.read, h.layout_above (Nat.lt_succ_self _)]
    rfl
  have hinode : ∀ n, (s.disk.fs.create (.seg (v.active + 1))).inode? n =
      if n = .seg (v.active + 1) then some s.disk.fs.next else s.disk.fs.inode? n :=
    inode?_create_of_none hnone
  have hfile : (s.disk.fs.create (.seg (v.active + 1))).inode? (.seg (v.active + 1)) =
      some s.disk.fs.next := by
    rw [hinode, if_pos rfl]
  have hdata : (s.disk.fs.create (.seg (v.active + 1))).data s.disk.fs.next = [] := by
    rw [data_create_of_none hnone, if_pos rfl]
  exact
    { hroll with
      marks := hmarks
      metaTop := le_refl _
      stats := fun hst => ⟨(hstats hst).1, Nat.le_succ_of_le (hstats hst).2⟩
      fresh := fun hnone => by simp [roll] at hnone
      writerId := rfl
      writerFile := by rw [hfile, getD_some]; exact hfile
      writerPos := by rw [hfile, getD_some, hdata]; rfl
      writerBytes := by rw [hfile, getD_some, hdata]; rfl
      activeId := rfl
      memMarks := hmarks
      memStats := by
        intro id st hst
        have := hstats hst
        exact ⟨this.1, Nat.le_succ_of_le this.2, fun _ => Nat.ne_of_lt (Nat.lt_succ_of_le this.2)⟩
      tracked := by
        intro id es hes hne
        have hid : id ≠ v.active + 1 := by
          rintro rfl
          rw [layout_roll_active] at hes
          cases hes
          exact hne rfl
        rw [layout_roll_ne hid] at hes
        rw [GlobalMeta.getElem?_sealActive]
        split
        · simp
        · exact h.tracked hes hne
      pool := by
        intro p hp
        obtain ⟨hle, hino⟩ := h.pool hp
        refine ⟨Nat.le_succ_of_le hle, ?_⟩
        intro i hi
        have hne : FileName.seg p.1 ≠ .seg (v.active + 1) := by
          simp only [ne_eq, FileName.seg.injEq]
          omega
        rw [hinode, if_neg hne] at hi
        exact hino hi }

theorem runs_sealActive (h : InMemory X v s) :
    Runs (Engine.sealActive X none) s (fun _ t => InMemory X v.sealActive t)
      (fun t => OnDisk X v.roll t.disk) := by
  refine bind (state ?_)
  rw [sealActive, h.activeSize_eq]
  by_cases hempty : s.activeWriter.bytesWritten = 0
  · rw [if_pos hempty, if_pos hempty]
    exact pure h
  · rw [if_neg hempty, if_neg hempty]
    have hrolled := h.rolled (X.sha256 (s.disk.fs.data s.activeWriter.file))
    have hcreated := h.toOnDisk.roll
    dsimp only
    rw [h.writerId, read?_eq_some h.writerFile]
    refine bind (modify (bind (modify (bind (modify ?_)))))
    exact bind (durable (durable hrolled hrolled.toOnDisk) hcreated)

theorem runs_sealIfFull (h : InMemory X v s) :
    Runs (Engine.sealIfFull X none) s (fun _ t => InMemory X v.room t)
      (fun t => OnDisk X v.roll t.disk) := by
  refine bind (state ?_)
  have hfull : s.activeWriter.isFull = true ↔ SEGMENT_MAX_SIZE ≤ v.activeSize := by
    rw [SegmentWriter.isFull, h.activeSize_eq, decide_eq_true_iff]
  by_cases hroom : SEGMENT_MAX_SIZE ≤ v.activeSize
  · rw [if_pos (hfull.mpr hroom), room, if_pos hroom]
    have hpos : v.activeSize ≠ 0 := by
      simp only [SEGMENT_MAX_SIZE] at hroom
      omega
    refine (runs_sealActive h).mono ?_ fun _ ht => ht
    intro _ t ht
    rwa [sealActive, if_neg hpos] at ht
  · rw [if_neg (fun hf => hroom (hfull.mp hf)), room, if_neg hroom]
    exact pure h

theorem runs_writeActive (h : InMemory X v s) (hv : e.Valid) {β : Type} {out : β}
    (hf : KeepsMark f) : Runs (do
        Engine.writeActive X e
        Engine.modifyMeta fun m => m.upsert v.active f
        pure out) s
      (fun a t => a = out ∧ InMemory X (v.push e) t) (fun t => OnDisk X (v.push e) t.disk) := by
  have hdisk := h.onDisk_push hv
  have hpushed := h.pushed hv hf
  refine bind (durable (bind (modify (pure ⟨rfl, ?_⟩))) ?_)
  · rwa [SegmentWriter.append_end X e _ _ h.writerPos]
  · rwa [SegmentWriter.append_end X e _ _ h.writerPos]

/-- `append_entry` makes this entry of its fields. -/
def Entry.Made (e : Entry) : Prop :=
  (if e.flags = 1 then Entry.tombstone e.key else ⟨e.flags, e.codec, e.key, e.rawSize, e.data⟩) = e

theorem runs_appendEntry (h : InMemory X v s) (hv : e.Valid) (he : e.Made) :
    Runs (Engine.appendEntry X none e.key e.data e.rawSize e.flags e.codec) s
      (fun out t => out = (v.room.active, v.room.activeSize, e.dataSize) ∧
        InMemory X (v.room.push e) t)
      (fun t => OnDisk X v.roll t.disk ∨ OnDisk X (v.room.push e) t.disk) := by
  refine seq ((runs_sealIfFull h).weaken fun _ => .inl) fun _ t ht => bind (state ?_)
  rw [he, ht.writerId, ← ht.activeSize_eq]
  exact (runs_writeActive ht hv (keepsMark_accountEntry X e _)).weaken fun _ => .inr

end

end Bichon.Blob
