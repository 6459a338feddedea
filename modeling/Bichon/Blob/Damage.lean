import Bichon.Blob.GcFrame

/-!
# Compacting a damaged segment

The other modules describe a store whose segment files are lists of entries. Here the
bytes of one entry of a segment have been altered, so the argument goes back to the
files: `Engine.Rewrote` says what a compaction that commits does to them in any state,
and `get_eq_readAt` what a read returns.

The scan of `gc_prepare` ends at an entry that does not check out, with success when
the entry stands near the end of the file. What stands behind it is then not visited,
and so it is neither kept nor are its index records touched: `gc_damage_iff`.
-/

namespace Bichon.Blob

open ByteFile LastWrite Durable Transition List Option Engine IndexStore Yields

/-! ## Reading through the files -/

section

variable {X : Extern} {s t : Engine} {config : Config} {id : Nat}

variable {key : Key} {record : IndexRecord}

variable {file : Bytes} {e : Entry}

theorem readAt_of_entryAt {fs : FileSystem FileName}
    (hfile : fs.read? (.seg record.segmentId) = some file)
    (hat : EntryAt X file record.offset e) (hv : e.Valid) : readAt X fs record = e.value X := by
  simp only [readAt, hfile, readEntryAtFile_encode _ hat hv, ok_bind]
  rfl

theorem readAt_of_length_le {fs : FileSystem FileName}
    (hfile : fs.read? (.seg record.segmentId) = some file) (hoffset : file.length ≤ record.offset) :
    readAt X fs record = .error (.io .unexpectedEof) := by
  have hheader : readOrEof file record.offset ENTRY_HEADER_SIZE = .error (.io .unexpectedEof) := by
    rw [readOrEof, readExact_eq_none (by decide) (by simp only [ENTRY_HEADER_SIZE]; omega)]
  simp only [readAt, hfile, readEntryAtFile, readEntryWith, hheader, error_bind]

theorem Entry.value_ne_unexpectedEof (e : Entry) : e.value X ≠ .error (.io .unexpectedEof) := by
  intro h
  obtain ⟨codec, ⟨⟩⟩ := Entry.compression_of_value_error h

/-! ## What a compaction that commits has done -/

/-- The segment holds the entries `ks` and nothing else, or is gone if they have no
data; the index has their new offsets and has lost the keys `stale`. -/
structure Engine.Rewrote (X : Extern) (id : Nat) (ks : List Entry) (stale : List Key)
    (s t : Engine) : Prop where
  read : ∀ id', t.disk.fs.read? (.seg id') =
    if id' = id then (if dataBytes ks = 0 then none else some (encodeAll X ks))
    else s.disk.fs.read? (.seg id')
  index : t.disk.index = (s.disk.index.insertBatch (recordsOf id ks)).deleteBatch stale
  pool : s.PoolCoherent → t.PoolCoherent

theorem yields_gcUpdateMeta (prep : GcPrepare) (s : Engine) :
    Yields (Engine.gcUpdateMeta prep) s
      (fun _ t => t.disk.index = s.disk.index ∧ t.filePool = s.filePool ∧
        t.disk.fs = if prep.bytesAfter = 0 then s.disk.fs.remove (.seg prep.segmentId)
          else s.disk.fs)
      (fun _ => True) (fun _ => True) := by
  rw [gcUpdateMeta]
  split
  · exact modify_bind (durable_bind trivial
      (durable ⟨rfl, rfl, rfl⟩ trivial))
  · exact modify_bind (durable ⟨rfl, rfl, rfl⟩ trivial)

theorem yields_gcCommit {prep : GcPrepare} {ks : List Entry} {s : Engine}
    (htemp : s.disk.fs.read? (.temp prep.tempStamp) = some (encodeAll X ks))
    (hrecords : prep.keptRecords = recordsOf prep.segmentId ks)
    (hbytes : prep.bytesAfter = dataBytes ks) :
    Yields (Engine.gcCommit prep) s
      (fun _ t => s.Rewrote X prep.segmentId ks prep.deletedKeys t)
      (fun _ => True) (fun _ => True) := by
  obtain ⟨inode, hinode, hdata⟩ := map_eq_some_iff.mp htemp
  have hread := read?_rename_temp hinode prep.segmentId
  refine (runs_gcFinish hinode trivial).yields.bind ?_
  rintro _ _ rfl
  refine modify_bind ((runs_gcInsertKept prep trivial).yields.bind ?_)
  rintro _ _ rfl
  refine (runs_gcDeleteKeys prep trivial).yields.bind ?_
  rintro _ _ rfl
  refine (yields_gcUpdateMeta prep _).bind ?_
  rintro _ t ⟨hindex, hpool, hfs⟩
  refine pure ⟨?_, ?_, ?_⟩
  · intro id'
    rw [hfs, hbytes]
    by_cases hid : id' = prep.segmentId
    · subst hid
      by_cases hzero : dataBytes ks = 0
      · rw [if_pos hzero, FileSystem.read?_remove, if_pos rfl, if_pos rfl, if_pos hzero]
      · rw [if_neg hzero, hread, if_pos rfl, if_pos rfl, if_neg hzero, hdata]
    · by_cases hzero : dataBytes ks = 0
      · rw [if_pos hzero, FileSystem.read?_remove, if_neg (by simpa using hid), hread, if_neg hid,
          if_neg hid]
      · rw [if_neg hzero, hread, if_neg hid, if_neg hid]
  · rw [hindex, hrecords]
  · intro hcoherent p hp i hi
    rw [hpool] at hp
    obtain ⟨hmem, hne⟩ := mem_filter.mp hp
    have hid : p.1 ≠ prep.segmentId := by simpa using hne
    have hseg : (s.disk.fs.rename (.temp prep.tempStamp) (.seg prep.segmentId)).inode?
        (.seg p.1) = some i := by
      rw [hfs] at hi
      split at hi
      · rwa [FileSystem.inode?_remove, if_neg (by simpa using hid)] at hi
      · exact hi
    rw [inode?_rename_temp hinode, if_neg hid] at hseg
    exact hcoherent p hmem i hseg

/-- In any state, a compaction that commits has scanned its segment without an error
and rewritten it to the entries it kept. -/
theorem rewrote_of_gc {timestamp : Nat} {stats : GcStats}
    (h : (Engine.gc X config timestamp s).result = .ok (some stats)) :
    ∃ id file point, gcTarget config s = some id ∧ s.disk.fs.read? (.seg id) = some file ∧
      (scanEntries X id file 0).outcome = .ok point ∧
      s.Rewrote X id (keptOf s.disk.index id (scanEntries X id file 0).visited)
        (staleKeys s.disk.index id (scanEntries X id file 0).visited)
        (Engine.gc X config timestamp s).state := by
  obtain ⟨out, hout, hrest, hstate⟩ := Prog.of_bind_ok h
  cases out with
  | none => cases hrest
  | some prep =>
    obtain ⟨htarget, file, point, hfile, hpoint, hprep, htemp⟩ := gcPrepare_collects hout
    obtain ⟨fs, hfs, heq⟩ := gcPrepare_spares X config timestamp s _ mem_cons_self
    obtain ⟨stats', hcommit, -, hstate'⟩ := Prog.of_bind_ok hrest
    have hrewrote := (yields_gcCommit htemp hprep.keptRecords hprep.bytesAfter).1 _ hcommit
    refine ⟨prep.segmentId, file, point, htarget, hfile, hpoint, ?_⟩
    rw [gc, hstate]
    rw [hstate', Prog.pure_apply]
    rw [hprep.deletedKeys, heq] at hrewrote
    rw [heq]
    refine ⟨fun id' => ?_, hrewrote.index, fun hpool => hrewrote.pool fun p hp i hi => ?_⟩
    · rw [hrewrote.read id', hfs.read?]
    · exact hpool p hp i ((hfs.inode p.1).symm.trans hi)

/-! ## One damaged entry -/

/-- A segment of which one entry has been altered: the entries `front`, the bytes of an
entry that no longer checks out, the entries `back`. The live records of the segment
lead to entries, or to the damaged one. -/
structure Engine.Damaged (X : Extern) (s : Engine) (id : Nat) (front : List Entry)
    (damaged : Bytes) (back : List Entry) : Prop where
  read : s.disk.fs.read? (.seg id) = some (encodeAll X front ++ (damaged ++ encodeAll X back))
  header : ENTRY_HEADER_SIZE ≤ damaged.length
  front_valid : ∀ e ∈ front, e.Valid
  back_valid : ∀ e ∈ back, e.Valid
  rejected : ∃ err, readEntryAt X id (encodeAll X front ++ (damaged ++ encodeAll X back))
    (sizeAll front) = .error err ∧ err.isCorruption = true
  index : ∀ key record, s.disk.index.get key = some record → record.segmentId = id →
    record.offset = sizeAll front ∨ ∃ e, e.key = key ∧
      record = IndexRecord.ofEntry id (e, record.offset) ∧
      ((e, record.offset) ∈ offsetsFrom 0 front ∨
        (e, record.offset) ∈ offsetsFrom (sizeAll front + damaged.length) back)
  pool : s.PoolCoherent

theorem visited_scanError (segmentId : Nat) (file : Bytes) (offset : Nat) (err : Error) :
    (scanError segmentId file offset err).visited = [] := by
  unfold scanError
  split
  · split
    · rfl
    · rfl
  · rfl

variable {front back : List Entry} {damaged : Bytes}

theorem Engine.Damaged.visited (h : s.Damaged X id front damaged back) :
    (scanEntries X id (encodeAll X front ++ (damaged ++ encodeAll X back)) 0).visited =
      offsetsFrom 0 front := by
  have hfront := scanEntries_entries X id [] (damaged ++ encodeAll X back) h.front_valid
  obtain ⟨err, herr, -⟩ := h.rejected
  have hheader := h.header
  have hstop := scanEntries_eq X id (encodeAll X front ++ (damaged ++ encodeAll X back))
    (sizeAll front)
  rw [if_pos (by simp only [length_append, length_encodeAll]; omega), herr] at hstop
  rw [nil_append, length_nil, Nat.zero_add] at hfront
  rw [hfront, hstop]
  rw [visited_scanError, append_nil]

theorem Engine.Damaged.get_before (h : s.Damaged X id front damaged back)
    (hget : s.disk.index.get key = some record) (hid : record.segmentId = id)
    (hat : (e, record.offset) ∈ offsetsFrom 0 front ∨
      (e, record.offset) ∈ offsetsFrom (sizeAll front + damaged.length) back) :
    (Engine.get X key s).result = e.value X := by
  have hread := h.read
  rw [← hid] at hread
  rw [get_eq_readAt h.pool hget]
  rcases hat with hat | hat
  · exact readAt_of_entryAt hread (entryAt_of_mem_offsetsFrom [] hat _)
      (h.front_valid e (mem_of_mem_offsetsFrom hat))
  · refine readAt_of_entryAt hread ?_ (h.back_valid e (mem_of_mem_offsetsFrom hat))
    rw [← append_assoc, ← append_nil (encodeAll X back)]
    refine entryAt_of_mem_offsetsFrom _ ?_ []
    rwa [length_append, length_encodeAll]

theorem IndexStore.table_deleteBatch (store : IndexStore) (keys : List Key) :
    (store.deleteBatch keys).table = setAll store.table (keys.map fun key => (key, none)) := by
  induction keys generalizing store with
  | nil => rfl
  | cons key keys ih => exact ih _

theorem Engine.Rewrote.get_index {ks : List Entry} {stale : List Key}
    (h : s.Rewrote X id ks stale t) (hks : ∀ e ∈ ks, e.key ≠ key)
    (hstale : key ∉ stale) : t.disk.index.get key = s.disk.index.get key := by
  apply IndexStore.get_congr
  rw [h.index, IndexStore.table_deleteBatch, setAll_of_notMem, IndexStore.table_insertBatch,
    setAll_of_notMem]
  · rintro ⟨key', slot⟩ hmem rfl
    obtain ⟨e, _, hat, hkey, _⟩ := View.mem_updates_recordsOf hmem
    exact hks e (mem_of_mem_offsetsFrom hat) hkey
  · rintro u hu rfl
    obtain ⟨key', hkey', rfl⟩ := mem_map.mp hu
    exact hstale hkey'

theorem get_index_of_other {other : Nat}
    (h : s.Rewrote X other (keptOf s.disk.index other (scanEntries X other file 0).visited)
      (staleKeys s.disk.index other (scanEntries X other file 0).visited) t)
    (hget : s.disk.index.get key = some record)
    (hne : record.segmentId ≠ other) : t.disk.index.get key = some record := by
  rw [← hget]
  apply h.get_index
  · rintro e he rfl
    obtain ⟨-, r, hr, hrid, -⟩ := mem_keptOf.mp he
    cases hget.symm.trans hr
    exact hne hrid
  · intro hmem
    obtain ⟨-, r, -, -, hr, hrid, -⟩ := live_of_mem_staleKeys hmem
    cases hget.symm.trans hr
    exact hne hrid

/-! ## What is left of the segment -/

/-- The entries the compaction of the damaged segment keeps. -/
def Engine.keptFront (s : Engine) (id : Nat) (front : List Entry) : List Entry :=
  keptOf s.disk.index id (offsetsFrom 0 front)

section

variable (h : s.Damaged X id front damaged back)

include h

theorem Engine.Damaged.points : s.disk.index.Points id front := by
  intro key record e hget hid hat
  have hend := add_diskSize_le_of_mem_offsetsFrom hat
  have hpos := diskSize_pos e
  rcases h.index key record hget hid with heq | ⟨f, hkey, hrecord, hf | hf⟩
  · omega
  · rw [← offsetsFrom_unique hf hat]
    exact ⟨hkey, hrecord⟩
  · have := le_of_mem_offsetsFrom hf
    omega

theorem Engine.Damaged.kept_of_lt (hget : s.disk.index.get key = some record)
    (hid : record.segmentId = id) (hlt : record.offset < sizeAll front) :
    ∃ e ∈ s.keptFront id front, e.key = key ∧ (e, record.offset) ∈ offsetsFrom 0 front := by
  rcases h.index key record hget hid with heq | ⟨e, hkey, -, hat | hat⟩
  · omega
  · exact ⟨e, h.points.mem_kept hget hid hat, hkey, hat⟩
  · have := le_of_mem_offsetsFrom hat
    omega

theorem dataBytes_keptFront_ne_zero_iff :
    dataBytes (s.keptFront id front) ≠ 0 ↔
      ∃ record, s.disk.index.Live id record ∧ record.offset < sizeAll front ∧
        record.dataSize ≠ 0 := by
  rw [keptFront, h.points.dataBytes_ne_zero_iff h.front_valid]
  constructor
  · rintro ⟨key, record, e, hget, hid, hat, hne⟩
    have hend := add_diskSize_le_of_mem_offsetsFrom hat
    have hpos := diskSize_pos e
    exact ⟨record, ⟨key, hget, hid⟩, by omega, hne⟩
  · rintro ⟨record, ⟨key, hget, hid⟩, hlt, hne⟩
    obtain ⟨e, -, -, hat⟩ := h.kept_of_lt hget hid hlt
    exact ⟨key, record, e, hget, hid, hat, hne⟩

end

variable (ht : s.Rewrote X id (s.keptFront id front) [] t)

include ht

theorem Engine.Damaged.get_after_front (h : s.Damaged X id front damaged back)
    (he : e ∈ s.keptFront id front) :
    (Engine.get X e.key t).result =
      if dataBytes (s.keptFront id front) = 0 then .error (.segmentNotFound id)
      else e.value X := by
  have htable : t.disk.index.table =
      setAll s.disk.index.table (updates (recordsOf id (s.keptFront id front))) := by
    rw [ht.index]
    exact table_insertBatch _ _
  rcases View.setAll_recordsOf_cases s.disk.index.table id (s.keptFront id front) e.key with
    ⟨f, offset, hat, hkey, hslot⟩ | ⟨hnone, -⟩
  · have hf := mem_of_mem_offsetsFrom hat
    obtain rfl := keptOf_unique he hf hkey
    have hget : t.disk.index.get f.key = some (IndexRecord.ofEntry id (f, offset)) :=
      get_eq_some_iff.mpr ⟨by rw [htable, hslot], (mem_keptOf.mp hf).1⟩
    have hread := ht.read id
    rw [if_pos rfl] at hread
    rw [get_eq_readAt (ht.pool h.pool) hget]
    by_cases hzero : dataBytes (s.keptFront id front) = 0
    · rw [if_pos hzero] at hread ⊢
      rw [readAt, show (IndexRecord.ofEntry id (f, offset)).segmentId = id from rfl, hread]
    · rw [if_neg hzero] at hread ⊢
      have hvalid : f.Valid := h.front_valid f ((keptOf_sublist s.disk.index id 0 front).subset hf)
      have hentry : EntryAt X (encodeAll X (s.keptFront id front)) offset f := by
        simpa using entryAt_of_mem_offsetsFrom [] hat []
      exact readAt_of_entryAt hread hentry hvalid
  · exact absurd rfl (hnone e he)

theorem Engine.Damaged.get_after_back (h : s.Damaged X id front damaged back)
    (hget : s.disk.index.get key = some record)
    (hid : record.segmentId = id) (hlt : sizeAll front < record.offset) :
    (Engine.get X key t).result =
      if dataBytes (s.keptFront id front) = 0 then .error (.segmentNotFound id)
      else .error (.io .unexpectedEof) := by
  have hnone : ∀ e ∈ s.keptFront id front, e.key ≠ key := by
    rintro e he rfl
    obtain ⟨-, r, hr, -, hat⟩ := mem_keptOf.mp he
    cases hget.symm.trans hr
    have hend := add_diskSize_le_of_mem_offsetsFrom hat
    omega
  have hafter : t.disk.index.get key = some record := (ht.get_index hnone (by simp)).trans hget
  have hread := ht.read id
  rw [if_pos rfl] at hread
  rw [get_eq_readAt (ht.pool h.pool) hafter]
  by_cases hzero : dataBytes (s.keptFront id front) = 0
  · rw [if_pos hzero] at hread ⊢
    rw [readAt, hid, hread]
  · rw [if_neg hzero] at hread ⊢
    rw [← hid] at hread
    apply readAt_of_length_le hread
    have hsize := sizeAll_le_of_sublist (keptOf_sublist s.disk.index id 0 front)
    rw [length_encodeAll, hid]
    exact hsize.trans (Nat.le_of_lt hlt)

end

/-- A compaction of any segment commits while one entry of the segment `id` is damaged.
The intact entries of that segment read as before if and only if, in case this is the
segment that was compacted, the index points at nothing behind the damaged entry, and
the entries it points at in front of it are none or hold some data. -/
theorem gc_damage_iff {X : Extern} {s : Engine} {id : Nat} {front back : List Entry}
    {damaged : Bytes} (h : s.Damaged X id front damaged back) {config : Config} {timestamp : Nat}
    {stats : GcStats} (hcommit : (Engine.gc X config timestamp s).result = .ok (some stats)) :
    (∀ key record, s.disk.index.get key = some record → record.segmentId = id →
        record.offset ≠ sizeAll front →
        (Engine.get X key (Engine.gc X config timestamp s).state).result =
          (Engine.get X key s).result) ↔
      (gcTarget config s = some id →
        (∀ record, s.disk.index.Live id record → record.offset ≤ sizeAll front) ∧
          ((∃ record, s.disk.index.Live id record ∧ record.offset < sizeAll front) →
            ∃ record, s.disk.index.Live id record ∧ record.offset < sizeAll front ∧
              record.dataSize ≠ 0)) := by
  obtain ⟨target, file, point, htarget, hfile, -, hrewrote⟩ := rewrote_of_gc hcommit
  by_cases hid : target = id
  · subst hid
    cases hfile.symm.trans h.read
    rw [h.visited, h.points.staleKeys_eq_nil] at hrewrote
    rw [← dataBytes_keptFront_ne_zero_iff h]
    constructor
    · intro hsame _
      constructor
      · rintro record ⟨key, hget, hid⟩
        by_contra hgt
        rcases h.index key record hget hid with heq | ⟨e, rfl, -, hat⟩
        · omega
        · have hreads := hsame e.key record hget hid (by omega)
          rw [h.get_after_back hrewrote hget hid (by omega), h.get_before hget hid hat] at hreads
          split at hreads
          · exact e.value_ne_segmentNotFound target hreads.symm
          · exact e.value_ne_unexpectedEof hreads.symm
      · rintro ⟨record, ⟨key, hget, hid⟩, hlt⟩ hzero
        obtain ⟨e, he, rfl, hat⟩ := h.kept_of_lt hget hid hlt
        have hreads := hsame e.key record hget hid (by omega)
        rw [h.get_after_front hrewrote he, if_pos hzero, h.get_before hget hid (.inl hat)] at hreads
        exact e.value_ne_segmentNotFound target hreads.symm
    · intro hcond key record hget hid hne
      obtain ⟨hnone, hdata⟩ := hcond htarget
      have hle := hnone record ⟨key, hget, hid⟩
      have hlt : record.offset < sizeAll front := by omega
      obtain ⟨e, he, rfl, hat⟩ := h.kept_of_lt hget hid hlt
      rw [h.get_after_front hrewrote he, if_neg (hdata ⟨record, ⟨_, hget, hid⟩, hlt⟩),
        h.get_before hget hid (.inl hat)]
  · constructor
    · intro _ hself
      cases htarget.symm.trans hself
      exact absurd rfl hid
    · intro _ key record hget hrid _
      have hne : record.segmentId ≠ target := by
        rw [hrid]
        exact fun heq => hid heq.symm
      rw [get_eq_readAt h.pool hget,
        get_eq_readAt (hrewrote.pool h.pool) (get_index_of_other hrewrote hget hne), readAt,
        hrewrote.read, if_neg hne]
      rfl

/-! ## Damage to a running store -/

def Engine.alter (id : Nat) (file : Bytes) (s : Engine) : Engine :=
  match s.disk.fs.inode? (.seg id) with
  | some i => { s with disk := { s.disk with fs := s.disk.fs.write i file } }
  | none => s

@[simp] theorem Engine.index_alter (id : Nat) (file : Bytes) (s : Engine) :
    (s.alter id file).disk.index = s.disk.index := by
  unfold alter
  split
  · rfl
  · rfl

theorem InMemory.damaged {X : Extern} {v : View} {s : Engine} (h : InMemory X v s) (hs : v.Sound)
    {id : Nat} {front back : List Entry} {e : Entry} (hes : v.layout id = some (front ++ e :: back))
    {damaged : Bytes} (hlength : damaged.length = e.diskSize)
    (hrejected : ∃ err, readEntryAt X id (encodeAll X front ++ (damaged ++ encodeAll X back))
      (sizeAll front) = .error err ∧ err.isCorruption = true) :
    (s.alter id (encodeAll X front ++ (damaged ++ encodeAll X back))).Damaged X id front
      damaged back := by
  have hread := h.read id
  rw [hes, map_some] at hread
  obtain ⟨i, hi, -⟩ := map_eq_some_iff.mp hread
  have hvalid := h.valid hes
  rw [alter, hi]
  exact
    { read := FileSystem.read?_write_self hi _
      header := by
        rw [hlength, Entry.diskSize]
        omega
      front_valid := fun f hf => hvalid f (mem_append_left _ hf)
      back_valid := fun f hf => hvalid f (mem_append_right _ (mem_cons_of_mem _ hf))
      rejected := hrejected
      index := by
        rintro key record hget rfl
        obtain ⟨htable, hlive⟩ := get_eq_some_iff.mp hget
        rw [h.table] at htable
        obtain ⟨hkey, -, hleads⟩ := hs key record htable hlive
        obtain ⟨f, ⟨es, hes', hat⟩, hrecord⟩ := hleads (by rw [hes]; simp)
        cases hes.symm.trans hes'
        rw [offsetsFrom_append, offsetsFrom, Nat.zero_add, mem_append, mem_cons] at hat
        have hfkey : f.key = key := by
          rw [← hkey, hrecord]
          rfl
        rcases hat with hat | heq | hat
        · exact .inr ⟨f, hfkey, hrecord, .inl hat⟩
        · exact .inl (Prod.mk.inj heq).2
        · exact .inr ⟨f, hfkey, hrecord, .inr (by rwa [hlength])⟩
      pool := fun p hp j hj => (h.pool hp).2 hj }

theorem OnDisk.layout_eq {X : Extern} {v : View} {d : Disk} (h : OnDisk X v d) {id : Nat}
    {file : Bytes} (hfile : d.fs.read? (.seg id) = some file) :
    v.layout id = some ((Blob.scanEntries X id file 0).visited.map Prod.fst) := by
  have hread := h.read id
  rw [hfile] at hread
  obtain ⟨es, hes, rfl⟩ := map_eq_some_iff.mp hread.symm
  rw [h.scanEntries hes, hes]
  rw [map_fst_offsetsFrom]

/-- Three values, the second deleted again, in a sealed segment. -/
def threeValues : List Step :=
  freshSteps
    [.op (.put (Key.fill 1) [1] .none),
     .op (.put (Key.fill 2) [2] .none),
     .op (.put (Key.fill 3) [3] .none),
     .op (.delete (Key.fill 2)),
     .op .sealActiveSegment]

def threeEntries : List Entry :=
  [⟨0, .none, Key.fill 1, 1, [1]⟩, ⟨0, .none, Key.fill 2, 1, [2]⟩, ⟨0, .none, Key.fill 3, 1, [3]⟩]

/-- The tombstone behind them with its first byte cleared. -/
def damagedTombstone : Bytes := ((Entry.tombstone (Key.fill 2)).encode reference).set 0 0

def tailDamaged : Bytes :=
  encodeAll reference threeEntries ++ (damagedTombstone ++ encodeAll reference [])

/-- The tombstone at the end is damaged, and both values survive. -/
theorem gc_damage_iff_tail :
    ∃ (s : Engine) (front : List Entry) (damaged : Bytes) (stats : GcStats),
      s.Damaged reference 1 front damaged [] ∧ front.length = 3 ∧
      (Engine.gc reference quarterConfig 7 s).result = .ok (some stats) ∧
      ∀ key record, s.disk.index.get key = some record → record.segmentId = 1 →
        record.offset ≠ sizeAll front →
        (Engine.get reference key (Engine.gc reference quarterConfig 7 s).state).result =
          (Engine.get reference key s).result := by
  obtain ⟨s, hs, ⟨file, hfile, hvisited⟩, ⟨record, hrecord, hsegment, hoffset, hsize⟩, out, hgc,
      stats, rfl, -⟩ : ∃ s ∈ engineAfter reference quarterConfig threeValues,
        (∃ file ∈ s.disk.fs.read? (.seg 1), (scanEntries reference 1 file 0).visited.map Prod.fst =
          threeEntries ++ [Entry.tombstone (Key.fill 2)]) ∧
        (∃ r ∈ s.disk.index.get (Key.fill 1), r.segmentId = 1 ∧ r.offset = 0 ∧ r.dataSize = 1) ∧
        ∃ out ∈ (gc reference quarterConfig 7 (s.alter 1 tailDamaged)).result.toOption,
          ∃ stats ∈ out, True := by
    decide +kernel
  obtain ⟨v, hmem, hv⟩ := (reached_freshSteps (runFrom_of_engineAfter hs)).coherent
  have hes := hmem.layout_eq hfile
  rw [hvisited] at hes
  have hdamaged := hmem.damaged hv.sound hes
    (show damagedTombstone.length = _ by decide +kernel)
    ⟨.corruptEntry 1 153 (.badMagic 0xB3DB0000), by decide +kernel, rfl⟩
  have hresult := eq_ok_of_mem_toOption hgc
  refine ⟨_, _, _, _, hdamaged, rfl, hresult, ?_⟩
  refine (gc_damage_iff hdamaged hresult).mpr fun _ => ⟨?_, fun _ => ?_⟩
  · rintro r ⟨key, hr, hrid⟩
    rcases hdamaged.index key r hr hrid with heq | ⟨e, -, -, hat | hat⟩
    · exact le_of_eq heq
    · have := add_diskSize_le_of_mem_offsetsFrom hat
      omega
    · cases hat
  · refine ⟨record, ⟨Key.fill 1, ?_, hsegment⟩, ?_, ?_⟩
    · rw [index_alter]
      exact hrecord
    · rw [hoffset]
      decide +kernel
    · rw [hsize]
      decide

/-- The first byte of the second entry is cleared. The compaction commits, the first
value can still be read, and the third, which is intact, is lost. -/
theorem gc_loses_entry_behind_damage :
    (engineAfter reference quarterConfig threeValues).map (fun s =>
      let s' := s.alter 1 (((s.disk.fs.read? (.seg 1)).getD []).set 51 0)
      let t := (gc reference quarterConfig 7 s').state
      ((gc reference quarterConfig 7 s').result.toOption.join.isSome,
        [(get reference (Key.fill 3) s').result.toOption.join,
          (get reference (Key.fill 1) t).result.toOption.join],
        (get reference (Key.fill 3) t).error?)) =
      some (true, [some [3], some [1]], some (.io .unexpectedEof)) := by
  decide +kernel

end Bichon.Blob
