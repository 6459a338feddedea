import Bichon.Blob.Compaction

/-!
# What a compaction does

`runs_gcPrepare`: the first phase writes the kept entries of the segment it picks to
a temporary file and leaves the view alone. `runs_gcCommit`: the second phase makes
the change `View.committed`, also when the view has moved on since the first phase.
`runs_gc` puts the two together.
-/

namespace Bichon.Blob

open ByteFile LastWrite Durable FileSystem List Option Function Engine View GlobalMeta Runs

/-- The segment that a compaction would rewrite now. -/
def gcTarget (config : Config) (s : Engine) : Option Nat :=
  match gcCandidate config s.globalMeta with
  | none => none
  | some target =>
    if (s.disk.fs.read? (.seg target.segmentId)).isSome then some target.segmentId else none

/-! ## The scan -/

/-- What the closure has collected after it kept `ks` and met the tombstones of
`keys`. -/
structure GcScan.Holds (X : Extern) (target : Nat) (ks : List Entry) (keys : List Key)
    (acc : GcScan) : Prop where
  file : acc.file = ⟨encodeAll X ks, (encodeAll X ks).length⟩
  bytesWritten : acc.bytesWritten = sizeAll ks
  keptRecords : acc.keptRecords = recordsOf target ks
  deletedKeys : acc.deletedKeys = keys
  bytesAfter : acc.bytesAfter = dataBytes ks

section

variable {X : Extern} {target : Nat} {ks : List Entry} {keys : List Key} {acc : GcScan}

theorem GcScan.Holds.skip (h : acc.Holds X target ks keys) : acc.skip.Holds X target ks keys :=
  ⟨h.file, h.bytesWritten, h.keptRecords, h.deletedKeys, h.bytesAfter⟩

theorem GcScan.Holds.keep (h : acc.Holds X target ks keys) (e : Entry) :
    (acc.keep X target e).Holds X target (ks ++ [e]) keys where
  file := by
    rw [GcScan.keep]
    rw [h.file, writeEntry_end, encodeAll_append, encodeAll_cons, encodeAll_nil, append_nil]
  bytesWritten := by
    rw [GcScan.keep]
    dsimp only
    rw [h.bytesWritten, sizeAll_append, sizeAll_cons, sizeAll_nil, Nat.add_zero]
  keptRecords := by
    rw [GcScan.keep]
    rw [h.keptRecords, h.bytesWritten, recordsOf, recordsOf, offsetsFrom_append, map_append,
      Nat.zero_add]
    rfl
  deletedKeys := by
    rw [GcScan.keep]
    exact h.deletedKeys
  bytesAfter := by
    rw [GcScan.keep]
    dsimp only
    rw [h.bytesAfter, dataBytes_append, dataBytes_cons, dataBytes_nil, Nat.add_zero]

theorem keptOf_cons (index : IndexStore) (target : Nat) (found : Entry × Nat)
    (visited : List (Entry × Nat)) :
    keptOf index target (found :: visited) =
      if keeps index target found then
        found.1 :: keptOf index target visited
      else
        keptOf index target visited := by
  rw [keptOf, filter_cons]
  split <;> rfl

theorem staleKeys_cons (index : IndexStore) (target : Nat) (found : Entry × Nat)
    (visited : List (Entry × Nat)) :
    staleKeys index target (found :: visited) =
      if found.1.isTombstone && isLatest index target found.1 found.2 then
        found.1.key :: staleKeys index target visited
      else
        staleKeys index target visited := by
  rw [staleKeys, filter_cons]
  split <;> rfl

theorem GcScan.Holds.pushKey (h : acc.Holds X target ks keys) (key : Key) :
    ({ acc with deletedKeys := acc.deletedKeys ++ [key] } : GcScan).Holds X target ks
      (keys ++ [key]) :=
  ⟨h.file, h.bytesWritten, h.keptRecords, by dsimp only; rw [h.deletedKeys], h.bytesAfter⟩

theorem GcScan.Holds.foldl (h : acc.Holds X target ks keys) (index : IndexStore)
    (visited : List (Entry × Nat)) :
    (visited.foldl (gcVisit X index target) acc).Holds X target
      (ks ++ keptOf index target visited) (keys ++ staleKeys index target visited) := by
  induction visited generalizing acc ks keys with
  | nil =>
    rw [keptOf, staleKeys, filter_nil, filter_nil, map_nil, map_nil,
      append_nil, append_nil]
    exact h
  | cons found visited ih =>
    rw [foldl_cons, keptOf_cons, staleKeys_cons, keeps, gcVisit]
    -- the four branches of the closure
    cases ht : found.1.isTombstone <;> cases hl : isLatest index target found.1 found.2
    · exact ih h.skip
    · have hkeep := ih (h.keep found.1)
      rw [append_assoc] at hkeep
      exact hkeep
    · exact ih h.skip
    · have hpush := ih (h.pushKey found.1.key).skip
      rw [append_assoc] at hpush
      exact hpush

theorem GcScan.holds_start (X : Extern) (target : Nat) : GcScan.start.Holds X target [] [] :=
  ⟨rfl, rfl, rfl, rfl, rfl⟩

end

/-! ## The segment that is picked -/

theorem foldl_maxByRatio {l : List SegmentStats} {best : Option SegmentStats} {st : SegmentStats}
    (h : l.foldl maxByRatio best = some st) : best = some st ∨ st ∈ l := by
  induction l generalizing best with
  | nil => exact .inl h
  | cons stats l ih =>
    rcases ih h with hbest | hmem
    · cases best with
      | none =>
        cases hbest
        exact .inr mem_cons_self
      | some b =>
        rw [maxByRatio] at hbest
        split at hbest
        · exact .inl hbest
        · cases hbest
          exact .inr mem_cons_self
    · exact .inr (mem_cons_of_mem _ hmem)

theorem gcCandidate_eq_some {config : Config} {m : GlobalMeta} {st : SegmentStats}
    (h : gcCandidate config m = some st) :
    st.sealed = true ∧ ∃ id : Nat, m.segments[id]? = some st := by
  rcases foldl_maxByRatio h with hnone | hmem
  · cases hnone
  · obtain ⟨hlist, hcond⟩ := mem_filter.mp hmem
    obtain ⟨⟨id, st'⟩, hpair, rfl⟩ := mem_map.mp hlist
    rw [Bool.and_eq_true] at hcond
    exact ⟨hcond.1, id, Std.ExtTreeMap.mem_toList_iff_getElem?_eq_some.mp hpair⟩

section

variable {X : Extern} {v : View} {s : Engine} {config : Config} {id : Nat}

theorem gcTarget_eq_some (h : gcTarget config s = some id) :
    ∃ target file, gcCandidate config s.globalMeta = some target ∧ target.segmentId = id ∧
      s.disk.fs.read? (.seg id) = some file := by
  unfold gcTarget at h
  cases hcand : gcCandidate config s.globalMeta with
  | none => rw [hcand] at h; cases h
  | some target =>
    rw [hcand] at h
    dsimp only at h
    split at h
    · rename_i hfile
      cases h
      obtain ⟨file, hread⟩ := isSome_iff_exists.mp hfile
      exact ⟨target, file, rfl, rfl, hread⟩
    · cases h

theorem InMemory.gcTarget (h : InMemory X v s) (ht : gcTarget config s = some id) :
    id < v.active ∧ v.layout id ≠ none ∧ s.globalMeta.segments[id]? ≠ none := by
  obtain ⟨target, file, hcand, rfl, hfile⟩ := gcTarget_eq_some ht
  obtain ⟨hsealed, id, hst⟩ := gcCandidate_eq_some hcand
  obtain ⟨hid, hle, hne⟩ := h.memStats hst
  rw [hid]
  refine ⟨lt_of_le_of_ne hle (hne hsealed), ?_, by rw [hst]; exact some_ne_none _⟩
  intro hnone
  have hread := h.read id
  rw [hnone, ← hid, hfile] at hread
  cases hread

/-! ## The first phase -/

/-- What the second phase finds: the temporary file with the entries that are kept,
and their records. -/
structure Prepared (X : Extern) (ks : List Entry) (prep : GcPrepare) (s : Engine) : Prop where
  temp : s.disk.fs.read? (.temp prep.tempStamp) = some (encodeAll X ks)
  tracked : s.globalMeta.segments[prep.segmentId]? ≠ none
  keptRecords : prep.keptRecords = recordsOf prep.segmentId ks
  deletedKeys : prep.deletedKeys = []
  bytesAfter : prep.bytesAfter = dataBytes ks
  sha256 : prep.sha256 = X.sha256 (encodeAll X ks)

/-- The segment files are as they were. -/
structure SparesSegments (fs fs' : FileSystem FileName) : Prop where
  inode : ∀ id, fs'.inode? (.seg id) = fs.inode? (.seg id)
  data : ∀ id i, fs.inode? (.seg id) = some i → fs'.data i = fs.data i

namespace SparesSegments

variable {fs fs' : FileSystem FileName} {timestamp : Nat}

theorem read? (h : SparesSegments fs fs') (id : Nat) :
    fs'.read? (.seg id) = fs.read? (.seg id) := by
  rw [FileSystem.read?, FileSystem.read?, h.inode id]
  cases hi : fs.inode? (.seg id) with
  | none => rfl
  | some i => exact congrArg some (h.data id i hi)

theorem create (fs : FileSystem FileName) (timestamp : Nat) :
    SparesSegments fs (fs.create (.temp timestamp)) :=
  ⟨fun _ => inode?_create_ne _ (by simp), fun _ _ hi => data_create_of_ne hi (by simp)⟩

theorem write (h : SparesSegments fs fs') {file : Nat}
    (hfile : fs'.inode? (.temp timestamp) = some file) (content : Bytes) :
    SparesSegments fs (fs'.write file content) := by
  refine ⟨h.inode, fun id i hi => (data_write_ne _ _ fun heq => ?_).trans (h.data id i hi)⟩
  have hname := inode?_inj ((h.inode id).trans hi) (heq ▸ hfile)
  cases hname

end SparesSegments

theorem InMemory.withFs (h : InMemory X v s) {fs : FileSystem FileName}
    (hfs : SparesSegments s.disk.fs fs) :
    InMemory X v { s with disk := { s.disk with fs := fs } } := by
  have hwriter := hfs.data v.active _ h.writerFile
  exact
    { h with
      read := fun id => (hfs.read? id).trans (h.read id)
      writerFile := (hfs.inode v.active).trans h.writerFile
      writerPos := h.writerPos.trans (congrArg length hwriter.symm)
      writerBytes := h.writerBytes.trans (congrArg length hwriter.symm)
      pool := fun hp =>
        ⟨(h.pool hp).1, fun hi => (h.pool hp).2 ((hfs.inode _).symm.trans hi)⟩ }

/-- What the scan of the first phase has collected. -/
structure GcPrepare.Collects (X : Extern) (index : IndexStore) (visited : List (Entry × Nat))
    (prep : GcPrepare) : Prop where
  keptRecords : prep.keptRecords = recordsOf prep.segmentId (keptOf index prep.segmentId visited)
  deletedKeys : prep.deletedKeys = staleKeys index prep.segmentId visited
  bytesAfter : prep.bytesAfter = dataBytes (keptOf index prep.segmentId visited)
  sha256 : prep.sha256 = X.sha256 (encodeAll X (keptOf index prep.segmentId visited))

/-- The first phase creates the temporary file and writes what it keeps to it. -/
theorem gcPrepare_of_target (X : Extern) {target : SegmentStats} {file : Bytes}
    (hcand : gcCandidate config s.globalMeta = some target)
    (hfile : s.disk.fs.read? (.seg target.segmentId) = some file) (timestamp : Nat) :
    ∃ fs fs' prep, SparesSegments s.disk.fs fs ∧ SparesSegments s.disk.fs fs' ∧
      prep.segmentId = target.segmentId ∧
      prep.Collects X s.disk.index (scanEntries X target.segmentId file 0).visited ∧
      fs'.read? (.temp prep.tempStamp) = some (encodeAll X (keptOf s.disk.index prep.segmentId
        (scanEntries X target.segmentId file 0).visited)) ∧
      Engine.gcPrepare X config timestamp s =
        ⟨(scanEntries X target.segmentId file 0).outcome.map fun _ => some prep,
          { s with disk := { s.disk with fs := fs' } },
          [{ s with disk := { s.disk with fs := fs } },
            { s with disk := { s.disk with fs := fs' } }]⟩ := by
  have hacc := (GcScan.holds_start X target.segmentId).foldl s.disk.index
    (scanEntries X target.segmentId file 0).visited
  obtain ⟨i, hi, -⟩ := map_eq_some_iff.mp (s.disk.fs.read?_create_self (.temp timestamp))
  have hcreate := SparesSegments.create s.disk.fs timestamp
  let acc := (scanEntries X target.segmentId file 0).visited.foldl
    (gcVisit X s.disk.index target.segmentId) .start
  have hcontent : acc.file.content = encodeAll X (keptOf s.disk.index target.segmentId
      (scanEntries X target.segmentId file 0).visited) := congrArg Cursor.content hacc.file
  refine ⟨_, _, ⟨target.segmentId, target.totalBytes, acc.bytesAfter, acc.entriesKept,
    acc.entriesSkipped, acc.keptRecords, acc.deletedKeys, X.sha256 acc.file.content, timestamp⟩,
    hcreate, hcreate.write hi acc.file.content, rfl, ⟨hacc.keptRecords, hacc.deletedKeys,
    hacc.bytesAfter, congrArg X.sha256 hcontent⟩,
    (read?_write_self hi _).trans (congrArg some hcontent), ?_⟩
  rw [gcPrepare, Prog.state_bind]
  simp only [hcand, hfile]
  rw [Prog.bind_of_ok rfl, Prog.bind_of_ok rfl]
  simp only [createTemp, writeTemp, Prog.durable, hi]
  cases (scanEntries X target.segmentId file 0).outcome with
  | error | ok => rfl

variable {timestamp : Nat}

theorem Described.index_eq {d : Disk} (h : Described v d) : d.index = v.index := by
  have hreadable := h.readable
  rw [index, ← h.table, ← hreadable]

theorem runs_gcPrepare (h : InMemory X v s) (hs : v.Sound) (ht : gcTarget config s = some id)
    (timestamp : Nat) :
    Runs (Engine.gcPrepare X config timestamp) s
      (fun out t => ∃ prep, out = some prep ∧ prep.segmentId = id ∧ InMemory X v t ∧
        Prepared X (v.kept id) prep t)
      (fun t => OnDisk X v t.disk) := by
  obtain ⟨hlt, hlayout, htracked⟩ := h.gcTarget ht
  obtain ⟨target, file, hcand, rfl, hfile⟩ := gcTarget_eq_some ht
  obtain ⟨es, hes⟩ := ne_none_iff_exists'.mp hlayout
  have hentries : v.entriesAt target.segmentId = es := by rw [entriesAt, hes]; rfl
  have hread := h.read target.segmentId
  rw [hfile, hes, map_some, some.injEq] at hread
  -- the scan of a clean file visits the entries at their offsets
  have hscan : scanEntries X target.segmentId file 0 =
      ⟨offsetsFrom 0 (v.entriesAt target.segmentId), .ok (sizeAll es)⟩ := by
    rw [hread, hentries]
    exact scanEntries_whole X target.segmentId (h.valid hes)
  obtain ⟨fs, fs', prep, hfs, hfs', hid, hprep, htemp, heq⟩ :=
    gcPrepare_of_target X hcand hfile timestamp
  rw [hscan] at hprep htemp heq
  rw [Runs, heq]
  refine ⟨_, rfl, ⟨prep, rfl, hid, h.withFs hfs', ?_⟩, ?_⟩
  · have hdeleted := hprep.deletedKeys
    rw [h.index_eq, hid, (hs.points _).staleKeys_eq_nil] at hdeleted
    have hkept : v.kept target.segmentId = keptOf s.disk.index prep.segmentId
        (offsetsFrom 0 (v.entriesAt target.segmentId)) := by
      rw [h.index_eq, hid]
      rfl
    rw [hkept]
    exact ⟨htemp, hid ▸ htracked, hprep.keptRecords, hdeleted, hprep.bytesAfter, hprep.sha256⟩
  · simp only [forall_mem_cons]
    exact ⟨(h.withFs hfs).toOnDisk, (h.withFs hfs').toOnDisk, forall_mem_nil _⟩

theorem gcPrepare_of_target_none (X : Extern) (ht : gcTarget config s = none) (timestamp : Nat) :
    Engine.gcPrepare X config timestamp s = ⟨.ok none, s, []⟩ := by
  rw [gcPrepare, Prog.state_bind]
  unfold gcTarget at ht
  cases hcand : gcCandidate config s.globalMeta with
  | none => rfl
  | some target =>
    rw [hcand] at ht
    dsimp only at ht ⊢
    cases hread : s.disk.fs.read? (.seg target.segmentId) with
    | none => rfl
    | some file => simp [hread] at ht

/-- Whatever the first phase comes to, it leaves the segment files and all but the files alone. -/
theorem gcPrepare_spares (X : Extern) (config : Config) (timestamp : Nat) (s : Engine) :
    ∀ t ∈ (Engine.gcPrepare X config timestamp s).state ::
        (Engine.gcPrepare X config timestamp s).passed,
      ∃ fs, SparesSegments s.disk.fs fs ∧ t = { s with disk := { s.disk with fs := fs } } := by
  cases ht : gcTarget config s with
  | none =>
    rw [gcPrepare_of_target_none X ht]
    simp only [forall_mem_cons]
    exact ⟨⟨_, ⟨fun _ => rfl, fun _ _ _ => rfl⟩, rfl⟩, nofun⟩
  | some id =>
    obtain ⟨target, file, hcand, rfl, hfile⟩ := gcTarget_eq_some ht
    obtain ⟨fs, fs', prep, hfs, hfs', -, -, -, heq⟩ := gcPrepare_of_target X hcand hfile timestamp
    rw [heq]
    simp only [forall_mem_cons]
    exact ⟨⟨_, hfs', rfl⟩, ⟨_, hfs, rfl⟩, ⟨_, hfs', rfl⟩, nofun⟩

theorem gcPrepare_collects {prep : GcPrepare}
    (h : (Engine.gcPrepare X config timestamp s).result = .ok (some prep)) :
    gcTarget config s = some prep.segmentId ∧
      ∃ file point, s.disk.fs.read? (.seg prep.segmentId) = some file ∧
        (scanEntries X prep.segmentId file 0).outcome = .ok point ∧
        prep.Collects X s.disk.index (scanEntries X prep.segmentId file 0).visited ∧
        (Engine.gcPrepare X config timestamp s).state.disk.fs.read? (.temp prep.tempStamp) =
          some (encodeAll X (keptOf s.disk.index prep.segmentId
            (scanEntries X prep.segmentId file 0).visited)) := by
  cases ht : gcTarget config s with
  | none =>
    rw [gcPrepare_of_target_none X ht] at h
    cases h
  | some id =>
    obtain ⟨target, file, hcand, rfl, hfile⟩ := gcTarget_eq_some ht
    obtain ⟨fs, fs', prep', -, -, hid, hprep, htemp, heq⟩ :=
      gcPrepare_of_target X hcand hfile timestamp
    rw [heq] at h ⊢
    cases hpoint : (scanEntries X target.segmentId file 0).outcome with
    | error e =>
      rw [hpoint] at h
      cases h
    | ok point =>
      rw [hpoint] at h
      cases h
      rw [← hid] at hfile hpoint hprep htemp ⊢
      exact ⟨rfl, file, point, hfile, hpoint, hprep, htemp⟩

/-! ## The second phase -/

section

variable {fs : FileSystem FileName} {stamp i : Nat} (h : fs.inode? (.temp stamp) = some i)
  (id id' : Nat)

include h

theorem inode?_rename_temp : (fs.rename (.temp stamp) (.seg id)).inode? (.seg id') =
    if id' = id then some i else fs.inode? (.seg id') := by
  rw [inode?_rename h (by simp)]
  simp only [FileName.seg.injEq, reduceCtorEq, if_false]

theorem read?_rename_temp : (fs.rename (.temp stamp) (.seg id)).read? (.seg id') =
    if id' = id then some (fs.data i) else fs.read? (.seg id') := by
  rw [read?_rename h (by simp)]
  simp only [FileName.seg.injEq, reduceCtorEq, if_false]

end

variable {ks : List Entry}

theorem OnDisk.replaced {d : Disk} (h : OnDisk X v d) (hid : id < v.active)
    (hks : ∀ e ∈ ks, e.Valid) (htemp : d.fs.read? (.temp timestamp) = some (encodeAll X ks)) :
    OnDisk X (v.replaced id ks)
      { d with fs := d.fs.rename (.temp timestamp) (.seg id) } := by
  obtain ⟨file, hfile, hdata⟩ := map_eq_some_iff.mp htemp
  refine h.relayout le_rfl ?_ (.inr ⟨hid, rfl⟩) fun id' => ?_
  · rintro _ ⟨⟩
    exact ⟨hid.le, hks⟩
  · rw [read?_rename_temp hfile, hdata, map_some]

section

variable (h : InMemory X v s) (hid : id < v.active)

include h hid

theorem InMemory.replaced (hks : ∀ e ∈ ks, e.Valid)
    (htemp : s.disk.fs.read? (.temp timestamp) = some (encodeAll X ks))
    (htracked : s.globalMeta.segments[id]? ≠ none) :
    InMemory X (v.replaced id ks)
      { s with
        disk := { s.disk with fs := s.disk.fs.rename (.temp timestamp) (.seg id) }
        filePool := s.filePool.invalidate id } := by
  obtain ⟨file, hfile, -⟩ := map_eq_some_iff.mp htemp
  have hinode : ∀ {id'}, id' ≠ id →
      (s.disk.fs.rename (.temp timestamp) (.seg id)).inode? (.seg id') =
        s.disk.fs.inode? (.seg id') := fun hne => by
    rw [inode?_rename_temp hfile, if_neg hne]
  exact
    { h.toOnDisk.replaced hid hks htemp with
      writerId := h.writerId
      writerFile := (hinode (Nat.ne_of_gt hid)).trans h.writerFile
      writerPos := by
        rw [data_rename]
        exact h.writerPos
      writerBytes := by
        rw [data_rename]
        exact h.writerBytes
      activeId := h.activeId
      memMarks := h.memMarks
      memStats := h.memStats
      tracked := by
        intro id' es hes hne
        by_cases heq : id' = id
        · rw [heq]
          exact htracked
        · rw [layout_replaced_ne ks heq] at hes
          exact h.tracked hes hne
      pool := by
        intro p hp
        obtain ⟨hmem, hne⟩ := mem_filter.mp hp
        refine ⟨(h.pool hmem).1, fun hi => (h.pool hmem).2 ?_⟩
        rw [← hi]
        exact (hinode (by simpa using hne)).symm }

theorem InMemory.removed :
    InMemory X { v with layout := Function.update v.layout id none }
      { s with disk := { s.disk with fs := s.disk.fs.remove (.seg id) } } := by
  have hactive := Nat.ne_of_gt hid
  have hsome : ∀ {id' es}, update v.layout id none id' = some es → v.layout id' = some es := by
    intro id' es hes
    by_cases hne : id' = id
    · rw [hne, update_self] at hes
      cases hes
    · rwa [update_of_ne hne] at hes
  exact
    { h with
      toOnDisk := h.toOnDisk.relayout le_rfl (fun _ hes => by cases hes) (.inr ⟨hid, rfl⟩)
        fun id' => by simp [read?_remove]
      writerFile := by
        rw [inode?_remove, if_neg (by simpa using hactive)]
        exact h.writerFile
      tracked := fun hes hne => h.tracked (hsome hes) hne
      pool := by
        intro p hp
        refine ⟨(h.pool hp).1, fun hi => (h.pool hp).2 ?_⟩
        rw [inode?_remove] at hi
        split at hi
        · cases hi
        · exact hi }

end

theorem GlobalMeta.indexedUpTo_erase (m : GlobalMeta) (id : Nat) :
    ({ m with segments := m.segments.erase id } : GlobalMeta).indexedUpTo id = 0 := by
  simp [indexedUpTo]

theorem GlobalMeta.indexedUpTo_compacted (m : GlobalMeta) {id : Nat} (prep : GcPrepare)
    (h : m.segments[id]? ≠ none) :
    (m.modify id (Engine.compactedStats prep)).indexedUpTo id = prep.bytesAfter := by
  obtain ⟨st, hst⟩ := ne_none_iff_exists'.mp h
  rw [indexedUpTo, getElem?_modify, if_pos rfl, hst]
  rfl

variable {prep : GcPrepare}

theorem runs_updateKept (h : InMemory X (v.reindexed prep.segmentId ks) s)
    (hid : prep.segmentId < v.active) (hbytes : prep.bytesAfter = dataBytes ks)
    (hdata : dataBytes ks ≠ 0) (htracked : s.globalMeta.segments[prep.segmentId]? ≠ none) :
    Runs (Engine.gcUpdateMeta prep) s (fun _ t => InMemory X (v.committed prep.segmentId ks) t)
      (fun t => OnDisk X (v.committed prep.segmentId ks) t.disk) := by
  have hrecorded := h.rerecorded
    (m := s.globalMeta.modify prep.segmentId (compactedStats prep)) h.activeId
    (fun hne => by rw [GlobalMeta.getElem?_modify, if_neg (Ne.symm hne)])
    (fun hst => by
      rw [GlobalMeta.getElem?_modify, if_pos rfl] at hst
      obtain ⟨st', hst', rfl⟩ := map_eq_some_iff.mp hst
      exact ⟨(h.memStats hst').1, hid.le, fun _ => Nat.ne_of_lt hid⟩)
  rw [GlobalMeta.indexedUpTo_compacted _ _ htracked, hbytes] at hrecorded
  have hmem := hrecorded.2 fun _ _ => by
    rw [GlobalMeta.getElem?_modify, if_pos rfl]
    simpa using htracked
  rw [committed_of_data hdata, gcUpdateMeta, if_neg (by rw [hbytes]; exact hdata)]
  exact bind (modify (durable hmem hmem.toOnDisk))

theorem runs_updateDropped
    (h : InMemory X (v.reindexed prep.segmentId ks) s) (hid : prep.segmentId < v.active)
    (hbytes : prep.bytesAfter = dataBytes ks) (hdata : dataBytes ks = 0) :
    Runs (Engine.gcUpdateMeta prep) s (fun _ t => InMemory X (v.committed prep.segmentId ks) t)
      (fun t => OnDisk X (v.recorded prep.segmentId ks) t.disk ∨
        OnDisk X (v.committed prep.segmentId ks) t.disk) := by
  have hother : ∀ {id' : Nat}, id' ≠ prep.segmentId →
      (s.globalMeta.segments.erase prep.segmentId)[id']? = s.globalMeta.segments[id']? :=
    fun hne => by simp [Std.ExtTreeMap.getElem?_erase, Ne.symm hne]
  have hrecorded := (h.rerecorded
    (m := { s.globalMeta with segments := s.globalMeta.segments.erase prep.segmentId })
    h.activeId hother fun hst => by simp at hst).1
  have hdropped := ((h.removed hid).rerecorded
    (m := { s.globalMeta with segments := s.globalMeta.segments.erase prep.segmentId })
    h.activeId hother fun hst => by simp at hst).2 fun hes => by
      dsimp only at hes
      rw [update_self] at hes
      cases hes
  rw [indexedUpTo_erase, ← hdata] at hrecorded hdropped
  rw [committed_of_no_data hdata, gcUpdateMeta, if_pos (by rw [hbytes, hdata])]
  refine bind (modify (bind (durable ?_ (.inl hrecorded))))
  exact durable hdropped (.inr hdropped.toOnDisk)

theorem runs_gcFinish {C : Engine → Prop} {file : Nat}
    (hfile : s.disk.fs.inode? (.temp prep.tempStamp) = some file)
    (hC : C { s with disk :=
      { s.disk with fs := s.disk.fs.rename (.temp prep.tempStamp) (.seg prep.segmentId) } }) :
    Runs (gcFinish prep) s (fun _ t => t = { s with disk := { s.disk with
      fs := s.disk.fs.rename (.temp prep.tempStamp) (.seg prep.segmentId) } }) C := by
  refine bind (state ?_)
  rw [hfile]
  exact durable rfl hC

theorem runs_gcInsertKept {C : Engine → Prop} (prep : GcPrepare)
    (hC : C { s with disk := { s.disk with index := s.disk.index.insertBatch prep.keptRecords } }) :
    Runs (gcInsertKept prep) s (fun _ t => t = { s with disk := { s.disk with
      index := s.disk.index.insertBatch prep.keptRecords } }) C := by
  rw [gcInsertKept, insertBatch]
  cases hnil : prep.keptRecords with
  | nil => exact pure rfl
  | cons => exact durable rfl (hnil ▸ hC)

theorem runs_gcDeleteKeys {C : Engine → Prop} (prep : GcPrepare)
    (hC : C { s with disk := { s.disk with index := s.disk.index.deleteBatch prep.deletedKeys } }) :
    Runs (gcDeleteKeys prep) s (fun _ t => t = { s with disk := { s.disk with
      index := s.disk.index.deleteBatch prep.deletedKeys } }) C := by
  rw [gcDeleteKeys]
  cases hnil : prep.deletedKeys with
  | nil => exact pure rfl
  | cons => exact durable rfl (hnil ▸ hC)

theorem runs_gcCommit (h : InMemory X v s)
    (hp : Prepared X ks prep s) (hid : prep.segmentId < v.active) (hks : ∀ e ∈ ks, e.Valid) :
    Runs (Engine.gcCommit prep) s (fun _ t => InMemory X (v.committed prep.segmentId ks) t)
      (fun t => ∃ w, v.Committing prep.segmentId ks w ∧ OnDisk X w t.disk) := by
  have hreplaced := h.replaced hid hks hp.temp hp.tracked
  obtain ⟨file, hfile, -⟩ := map_eq_some_iff.mp hp.temp
  refine seq (runs_gcFinish hfile ⟨_, .inr (.inl rfl), hreplaced.toOnDisk⟩) ?_
  rintro _ _ rfl
  refine seq (modify (Q := fun _ t => InMemory X (v.replaced prep.segmentId ks) t ∧
    t.globalMeta = s.globalMeta) ⟨hreplaced, rfl⟩) ?_
  rintro _ t ⟨ht, hmeta⟩
  have hinsert : Runs (insertBatch (recordsOf prep.segmentId ks)) t
      (fun _ u => InMemory X (v.reindexed prep.segmentId ks) u ∧ u.globalMeta = s.globalMeta)
      (fun u => ∃ w, v.Committing prep.segmentId ks w ∧ OnDisk X w u.disk) := by
    obtain ⟨a, ha, hmem, hpassed⟩ := runs_insertBatch ht (recordsOf prep.segmentId ks)
    have hkeep : (insertBatch (recordsOf prep.segmentId ks) t).state.globalMeta = t.globalMeta := by
      rw [insertBatch]
      split <;> rfl
    exact ⟨a, ha, ⟨hmem, hkeep.trans hmeta⟩,
      fun u hu => ⟨_, .inr (.inr (.inl rfl)), hpassed u hu⟩⟩
  rw [gcInsertKept, gcDeleteKeys, hp.keptRecords, hp.deletedKeys]
  refine seq hinsert ?_
  rintro _ u ⟨hu, humeta⟩
  refine seq (pure (Q := fun _ u' => u = u') rfl) ?_
  rintro _ _ rfl
  have htracked : u.globalMeta.segments[prep.segmentId]? ≠ none := by
    rw [humeta]
    exact hp.tracked
  have hupdate : Runs (gcUpdateMeta prep) u
      (fun _ t => InMemory X (v.committed prep.segmentId ks) t)
      (fun t => ∃ w, v.Committing prep.segmentId ks w ∧ OnDisk X w t.disk) := by
    by_cases hdata : dataBytes ks = 0
    · refine (runs_updateDropped hu hid hp.bytesAfter hdata).weaken ?_
      rintro t (ht | ht)
      · exact ⟨_, .inr (.inr (.inr (.inl rfl))), ht⟩
      · exact ⟨_, .inr (.inr (.inr (.inr rfl))), ht⟩
    · exact (runs_updateKept hu hid hp.bytesAfter hdata htracked).weaken
        fun t ht => ⟨_, .inr (.inr (.inr (.inr rfl))), ht⟩
  exact seq hupdate fun _ t ht => pure ht

theorem runs_gc (h : InMemory X v s) (hv : v.Coherent) (ht : gcTarget config s = some id)
    (timestamp : Nat) :
    Runs (Engine.gc X config timestamp) s
      (fun out t => out.isSome = true ∧ InMemory X (v.compacted id) t)
      (fun t => ∃ w, v.Committing id (v.kept id) w ∧ OnDisk X w t.disk) := by
  obtain ⟨hid, -, -⟩ := h.gcTarget ht
  refine seq ((runs_gcPrepare h hv.sound ht timestamp).weaken fun t ht => ⟨v, .inl rfl, ht⟩) ?_
  rintro _ t ⟨prep, rfl, rfl, hmem, hp⟩
  exact seq (runs_gcCommit hmem hp hid hv.valid_kept) fun _ t ht => pure ⟨rfl, ht⟩

theorem gc_of_target_none (X : Extern) (ht : gcTarget config s = none) (timestamp : Nat) :
    Engine.gc X config timestamp s = ⟨.ok none, s, []⟩ := by
  have hprepare := gcPrepare_of_target_none X ht timestamp
  rw [gc, Prog.bind_of_ok (by rw [hprepare]), hprepare]
  rfl

end

end Bichon.Blob
