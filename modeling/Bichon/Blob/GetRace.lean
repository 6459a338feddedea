import Bichon.Blob.GcFrame

/-!
# Reading while a segment is compacted

`get` looks the key up in the index, takes the read lock, gets a file from the pool
and reads at the offset of the record. A compaction prepares the new file beside the
segment; its second phase renames it over the segment, forgets the pooled handle,
inserts the new records, and takes the write lock only for the metadata. `Race.next`
lets the two run step by step in any order.

A record that was looked up before the insertion and a file that was opened after the
rename do not belong together, and nothing compares the key of the entry with the key
that was asked for. `get_race`: as long as this combination does not come up, or the
entry has not moved, every interleaving returns what `get` returns before or after the
compaction.
-/

namespace Bichon.Blob

open IndexRecord

open ByteFile LastWrite Durable Transition FileSystem List Option Engine IndexStore View Prog

/-! ## The steps -/

/-- The next step of the second phase. -/
inductive GcPc where
  | finish
  | invalidate
  | insertKept
  | deleteKeys
  | updateMeta
  | removeFile
  | done
  deriving DecidableEq

/-- The next step of `get`, with what the steps before have found. -/
inductive GetPc where
  | start
  | found (record : IndexRecord)
  | checked (record : IndexRecord)
  | opened (record : IndexRecord) (inode : Nat)
  | returned (result : Except Error (Option Bytes))

/-- `get` holds the read lock from the check of the path on. -/
def GetPc.locked : GetPc → Bool
  | checked _ => true
  | opened .. => true
  | _ => false

def GetPc.result? : GetPc → Option (Except Error (Option Bytes))
  | returned result => some result
  | _ => none

/-- The change of the metadata and its save, under the write lock. -/
def Engine.gcSaveMeta (prep : GcPrepare) : EngineM Unit :=
  if prep.bytesAfter = 0 then do
    modifyMeta fun m => { m with segments := m.segments.erase prep.segmentId }
    save
  else do
    modifyMeta fun m => m.modify prep.segmentId (compactedStats prep)
    save

/-- A step of the second phase; `locked` says whether a reader holds the lock. -/
def stepGc (prep : GcPrepare) (locked : Bool) (s : Engine) : GcPc → Option (Engine × GcPc)
  | .finish =>
    match (Engine.gcFinish prep s).result with
    | .ok _ => some ((Engine.gcFinish prep s).state, .invalidate)
    | .error _ => some (s, .done)
  | .invalidate => some ((Engine.gcInvalidate prep s).state, .insertKept)
  | .insertKept => some ((Engine.gcInsertKept prep s).state, .deleteKeys)
  | .deleteKeys => some ((Engine.gcDeleteKeys prep s).state, .updateMeta)
  | .updateMeta =>
    if locked then
      none
    else
      some ((Engine.gcSaveMeta prep s).state,
        if prep.bytesAfter = 0 then .removeFile else .done)
  | .removeFile => some ((Engine.removeSegment prep.segmentId s).state, .done)
  | .done => none

def stepGet (X : Extern) (key : Key) (s : Engine) : GetPc → Option (Engine × GetPc)
  | .start =>
    match s.disk.index.get key with
    | none => some (s, .returned (.ok none))
    | some record => some (s, .found record)
  | .found record =>
    match s.disk.fs.inode? (.seg record.segmentId) with
    | none => some (s, .returned (.error (.segmentNotFound record.segmentId)))
    | some _ => some (s, .checked record)
  | .checked record =>
    -- a pooled handle is used without another look at the path
    match s.filePool.find? (fun entry => entry.1 == record.segmentId),
        s.disk.fs.inode? (.seg record.segmentId) with
    | none, none => some (s, .returned (.error (.io .notFound)))
    | none, some inode =>
      let opened := s.filePool.get record.segmentId inode
      some ({ s with filePool := opened.2 }, .opened record opened.1)
    | some pooled, _ =>
      let opened := s.filePool.get record.segmentId pooled.2
      some ({ s with filePool := opened.2 }, .opened record opened.1)
  | .opened record inode => some (s, .returned (record.readFrom X (s.disk.fs.data inode)))
  | .returned _ => none

/-- The compaction is in its first phase, or in the second one with what the first has
prepared. -/
inductive Race where
  | preparing (s : Engine) (getPc : GetPc)
  | committing (prep : GcPrepare) (gcPc : GcPc) (s : Engine) (getPc : GetPc)

def Race.getPc : Race → GetPc
  | preparing _ getPc => getPc
  | committing _ _ _ getPc => getPc

inductive Party where
  | gc
  | get

/-- The first phase only reads what `get` reads and is one step. Where it finds nothing
to do, no compaction commits. -/
def Race.next (X : Extern) (config : Config) (timestamp : Nat) (key : Key) :
    Race → Party → Option Race
  | .preparing s getPc, .gc =>
    match (Engine.gcPrepare X config timestamp s).result with
    | .ok (some prep) =>
      some (.committing prep .finish (Engine.gcPrepare X config timestamp s).state getPc)
    | _ => none
  | .preparing s getPc, .get =>
    (stepGet X key s getPc).map fun out => .preparing out.1 out.2
  | .committing prep gcPc s getPc, .gc =>
    (stepGc prep getPc.locked s gcPc).map fun out => .committing prep out.2 out.1 getPc
  | .committing prep gcPc s getPc, .get =>
    (stepGet X key s getPc).map fun out => .committing prep gcPc out.1 out.2

/-! ## One party alone -/

theorem gcUpdateMeta_eq (prep : GcPrepare) (s : Engine) :
    (Engine.gcUpdateMeta prep s).state =
      if prep.bytesAfter = 0 then
        (Engine.removeSegment prep.segmentId (Engine.gcSaveMeta prep s).state).state
      else
        (Engine.gcSaveMeta prep s).state := by
  rw [gcUpdateMeta, gcSaveMeta]
  by_cases hzero : prep.bytesAfter = 0
  · simp only [if_pos hzero]
    rfl
  · simp only [if_neg hzero]

theorem gcCommit_of_finish {prep : GcPrepare} {s : Engine}
    (h : (Engine.gcFinish prep s).result = .ok ()) :
    (∃ stats, (Engine.gcCommit prep s).result = .ok stats) ∧
      (Engine.gcCommit prep s).state =
        (Engine.gcUpdateMeta prep (Engine.gcDeleteKeys prep (Engine.gcInsertKept prep
          (Engine.gcInvalidate prep (Engine.gcFinish prep s).state).state).state).state).state := by
  have hinsert : ∀ t, (gcInsertKept prep t).result = .ok () := fun t =>
    (runs_gcInsertKept (C := fun _ => True) prep trivial).choose_spec.1
  have hdelete : ∀ t, (gcDeleteKeys prep t).result = .ok () := fun t =>
    (runs_gcDeleteKeys (C := fun _ => True) prep trivial).choose_spec.1
  have hupdate : ∀ t, (gcUpdateMeta prep t).result = .ok () := by
    intro t
    rw [gcUpdateMeta]
    split <;> rfl
  rw [gcCommit, bind_of_ok h, gcInvalidate, modify_bind,
    bind_of_ok (hinsert _), bind_of_ok (hdelete _), bind_of_ok (hupdate _)]
  exact ⟨⟨_, rfl⟩, rfl⟩

theorem race_get_alone (X : Extern) (config : Config) (timestamp : Nat) (key : Key) (s : Engine) :
    ∃ n, runFrom (Race.next X config timestamp key) (.preparing s .start)
        (List.replicate n .get) =
      some (.preparing (Engine.get X key s).state (.returned (Engine.get X key s).result)) := by
  cases hget : s.disk.index.get key with
  | none =>
    refine ⟨1, ?_⟩
    simp [runFrom, replicate, Race.next, stepGet, get_eq, hget]
  | some record =>
    cases hi : s.disk.fs.inode? (.seg record.segmentId) with
    | none =>
      refine ⟨2, ?_⟩
      simp [runFrom, replicate, Race.next, stepGet, get_eq, hget, hi]
    | some inode =>
      refine ⟨4, ?_⟩
      cases hfind : s.filePool.find? (fun entry => entry.1 == record.segmentId) with
      | none => simp [runFrom, replicate, Race.next, stepGet, get_eq, hget, hi, hfind]
      | some pooled =>
        have hpool : s.filePool.get record.segmentId pooled.2 =
            s.filePool.get record.segmentId inode := by
          rw [FilePool.get, FilePool.get, hfind]
        simp [runFrom, replicate, Race.next, stepGet, get_eq, hget, hi, hfind, hpool]

/-! ## What holds while both run -/

def GcPc.renamed : GcPc → Bool
  | finish => false
  | _ => true

def GcPc.invalidated : GcPc → Bool
  | finish => false
  | invalidate => false
  | _ => true

def GcPc.inserted : GcPc → Bool
  | finish => false
  | invalidate => false
  | insertKept => false
  | _ => true

/-- The condition on a step: a file of the segment that is opened after the rename is
still there and is read through a record of the new file. -/
def ReadsCurrent : Race → Party → Prop
  | .committing prep gcPc s getPc, .get =>
    match getPc with
    | .checked record =>
      record.segmentId = prep.segmentId → gcPc.renamed = true →
        s.filePool.find? (fun entry => entry.1 == record.segmentId) = none →
          record ∈ prep.keptRecords ∧ (s.disk.fs.inode? (.seg record.segmentId)).isSome = true
    | _ => True
  | _, _ => True

instance : (r : Race) → (party : Party) → Decidable (ReadsCurrent r party)
  | .preparing .., _ => isTrue trivial
  | .committing .., .gc => isTrue trivial
  | .committing _ _ _ (.checked _), .get =>
    inferInstanceAs (Decidable (_ = _ → _ = _ → _ = _ → _ ∈ _ ∧ _ = _))
  | .committing _ _ _ .start, .get => isTrue trivial
  | .committing _ _ _ (.found _), .get => isTrue trivial
  | .committing _ _ _ (.opened ..), .get => isTrue trivial
  | .committing _ _ _ (.returned _), .get => isTrue trivial

/-- What the second phase starts from. -/
structure Compacting (X : Extern) (v : View) (id : Nat) (prep : GcPrepare) (s : Engine) : Prop
    extends InMemory X v s where
  prepared : Prepared X (v.kept id) prep s
  coherent : v.Coherent
  segmentId : prep.segmentId = id
  layout : v.layout id ≠ none

/-- The record is the one the index had, or has once the records are inserted. -/
def FoundBy (v : View) (id : Nat) (key : Key) (inserted : Bool) (record : IndexRecord) : Prop :=
  v.index.get key = some record ∨ (inserted = true ∧ (v.compacted id).index.get key = some record)

/-- What `get` has done so far was right; `s` is the engine before the second phase. -/
def GetPc.Fits (X : Extern) (v : View) (id : Nat) (key : Key) (s : Engine) (inserted : Bool) :
    GetPc → Prop
  | start => True
  | found record => FoundBy v id key inserted record
  | checked record => FoundBy v id key inserted record ∧
      (record.segmentId ≠ id → v.layout record.segmentId ≠ none)
  | opened record inode => record.readFrom X (s.disk.fs.data inode) = v.lookup X key
  | returned result => result = v.lookup X key ∨ result = (v.compacted id).lookup X key

def GetPc.hasOpened : GetPc → Bool
  | opened .. => true
  | returned _ => true
  | _ => false

/-- What the next step of the second phase needs. -/
def GcPc.Ready (v : View) (id : Nat) (prep : GcPrepare) (s t : Engine) : GcPc → Prop
  | finish => t.disk.fs.inode? (.temp prep.tempStamp) = s.disk.fs.inode? (.temp prep.tempStamp)
  | removeFile => dataBytes (v.kept id) = 0
  | _ => True

/-- How the engine `t` in the second phase differs from the engine `s` before it. -/
structure SecondPhase (X : Extern) (v : View) (id : Nat) (prep : GcPrepare) (key : Key)
    (s : Engine) (gcPc : GcPc) (t : Engine) (getPc : GetPc) : Prop where
  data : t.disk.fs.data = s.disk.fs.data
  other : ∀ id', id' ≠ id → t.disk.fs.inode? (.seg id') = s.disk.fs.inode? (.seg id')
  self : t.disk.fs.inode? (.seg id) =
      (if gcPc.renamed then s.disk.fs.inode? (.temp prep.tempStamp)
        else s.disk.fs.inode? (.seg id)) ∨
    (t.disk.fs.inode? (.seg id) = none ∧ gcPc.renamed = true ∧ dataBytes (v.kept id) = 0)
  index : t.disk.index = if gcPc.inserted then (v.compacted id).index else v.index
  pool : getPc.hasOpened = false → t.filePool =
    if gcPc.invalidated then s.filePool.invalidate id else s.filePool
  get : getPc.Fits X v id key s gcPc.inserted
  next : gcPc.Ready v id prep s t

section

variable {X : Extern} {v : View} {id : Nat} {prep : GcPrepare} {key : Key} {s t t' : Engine}
  {gcPc gcPc' : GcPc} {getPc getPc' : GetPc} {record : IndexRecord} {inserted : Bool}

/-! ### What the steps of the compaction keep -/

theorem Compacting.index_insert (h : Compacting X v id prep s) :
    s.disk.index.insertBatch prep.keptRecords = (v.compacted id).index := by
  have htable : (s.disk.index.insertBatch prep.keptRecords).table = (v.compacted id).table := by
    rw [table_insertBatch, h.prepared.keptRecords, h.segmentId, h.table]
    rfl
  have hreadable : (s.disk.index.insertBatch prep.keptRecords).readable = true := by
    rw [readable_insertBatch, h.readable]
  rw [index, ← htable, ← hreadable]

theorem FoundBy.mono (h : FoundBy v id key inserted record) : FoundBy v id key true record :=
  h.imp_right fun h => ⟨rfl, h.2⟩

theorem GetPc.Fits.mono (h : getPc.Fits X v id key s inserted) : getPc.Fits X v id key s true := by
  cases getPc with
  | start => trivial
  | found record => exact FoundBy.mono h
  | checked record => exact ⟨FoundBy.mono h.1, h.2⟩
  | opened | returned => exact h

theorem gcInsertKept_state (prep : GcPrepare) (s : Engine) :
    (Engine.gcInsertKept prep s).state = { s with disk := { s.disk with
      index := s.disk.index.insertBatch prep.keptRecords } } := by
  obtain ⟨_, -, hstate, -⟩ := runs_gcInsertKept (C := fun _ => True) (s := s) prep trivial
  exact hstate

theorem gcSaveMeta_state (prep : GcPrepare) (s : Engine) :
    ∃ m, (Engine.gcSaveMeta prep s).state =
      { s with disk := { s.disk with metaBin := some m }, globalMeta := m } := by
  rw [gcSaveMeta]
  split
  · exact ⟨_, rfl⟩
  · exact ⟨_, rfl⟩

theorem SecondPhase.finish (h : SecondPhase X v id prep key s .finish t getPc)
    (hc : Compacting X v id prep s) :
    SecondPhase X v id prep key s .invalidate { t with disk := { t.disk with
      fs := t.disk.fs.rename (.temp prep.tempStamp) (.seg id) } } getPc := by
  obtain ⟨j, hj, -⟩ := map_eq_some_iff.mp hc.prepared.temp
  have hinode := inode?_rename_temp (h.next.trans hj) id
  exact { h with
    data := by
      rw [← h.data]
      funext i
      exact data_rename _ _ _ i
    other := fun id' hne => by
      rw [← h.other id' hne]
      rw [hinode, if_neg hne]
    self := by
      refine .inl ?_
      rw [hinode, if_pos rfl]
      exact hj.symm
    next := trivial }

theorem SecondPhase.insertKept (h : SecondPhase X v id prep key s .insertKept t getPc)
    (hc : Compacting X v id prep s) :
    SecondPhase X v id prep key s .deleteKeys { t with disk := { t.disk with
      index := t.disk.index.insertBatch prep.keptRecords } } getPc :=
  { h with
    index := by
      have hindex : t.disk.index = s.disk.index := h.index.trans hc.index_eq.symm
      exact (congrArg (IndexStore.insertBatch prep.keptRecords) hindex).trans hc.index_insert
    get := h.get.mono
    next := trivial }

theorem SecondPhase.removeFile (h : SecondPhase X v id prep key s .removeFile t getPc) :
    SecondPhase X v id prep key s .done { t with disk := { t.disk with
      fs := t.disk.fs.remove (.seg id) } } getPc :=
  { h with
    other := fun id' hne => by
      rw [← h.other id' hne]
      rw [inode?_remove, if_neg (by simpa using hne)]
    self := by
      refine .inr ⟨?_, rfl, h.next⟩
      rw [inode?_remove, if_pos rfl]
    next := trivial }

theorem SecondPhase.stepGc (h : SecondPhase X v id prep key s gcPc t getPc)
    (hc : Compacting X v id prep s) (hstep : stepGc prep getPc.locked t gcPc = some (t', gcPc')) :
    SecondPhase X v id prep key s gcPc' t' getPc := by
  obtain rfl := hc.segmentId
  cases gcPc with
  | finish =>
    obtain ⟨j, hj, -⟩ := map_eq_some_iff.mp hc.prepared.temp
    obtain ⟨_, hresult, hstate, -⟩ := runs_gcFinish (C := fun _ => True) (h.next.trans hj) trivial
    rw [Blob.stepGc, hresult, hstate] at hstep
    cases hstep
    exact h.finish hc
  | invalidate =>
    cases hstep
    exact { h with
      pool := fun hopened => congrArg (FilePool.invalidate · prep.segmentId) (h.pool hopened)
      next := trivial }
  | insertKept =>
    rw [Blob.stepGc, gcInsertKept_state] at hstep
    cases hstep
    exact h.insertKept hc
  | deleteKeys =>
    have hstate : (gcDeleteKeys prep t).state = t := by
      rw [gcDeleteKeys, hc.prepared.deletedKeys]
      rfl
    rw [Blob.stepGc, hstate] at hstep
    cases hstep
    exact { h with next := trivial }
  | updateMeta =>
    obtain ⟨m, hstate⟩ := gcSaveMeta_state prep t
    rw [Blob.stepGc, hstate] at hstep
    split at hstep
    · cases hstep
    · cases hstep
      rw [hc.prepared.bytesAfter]
      by_cases hzero : dataBytes (v.kept prep.segmentId) = 0
      · rw [if_pos hzero]
        exact { h with next := hzero }
      · rw [if_neg hzero]
        exact { h with next := trivial }
  | removeFile =>
    cases hstep
    exact h.removeFile
  | done => cases hstep

/-! ### What the steps of `get` keep -/

/-- A record that was found leads into the segment, to an entry of the key, or it is the one
the index had. -/
theorem FoundBy.cases (h : FoundBy v id key inserted record) (hs : v.Sound)
    (hlayout : v.layout id ≠ none) :
    (record.segmentId = id ∧ v.LiveIn id key ∧ record.key = key) ∨
      (record.segmentId ≠ id ∧ v.index.get key = some record) := by
  have hfound : v.index.get key = some record ∨
      (record.segmentId = id ∧ v.LiveIn id key ∧ record.key = key) := by
    rcases h with hold | ⟨-, hnew⟩
    · exact .inl hold
    · rcases (rewritten_committed v id (v.kept id)).get_cases live_kept key with
        ⟨e, offset, hat, hkey, hget⟩ | ⟨-, hget⟩
      · cases hnew.symm.trans hget
        exact .inr ⟨rfl, hkey ▸ liveIn_of_mem_kept (mem_of_mem_offsetsFrom hat), hkey⟩
      · exact .inl (hget.symm.trans hnew)
  by_cases hid : record.segmentId = id
  · refine .inl (hfound.elim (fun hold => ⟨hid, ⟨record, hold, hid⟩, ?_⟩) fun hnew => hnew)
    obtain ⟨e, -, hkey, -, hrecord⟩ := hs.kept_of_get hold (hid ▸ hlayout)
    rw [hrecord]
    exact hkey
  · exact .inr ⟨hid, hfound.resolve_right fun hnew => hid hnew.1⟩

theorem Compacting.readFrom_kept (h : Compacting X v id prep s)
    (hrecord : record ∈ prep.keptRecords) :
    record.readFrom X (encodeAll X (v.kept id)) = v.lookup X record.key := by
  rw [h.prepared.keptRecords, h.segmentId] at hrecord
  obtain ⟨e, offset, hat, rfl⟩ := mem_recordsOf.mp hrecord
  have he := mem_of_mem_offsetsFrom hat
  have hread : EntryAt X (encodeAll X (v.kept id)) offset e := by
    simpa using entryAt_of_mem_offsetsFrom [] hat []
  have hvalid : e.Valid := h.coherent.valid_kept e he
  refine Eq.trans ?_ (h.coherent.lookup_of_mem_kept he).symm
  rw [readFrom, ofEntry]
  rw [readEntryAtFile_encode _ hread hvalid, ok_bind]
  rfl

theorem InMemory.readFrom_inode (h : InMemory X v s) (hget : v.index.get key = some record)
    {inode : Nat} (hi : s.disk.fs.inode? (.seg record.segmentId) = some inode) :
    record.readFrom X (s.disk.fs.data inode) = v.lookup X key := by
  have hread := h.read record.segmentId
  rw [read?_eq_some hi] at hread
  obtain ⟨es, hes, hdata⟩ := map_eq_some_iff.mp hread.symm
  rw [lookup_eq, hget, ← hdata]
  dsimp only
  rw [readRecord, hes]
  rfl

theorem OnDisk.inode?_eq_none_iff {d : Disk} (h : OnDisk X v d) :
    d.fs.inode? (.seg id) = none ↔ v.layout id = none := by
  rw [← read?_eq_none_iff, h.read id, map_eq_none_iff]

/-- What is read through a record whose segment has no file. -/
theorem InMemory.lookup_of_gone (h : InMemory X v s) (hget : v.index.get key = some record)
    (hgone : s.disk.fs.inode? (.seg record.segmentId) = none) :
    v.lookup X key = .error (.segmentNotFound record.segmentId) := by
  rw [lookup_eq, hget]
  dsimp only
  rw [readRecord, h.inode?_eq_none_iff.mp hgone]

theorem FilePool.get_of_find?_eq_some {pool : FilePool} {pooled : Nat × Nat} {segId : Nat}
    (h : pool.find? (fun entry => entry.1 == segId) = some pooled) (inode : Nat) :
    (pool.get segId inode).1 = pooled.2 := by
  rw [FilePool.get, h]

theorem FilePool.get_of_find?_eq_none {pool : FilePool} {segId : Nat}
    (h : pool.find? (fun entry => entry.1 == segId) = none) (inode : Nat) :
    (pool.get segId inode).1 = inode := by
  rw [FilePool.get, h]

theorem FoundBy.get (h : FoundBy v id key gcPc.inserted record)
    (hpc : gcPc.invalidated = false) : v.index.get key = some record := by
  have hlater : gcPc.inserted = true → gcPc.invalidated = true := by
    cases gcPc <;> simp [GcPc.inserted, GcPc.invalidated]
  refine h.resolve_right fun hnew => ?_
  rw [hlater hnew.1] at hpc
  cases hpc

namespace SecondPhase

section

variable (h : SecondPhase X v id prep key s gcPc t getPc)

include h

theorem foundBy
    (hget : t.disk.index.get key = some record) : FoundBy v id key gcPc.inserted record := by
  rw [h.index] at hget
  split_ifs at hget with hpc
  · exact .inr ⟨hpc, hget⟩
  · exact .inl hget

theorem lookup_of_get_eq_none (hget : t.disk.index.get key = none) : v.lookup X key = .ok none := by
  have hold : v.index.get key = none := by
    rw [h.index] at hget
    split_ifs at hget
    · rcases (rewritten_committed v id (v.kept id)).get_cases live_kept key with
        ⟨_, _, -, -, hsome⟩ | ⟨-, hsame⟩
      · cases hget.symm.trans hsome
      · exact hsame.symm.trans hget
    · exact hget
  rw [lookup_eq, hold]

section

variable (hc : Compacting X v id prep s)

include hc

theorem lookup_of_removed (hlive : v.LiveIn id key)
    (hgone : t.disk.fs.inode? (.seg id) = none) :
    (v.compacted id).lookup X key = .error (.segmentNotFound id) := by
  have hzero : dataBytes (v.kept id) = 0 := by
    rcases h.self with hself | ⟨-, -, hzero⟩
    · rw [hgone] at hself
      split_ifs at hself
      · have htemp := hc.prepared.temp
        rw [read?_eq_none_iff.mpr hself.symm] at htemp
        cases htemp
      · exact absurd (hc.inode?_eq_none_iff.mp hself.symm) hc.layout
    · exact hzero
  rcases hc.coherent.lookup_compacted (X := X) hc.layout key with ⟨-, hlookup⟩ | ⟨hdead, -⟩
  · rw [hlookup, if_pos hzero]
  · exact absurd hlive hdead

end

/-- A pooled handle is one the pool had before, and of the segment only as long as it
was not forgotten. -/
theorem of_mem_filePool
    (hopened : getPc.hasOpened = false) {pooled : Nat × Nat} (hmem : pooled ∈ t.filePool) :
    pooled ∈ s.filePool ∧ (pooled.1 = id → gcPc.invalidated = false) := by
  rw [h.pool hopened] at hmem
  split_ifs at hmem with hpc
  · rw [FilePool.invalidate, mem_filter] at hmem
    exact ⟨hmem.1, fun hid => by simp [hid] at hmem⟩
  · exact ⟨hmem, fun _ => Bool.eq_false_iff.mpr hpc⟩

end

section

variable (h : SecondPhase X v id prep key s gcPc t (.checked record))
  (hc : Compacting X v id prep s)

include h hc

theorem readFrom_pooled {pooled : Nat × Nat}
    (hfind : t.filePool.find? (fun entry => entry.1 == record.segmentId) = some pooled) :
    record.readFrom X (s.disk.fs.data pooled.2) = v.lookup X key := by
  obtain ⟨hfound, hother⟩ := h.get
  have hid : pooled.1 = record.segmentId := by simpa using find?_some hfind
  obtain ⟨hmem, hpc⟩ := h.of_mem_filePool rfl (mem_of_find?_eq_some hfind)
  have hget : v.index.get key = some record ∧ v.layout record.segmentId ≠ none := by
    rcases hfound.cases hc.coherent.sound hc.layout with ⟨hself, -⟩ | ⟨hself, hget⟩
    · refine ⟨hfound.get (hpc (hid.trans hself)), ?_⟩
      rw [hself]
      exact hc.layout
    · exact ⟨hget, hother hself⟩
  obtain ⟨i, hi⟩ := ne_none_iff_exists'.mp (mt hc.inode?_eq_none_iff.mp hget.2)
  have hhandle := (hc.pool hmem).2 (hid ▸ hi)
  rw [← hhandle]
  exact hc.readFrom_inode hget.1 hi

theorem readFrom_opened {inode : Nat}
    (hguard : record.segmentId = prep.segmentId → gcPc.renamed = true → record ∈ prep.keptRecords)
    (hi : t.disk.fs.inode? (.seg record.segmentId) = some inode) :
    record.readFrom X (s.disk.fs.data inode) = v.lookup X key := by
  obtain ⟨hfound, -⟩ := h.get
  rcases hfound.cases hc.coherent.sound hc.layout with ⟨hself, -, hkey⟩ | ⟨hself, hget⟩
  · rw [hself] at hi
    rcases h.self with hinode | ⟨hgone, -⟩
    · rw [hi] at hinode
      split_ifs at hinode with hpc
      · have hkept := hguard (hself.trans hc.segmentId.symm) hpc
        have htemp := hc.prepared.temp
        rw [read?_eq_some hinode.symm, some.injEq] at htemp
        rw [htemp, hc.readFrom_kept hkept, hkey]
      · have hpc : gcPc.invalidated = false := by
          cases gcPc <;> first | rfl | exact absurd rfl hpc
        refine hc.readFrom_inode (hfound.get hpc) ?_
        rw [hself]
        exact hinode.symm
    · rw [hgone] at hi
      cases hi
  · rw [h.other _ hself] at hi
    exact hc.readFrom_inode hget hi

theorem inode?_ne_none
    (hguard : record.segmentId = prep.segmentId → gcPc.renamed = true →
      t.disk.fs.inode? (.seg record.segmentId) ≠ none) :
    t.disk.fs.inode? (.seg record.segmentId) ≠ none := by
  by_cases hself : record.segmentId = id
  · by_cases hpc : gcPc.renamed = true
    · exact hguard (hself.trans hc.segmentId.symm) hpc
    · rw [hself]
      rcases h.self with hinode | ⟨-, hrenamed, -⟩
      · rw [hinode, if_neg hpc]
        exact mt hc.inode?_eq_none_iff.mp hc.layout
      · exact absurd hrenamed hpc
  · rw [h.other _ hself]
    exact mt hc.inode?_eq_none_iff.mp (h.get.2 hself)

end

theorem withGet (h : SecondPhase X v id prep key s gcPc t getPc) {pool : FilePool}
    (hpool : getPc'.hasOpened = false → getPc.hasOpened = false ∧ pool = t.filePool)
    (hget : getPc'.Fits X v id key s gcPc.inserted) :
    SecondPhase X v id prep key s gcPc { t with filePool := pool } getPc' :=
  { h with
    pool := fun hopened => (hpool hopened).2.trans (h.pool (hpool hopened).1)
    get := hget }

theorem stepGet (h : SecondPhase X v id prep key s gcPc t getPc) (hc : Compacting X v id prep s)
    (hguard : ReadsCurrent (.committing prep gcPc t getPc) .get)
    (hstep : stepGet X key t getPc = some (t', getPc')) :
    SecondPhase X v id prep key s gcPc t' getPc' := by
  cases getPc with
  | start =>
    rw [Blob.stepGet] at hstep
    split at hstep
    · rename_i hget
      cases hstep
      exact h.withGet (fun hopened => by cases hopened) (.inl (h.lookup_of_get_eq_none hget).symm)
    · rename_i hget
      cases hstep
      exact h.withGet (fun _ => ⟨rfl, rfl⟩) (h.foundBy hget)
  | found record =>
    have hfound := h.get
    rw [Blob.stepGet] at hstep
    split at hstep
    · rename_i hgone
      cases hstep
      refine h.withGet (fun hopened => by cases hopened) ?_
      rcases hfound.cases hc.coherent.sound hc.layout with ⟨hself, hlive, -⟩ | ⟨hself, hget⟩
      · rw [hself] at hgone ⊢
        exact .inr (h.lookup_of_removed hc hlive hgone).symm
      · rw [h.other _ hself] at hgone
        exact .inl (hc.lookup_of_gone hget hgone).symm
    · rename_i hi
      cases hstep
      refine h.withGet (fun _ => ⟨rfl, rfl⟩) ⟨hfound, fun hself hnone => ?_⟩
      rw [h.other _ hself, hc.inode?_eq_none_iff.mpr hnone] at hi
      cases hi
  | checked record =>
    have hpresent := fun hid hpc hfind => isSome_iff_ne_none.mp (hguard hid hpc hfind).2
    rw [Blob.stepGet] at hstep
    split at hstep
    · rename_i hfind hgone
      exact absurd hgone (h.inode?_ne_none hc fun hid hpc => hpresent hid hpc hfind)
    · rename_i inode hfind hi
      cases hstep
      refine h.withGet (fun hopened => by cases hopened) ?_
      rw [GetPc.Fits, FilePool.get_of_find?_eq_none hfind]
      exact h.readFrom_opened hc (fun hid hpc => (hguard hid hpc hfind).1) hi
    · rename_i pooled hfind
      cases hstep
      refine h.withGet (fun hopened => by cases hopened) ?_
      rw [GetPc.Fits, FilePool.get_of_find?_eq_some hfind]
      exact h.readFrom_pooled hc hfind
  | opened record inode =>
    cases hstep
    refine h.withGet (fun hopened => by cases hopened) (.inl ?_)
    rw [h.data]
    exact h.get
  | returned result => cases hstep

end SecondPhase

/-! ### The first phase -/

/-- What `get` has done before the second phase. -/
def GetPc.Early (X : Extern) (v : View) (key : Key) (s : Engine) : GetPc → Prop
  | start => True
  | found record => v.index.get key = some record
  | checked record => v.index.get key = some record ∧ v.layout record.segmentId ≠ none
  | opened record inode => v.index.get key = some record ∧
      s.disk.fs.inode? (.seg record.segmentId) = some inode
  | returned result => result = v.lookup X key

theorem GetPc.Early.stepGet (h : getPc.Early X v key s) (hmem : InMemory X v s)
    (hstep : stepGet X key s getPc = some (t, getPc')) :
    t.disk = s.disk ∧ t.globalMeta = s.globalMeta ∧ InMemory X v t ∧ getPc'.Early X v key t := by
  cases getPc with
  | start =>
    rw [Blob.stepGet, hmem.index_eq] at hstep
    split at hstep
    · rename_i hget
      cases hstep
      refine ⟨rfl, rfl, hmem, ?_⟩
      rw [GetPc.Early, lookup_eq, hget]
    · rename_i hget
      cases hstep
      exact ⟨rfl, rfl, hmem, hget⟩
  | found record =>
    rw [Blob.stepGet] at hstep
    split at hstep
    · rename_i hgone
      cases hstep
      exact ⟨rfl, rfl, hmem, (hmem.lookup_of_gone h hgone).symm⟩
    · rename_i hi
      cases hstep
      refine ⟨rfl, rfl, hmem, h, fun hnone => ?_⟩
      rw [hmem.inode?_eq_none_iff.mpr hnone] at hi
      cases hi
  | checked record =>
    obtain ⟨i, hi⟩ := ne_none_iff_exists'.mp (mt hmem.inode?_eq_none_iff.mp h.2)
    have hopen : t = { s with filePool := (s.filePool.get record.segmentId i).2 } ∧
        getPc' = .opened record (s.filePool.get record.segmentId i).1 := by
      rw [Blob.stepGet, hi] at hstep
      split at hstep
      · rename_i hnone
        cases hnone
      · rename_i hsome
        cases hsome
        cases hstep
        exact ⟨rfl, rfl⟩
      · rename_i pooled hfind
        cases hstep
        rw [FilePool.get, FilePool.get, hfind]
        exact ⟨rfl, rfl⟩
    obtain ⟨rfl, rfl⟩ := hopen
    refine ⟨rfl, rfl, hmem.openPooled hi, h.1, ?_⟩
    rw [hmem.pool_get hi]
    exact hi
  | opened record inode =>
    cases hstep
    exact ⟨rfl, rfl, hmem, hmem.readFrom_inode h.1 h.2⟩
  | returned result => cases hstep

theorem GetPc.Early.fits (h : getPc.Early X v key s) (hmem : InMemory X v s) {config : Config}
    {timestamp : Nat} :
    getPc.Fits X v id key (Engine.gcPrepare X config timestamp s).state false := by
  cases getPc with
  | start => trivial
  | found | returned => exact .inl h
  | checked record => exact ⟨.inl h.1, fun _ => h.2⟩
  | opened record inode =>
    obtain ⟨fs, hfs, heq⟩ := gcPrepare_spares X config timestamp s _ mem_cons_self
    rw [GetPc.Fits, heq]
    rw [hfs.data _ inode h.2]
    exact hmem.readFrom_inode h.1 h.2

def Race.Inv (X : Extern) (config : Config) (v : View) (key : Key) (s : Engine) : Race → Prop
  | .preparing t getPc => t.disk = s.disk ∧ t.globalMeta = s.globalMeta ∧ InMemory X v t ∧
      getPc.Early X v key t
  | .committing prep gcPc t getPc => ∃ id base, gcTarget config s = some id ∧
      Compacting X v id prep base ∧ SecondPhase X v id prep key base gcPc t getPc

theorem Race.Inv.next {config : Config} {timestamp : Nat} (hv : v.Coherent) {r r' : Race}
    {party : Party} (h : r.Inv X config v key s) (hguard : ReadsCurrent r party)
    (hnext : r.next X config timestamp key party = some r') : r'.Inv X config v key s := by
  cases r with
  | preparing t getPc =>
    obtain ⟨hdisk, hmeta, hmem, hget⟩ := h
    cases party with
    | get =>
      obtain ⟨out, hstep, rfl⟩ := map_eq_some_iff.mp hnext
      obtain ⟨hdisk', hmeta', hmem', hget'⟩ := hget.stepGet hmem hstep
      exact ⟨hdisk'.trans hdisk, hmeta'.trans hmeta, hmem', hget'⟩
    | gc =>
      have htarget : gcTarget config t = gcTarget config s := by
        rw [gcTarget, gcTarget, hdisk, hmeta]
      rw [Race.next] at hnext
      cases ht : gcTarget config t with
      | none =>
        rw [gcPrepare_of_target_none X ht] at hnext
        cases hnext
      | some id =>
        obtain ⟨out, hresult, ⟨prep, rfl, hid, hmem', hprepared⟩, -⟩ :=
          runs_gcPrepare hmem hv.sound ht timestamp
        rw [hresult] at hnext
        cases hnext
        refine ⟨id, (gcPrepare X config timestamp t).state, htarget.symm.trans ht,
          ⟨hmem', hprepared, hv, hid, (hmem.gcTarget ht).2.1⟩, ?_⟩
        exact
          { data := rfl
            other := fun _ _ => rfl
            self := .inl rfl
            index := hmem'.index_eq
            pool := fun _ => rfl
            get := hget.fits hmem
            next := rfl }
  | committing prep gcPc t getPc =>
    obtain ⟨id, base, ht, hc, hphase⟩ := h
    cases party with
    | gc =>
      obtain ⟨out, hstep, rfl⟩ := map_eq_some_iff.mp hnext
      exact ⟨id, base, ht, hc, hphase.stepGc hc hstep⟩
    | get =>
      obtain ⟨out, hstep, rfl⟩ := map_eq_some_iff.mp hnext
      exact ⟨id, base, ht, hc, hphase.stepGet hc hguard hstep⟩

end

/-- In every interleaving of a `get` with a compaction whose steps meet the condition,
`get` returns what it returns before the compaction or after it. -/
theorem get_race {X : Extern} {config : Config} {steps : List Step} {s : Engine}
    (h : Reached X config steps s) (timestamp : Nat) (key : Key) {schedule : List Party} {r : Race}
    {result : Except Error (Option Bytes)}
    (hguard : Along (Race.next X config timestamp key) ReadsCurrent (.preparing s .start) schedule)
    (hrun : runFrom (Race.next X config timestamp key) (.preparing s .start) schedule = some r)
    (hresult : r.getPc.result? = some result) :
    result = (Engine.get X key s).result ∨
      result = (Engine.get X key (Engine.gc X config timestamp s).state).result := by
  obtain ⟨v, hmem, hv⟩ := h.coherent
  have hstart : (Race.preparing s .start).Inv X config v key s := ⟨rfl, rfl, hmem, trivial⟩
  have hinv : r.Inv X config v key s :=
    hguard.invariant (fun hinv hg hnext => Race.Inv.next hv hinv hg hnext) hstart hrun
  rw [get_eq_lookup hmem]
  cases r with
  | preparing t getPc =>
    cases getPc with
    | returned result' =>
      cases hresult
      exact .inl hinv.2.2.2
    | _ => cases hresult
  | committing prep gcPc t getPc =>
    cases getPc with
    | returned result' =>
      cases hresult
      obtain ⟨id, base, ht, -, hphase⟩ := hinv
      obtain ⟨_, -, ⟨-, hafter⟩, -⟩ := runs_gc hmem hv ht timestamp
      rw [get_eq_lookup hafter]
      exact hphase.get
    | _ => cases hresult

/-- The result at the end of a schedule, for evaluation. -/
def raceResult (X : Extern) (config : Config) (timestamp : Nat) (key : Key)
    (schedule : List Party) (s : Engine) : Option (Except Error (Option Bytes)) :=
  (runFrom (Race.next X config timestamp key) (.preparing s .start) schedule).bind
    fun r => r.getPc.result?

/-- `get` takes the handle before the new file is in place and reads after that. -/
theorem get_race_pooled :
    ∃ s r result, Reached reference quarterConfig keepingSteps s ∧
      runFrom (Race.next reference quarterConfig 7 (Key.fill 2)) (.preparing s .start)
        [.get, .gc, .get, .get, .gc, .gc, .gc, .get] = some r ∧
      r.getPc.result? = some result ∧
      (result = (Engine.get reference (Key.fill 2) s).result ∨
        result = (Engine.get reference (Key.fill 2)
          (Engine.gc reference quarterConfig 7 s).state).result) := by
  obtain ⟨s, hs, hguard, r, hrun, result, hr, -⟩ :
      ∃ s ∈ engineAfter reference quarterConfig keepingSteps,
        Along (Race.next reference quarterConfig 7 (Key.fill 2)) ReadsCurrent
          (.preparing s .start) [.get, .gc, .get, .get, .gc, .gc, .gc, .get] ∧
        ∃ r ∈ runFrom (Race.next reference quarterConfig 7 (Key.fill 2)) (.preparing s .start)
          [.get, .gc, .get, .get, .gc, .gc, .gc, .get], ∃ result ∈ r.getPc.result?, True := by
    decide +kernel
  have hreached := reached_freshSteps (runFrom_of_engineAfter hs)
  exact ⟨s, r, result, hreached, hrun, hr,
    get_race hreached 7 (Key.fill 2) hguard hrun hr⟩

/-- The offset of the old file is used on the new one, where it is the offset of the
entry behind: the value of another key is returned. -/
theorem get_race_other_value :
    (engineAfter reference quarterConfig (freshSteps
        [.op (.put (Key.fill 1) [1] .none),
         .op (.put (Key.fill 2) [2] .none),
         .op (.put (Key.fill 3) [3] .none),
         .op (.delete (Key.fill 1)),
         .op .sealActiveSegment])).map (fun s =>
      ((Engine.get reference (Key.fill 2) s).result.toOption,
        (Engine.get reference (Key.fill 2)
          (Engine.gc reference quarterConfig 7 s).state).result.toOption,
        (raceResult reference quarterConfig 7 (Key.fill 2)
          [.gc, .get, .gc, .gc, .get, .get, .get] s).map Except.toOption)) =
      some (some (some [2]), some (some [2]), some (some (some [3]))) := by
  decide +kernel

end Bichon.Blob
