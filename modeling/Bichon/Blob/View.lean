import Bichon.Blob.Gc

/-!
# The store as a log

`View` forgets bytes, files and caches: it is the list of entries of every
segment, the table of the index, the offset up to which each segment is recorded
as indexed, and the id of the active segment. `OnDisk X v d` and `InMemory X v s`
tie it to the directory and to the running engine, and `get_eq_lookup` says that a
read is a function of the view. The effect of every operation is stated once, as a
change of the view, and everything about histories is then argued on views.
-/

namespace Bichon.Blob

open ByteFile LastWrite Durable

structure View where
  layout : Nat → Option (List Entry)
  table : Key → Option IndexRecord
  marks : Nat → Nat
  active : Nat

/-! ## Offsets in a list of entries -/

variable {base offset : Nat} {e : Entry} {es : List Entry}

theorem mem_of_mem_offsetsFrom (h : (e, offset) ∈ offsetsFrom base es) : e ∈ es := by
  obtain ⟨before, after, rfl, -⟩ := mem_offsetsFrom.mp h
  simp

theorem le_of_mem_offsetsFrom (h : (e, offset) ∈ offsetsFrom base es) : base ≤ offset := by
  obtain ⟨before, after, -, rfl⟩ := mem_offsetsFrom.mp h
  omega

theorem add_diskSize_le_of_mem_offsetsFrom
    (h : (e, offset) ∈ offsetsFrom base es) : offset + e.diskSize ≤ base + sizeAll es := by
  obtain ⟨before, after, rfl, rfl⟩ := mem_offsetsFrom.mp h
  simp only [sizeAll_append, sizeAll_cons]
  omega

theorem diskSize_pos (e : Entry) : 0 < e.diskSize := by
  simp only [Entry.diskSize, ENTRY_HEADER_SIZE]
  omega

theorem offsetsFrom_unique {f : Entry}
    (he : (e, offset) ∈ offsetsFrom base es) (hf : (f, offset) ∈ offsetsFrom base es) :
    e = f := by
  induction es generalizing base with
  | nil => cases he
  | cons g es ih =>
    have hlater : ∀ {h : Entry}, (h, offset) ∈ offsetsFrom (base + g.diskSize) es →
        base < offset := by
      intro h hmem
      have := le_of_mem_offsetsFrom hmem
      have := diskSize_pos g
      omega
    rw [offsetsFrom, List.mem_cons] at he hf
    rcases he with he | he <;> rcases hf with hf | hf
    · cases he
      cases hf
      rfl
    · cases he
      exact absurd (hlater hf) (Nat.lt_irrefl _)
    · cases hf
      exact absurd (hlater he) (Nat.lt_irrefl _)
    · exact ih he hf

theorem filter_offsetsFrom (before after : List Entry) :
    (offsetsFrom 0 (before ++ after)).filter (fun p => decide (sizeAll before ≤ p.2)) =
      offsetsFrom (sizeAll before) after := by
  rw [offsetsFrom_append, List.filter_append, Nat.zero_add]
  have hbefore : (offsetsFrom 0 before).filter (fun p => decide (sizeAll before ≤ p.2)) = [] := by
    rw [List.filter_eq_nil_iff]
    rintro ⟨e, offset⟩ hmem
    have := add_diskSize_le_of_mem_offsetsFrom hmem
    have := diskSize_pos e
    simp only [decide_eq_true_eq]
    omega
  have hafter : (offsetsFrom (sizeAll before) after).filter
      (fun p => decide (sizeAll before ≤ p.2)) = offsetsFrom (sizeAll before) after := by
    rw [List.filter_eq_self]
    rintro ⟨e, offset⟩ hmem
    simpa using le_of_mem_offsetsFrom hmem
  rw [hbefore, hafter, List.nil_append]

/-! ## Reading in a view -/

/-- The entry a record leads to. -/
def View.EntryOf (v : View) (record : IndexRecord) (e : Entry) : Prop :=
  ∃ es, v.layout record.segmentId = some es ∧ (e, record.offset) ∈ offsetsFrom 0 es

def View.readRecord (X : Extern) (v : View) (record : IndexRecord) :
    Except Error (Option Bytes) :=
  match v.layout record.segmentId with
  | none => .error (.segmentNotFound record.segmentId)
  | some es => do
      let found ← readEntryAtFile X record.segmentId (encodeAll X es) record.offset
      let value ← decompress X found.1.data found.1.codec found.1.rawSize.toNat
      .ok (some value)

variable {X : Extern} {v : View}

theorem View.readRecord_congr {w : View} {record : IndexRecord}
    (h : w.layout record.segmentId = v.layout record.segmentId) :
    w.readRecord X record = v.readRecord X record := by
  rw [View.readRecord, View.readRecord, h]

/-- What the table says about a key is read. -/
def View.readSlot (X : Extern) (v : View) (slot : Option IndexRecord) :
    Except Error (Option Bytes) :=
  match slot with
  | none => .ok none
  | some record => if record.isTombstone then .ok none else v.readRecord X record

def View.lookup (X : Extern) (v : View) (key : Key) : Except Error (Option Bytes) :=
  v.readSlot X (v.table key)

def Entry.value (X : Extern) (e : Entry) : Except Error (Option Bytes) := do
  let value ← decompress X e.data e.codec e.rawSize.toNat
  .ok (some value)

theorem View.readRecord_of_entryOf {record : IndexRecord}
    (h : v.EntryOf record e) (hv : e.Valid) : v.readRecord X record = e.value X := by
  obtain ⟨es, hes, hmem⟩ := h
  have hat : EntryAt X (encodeAll X es) record.offset e := by
    simpa using entryAt_of_mem_offsetsFrom [] hmem []
  simp only [View.readRecord, hes, readEntryAtFile_encode _ hat hv, ok_bind]
  rfl

/-- As long as the file of its segment exists, the record leads to the entry it was
made from. -/
def View.Leads (v : View) (record : IndexRecord) : Prop :=
  record.segmentId ≤ v.active ∧
    (v.layout record.segmentId ≠ none →
      ∃ e, v.EntryOf record e ∧ record = IndexRecord.ofEntry record.segmentId (e, record.offset))

/-- Every live record is filed under its key and leads to its entry. -/
def View.Sound (v : View) : Prop :=
  ∀ key record, v.table key = some record → record.isTombstone = false →
    record.key = key ∧ v.Leads record

/-! ## Changes of a view -/

namespace View

def activeSize (v : View) : Nat := sizeAll ((v.layout v.active).getD [])

/-- Start the next segment. -/
def roll (v : View) : View :=
  { v with
    layout := Function.update v.layout (v.active + 1) (some [])
    active := v.active + 1 }

/-- Start the next segment if the active one is full. -/
def room (v : View) : View := if SEGMENT_MAX_SIZE ≤ v.activeSize then v.roll else v

/-- Start the next segment unless the active one is empty. -/
def sealActive (v : View) : View := if v.activeSize = 0 then v else v.roll

def push (e : Entry) (v : View) : View :=
  { v with
    layout := Function.update v.layout v.active ((v.layout v.active).map (· ++ [e])) }

def insertAll (records : List IndexRecord) (v : View) : View :=
  { v with table := setAll v.table (IndexStore.updates records) }

def mark (id offset : Nat) (v : View) : View :=
  { v with marks := Function.update v.marks id (max (v.marks id) offset) }

end View

/-! ## The view and the directory -/

/-- Everything on disk but the segment files is as the view says. -/
structure Described (v : View) (d : Disk) : Prop where
  valid : ∀ {id es}, v.layout id = some es → ∀ e ∈ es, e.Valid
  table : d.index.table = v.table
  readable : d.index.readable = true
  marks : ∀ id, (d.metaBin.getD .new).indexedUpTo id = v.marks id
  pos : 1 ≤ v.active
  top : ∀ {id es}, v.layout id = some es → id ≤ v.active
  metaTop : (d.metaBin.getD .new).activeSegmentId ≤ v.active
  stats : ∀ {id st}, (d.metaBin.getD .new).segments[id]? = some st →
    st.segmentId = id ∧ id ≤ v.active
  fresh : v.layout v.active = none →
    (d.metaBin.getD .new).activeSegmentId = v.active ∧
      (d.metaBin.getD .new).segments[v.active]? = none

/-- The segment files hold the entries of the view and nothing else. -/
structure OnDisk (X : Extern) (v : View) (d : Disk) : Prop extends Described v d where
  read : ∀ id, d.fs.read? (.seg id) = (v.layout id).map (encodeAll X)

/-- The running engine: the writer stands at the end of the active segment, the
metadata in memory agrees with the saved one on what is indexed, and a pooled
handle leads to the same file as its path. -/
structure InMemory (X : Extern) (v : View) (s : Engine) : Prop extends OnDisk X v s.disk where
  writerId : s.activeWriter.id = v.active
  writerFile : s.disk.fs.inode? (.seg v.active) = some s.activeWriter.file
  writerPos : s.activeWriter.pos = (s.disk.fs.data s.activeWriter.file).length
  writerBytes : s.activeWriter.bytesWritten = (s.disk.fs.data s.activeWriter.file).length
  activeId : s.globalMeta.activeSegmentId = v.active
  memMarks : ∀ id, s.globalMeta.indexedUpTo id = v.marks id
  memStats : ∀ {id st}, s.globalMeta.segments[id]? = some st →
    st.segmentId = id ∧ id ≤ v.active ∧ (st.sealed = true → id ≠ v.active)
  tracked : ∀ {id es}, v.layout id = some es → es ≠ [] → s.globalMeta.segments[id]? ≠ none
  pool : ∀ {p}, p ∈ s.filePool →
    p.1 ≤ v.active ∧ ∀ {i}, s.disk.fs.inode? (.seg p.1) = some i → i = p.2

variable {s : Engine}

theorem InMemory.activeEntries (h : InMemory X v s) :
    ∃ es, v.layout v.active = some es ∧ s.disk.fs.data s.activeWriter.file = encodeAll X es := by
  have hread := h.read v.active
  rw [FileSystem.read?_eq_some h.writerFile] at hread
  cases hes : v.layout v.active with
  | none => simp [hes] at hread
  | some es => exact ⟨es, rfl, by simpa [hes] using hread⟩

theorem InMemory.layout_active (h : InMemory X v s) : v.layout v.active ≠ none := by
  obtain ⟨es, hes, -⟩ := h.activeEntries
  simp [hes]

/-! ## Reading through the files -/

/-- Every pooled handle of a segment leads to the file under its name. -/
def Engine.PoolCoherent (s : Engine) : Prop :=
  ∀ p ∈ s.filePool, ∀ i, s.disk.fs.inode? (.seg p.1) = some i → i = p.2

/-- Read an entry through a record from a file and decompress it. -/
def IndexRecord.readFrom (X : Extern) (record : IndexRecord) (file : Bytes) :
    Except Error (Option Bytes) := do
  let found ← readEntryAtFile X record.segmentId file record.offset
  let value ← decompress X found.1.data found.1.codec found.1.rawSize.toNat
  .ok (some value)

/-- What `get` returns, and the pool it leaves. -/
theorem get_eq (X : Extern) (key : Key) (s : Engine) :
    Engine.get X key s = match s.disk.index.get key with
      | none => ⟨.ok none, s, []⟩
      | some record => match s.disk.fs.inode? (.seg record.segmentId) with
        | none => ⟨.error (.segmentNotFound record.segmentId), s, []⟩
        | some inode =>
          ⟨record.readFrom X (s.disk.fs.data (s.filePool.get record.segmentId inode).1),
            { s with filePool := (s.filePool.get record.segmentId inode).2 }, []⟩ := by
  rw [Engine.get, Prog.state_bind]
  cases s.disk.index.get key with
  | none => rfl
  | some record =>
    dsimp only
    cases s.disk.fs.inode? (.seg record.segmentId) with
    | none => rfl
    | some inode =>
      dsimp only
      rw [Prog.modify_bind, IndexRecord.readFrom]
      cases readEntryAtFile X record.segmentId
          (s.disk.fs.data (s.filePool.get record.segmentId inode).1) record.offset with
      | error err => rfl
      | ok found =>
        rw [Prog.lift_ok_bind, ok_bind]
        cases decompress X found.1.data found.1.codec found.1.rawSize.toNat <;> rfl

/-- What reading through a record of the index gives. -/
def readAt (X : Extern) (fs : FileSystem FileName) (record : IndexRecord) :
    Except Error (Option Bytes) :=
  match fs.read? (.seg record.segmentId) with
  | none => .error (.segmentNotFound record.segmentId)
  | some file => do
      let found ← readEntryAtFile X record.segmentId file record.offset
      let value ← decompress X found.1.data found.1.codec found.1.rawSize.toNat
      .ok (some value)

theorem Engine.PoolCoherent.get (h : s.PoolCoherent) {segId inode : Nat}
    (hi : s.disk.fs.inode? (.seg segId) = some inode) :
    (s.filePool.get segId inode).1 = inode := by
  unfold FilePool.get
  cases hfind : s.filePool.find? (fun entry => entry.1 == segId) with
  | none => rfl
  | some entry =>
    have hid : entry.1 = segId := by simpa using List.find?_some hfind
    have hmem := List.mem_of_find?_eq_some hfind
    exact (h entry hmem inode (by rw [hid]; exact hi)).symm

theorem get_eq_readAt {key : Key} {record : IndexRecord} (h : s.PoolCoherent)
    (hget : s.disk.index.get key = some record) :
    (Engine.get X key s).result = readAt X s.disk.fs record := by
  rw [get_eq, hget, readAt]
  dsimp only
  cases hi : s.disk.fs.inode? (.seg record.segmentId) with
  | none => rw [FileSystem.read?_eq_none_iff.mpr hi]
  | some inode =>
    rw [FileSystem.read?_eq_some hi]
    dsimp only
    rw [h.get hi]
    rfl

theorem InMemory.poolCoherent (h : InMemory X v s) : s.PoolCoherent :=
  fun _ hp _ hi => (h.pool hp).2 hi

theorem InMemory.pool_get (h : InMemory X v s)
    {segId inode : Nat} (hi : s.disk.fs.inode? (.seg segId) = some inode) :
    (s.filePool.get segId inode).1 = inode :=
  h.poolCoherent.get hi

theorem InMemory.readAt (h : InMemory X v s) (record : IndexRecord) :
    readAt X s.disk.fs record = v.readRecord X record := by
  rw [Blob.readAt, h.read, View.readRecord]
  cases v.layout record.segmentId with
  | none | some => rfl

theorem get_eq_lookup (h : InMemory X v s) (key : Key) :
    (Engine.get X key s).result = v.lookup X key := by
  rw [View.lookup, ← h.table]
  cases htable : s.disk.index.table key with
  | none =>
    rw [get_eq, IndexStore.get, htable]
    rfl
  | some record =>
    cases ht : record.isTombstone with
    | true =>
      rw [get_eq, IndexStore.get, htable]
      simp [View.readSlot, ht]
    | false =>
      rw [get_eq_readAt h.poolCoherent (IndexStore.get_eq_some_iff.mpr ⟨htable, ht⟩), h.readAt]
      simp [View.readSlot, ht]

end Bichon.Blob
