import Bichon.Blob.OpViews

/-!
# Compaction as a change of the view

A compaction of a segment keeps the entries the index still leads to, in their
order. `View.kept` is that list, `View.committed` is the change of the view that
the second phase makes with such a list, and `View.compacted` is both phases with
nothing in between. A list whose entries hold no data at all makes the second phase
drop the segment, whether or not the list is empty.

The lemmas about `committed` take the list as it is, so that they also apply when
the view has moved on since the list was made.
-/

namespace Bichon.Blob

open ByteFile LastWrite List IndexStore IndexRecord

def dataBytes (es : List Entry) : Nat := (es.map fun e => e.data.length).sum

@[simp] theorem dataBytes_nil : dataBytes [] = 0 := rfl

@[simp] theorem dataBytes_cons (e : Entry) (es : List Entry) :
    dataBytes (e :: es) = e.data.length + dataBytes es := by
  simp [dataBytes]

@[simp] theorem dataBytes_append (es fs : List Entry) :
    dataBytes (es ++ fs) = dataBytes es + dataBytes fs := by
  simp [dataBytes]

variable {es : List Entry}

theorem dataBytes_eq_zero_iff : dataBytes es = 0 ↔ ∀ e ∈ es, e.data = [] := by
  induction es with
  | nil => simp
  | cons e es ih => simp [ih]

theorem sizeAll_eq (es : List Entry) :
    sizeAll es = ENTRY_HEADER_SIZE * es.length + dataBytes es := by
  induction es with
  | nil => rfl
  | cons e es ih =>
    rw [sizeAll_cons, dataBytes_cons, ih, length_cons, Entry.diskSize]
    ring

theorem dataBytes_lt_sizeAll (h : es ≠ []) : dataBytes es < sizeAll es := by
  have hlen := length_pos_iff.mpr h
  rw [sizeAll_eq, ENTRY_HEADER_SIZE]
  omega

def recordsOf (id : Nat) (es : List Entry) : List IndexRecord :=
  (offsetsFrom 0 es).map (IndexRecord.ofEntry id)

theorem mem_recordsOf {id : Nat} {record : IndexRecord} :
    record ∈ recordsOf id es ↔
      ∃ e offset, (e, offset) ∈ offsetsFrom 0 es ∧ record = IndexRecord.ofEntry id (e, offset) := by
  simp only [recordsOf, mem_map, Prod.exists, eq_comm]

variable {e : Entry}

theorem exists_offset_of_mem (h : e ∈ es) (base : Nat) :
    ∃ offset, (e, offset) ∈ offsetsFrom base es := by
  obtain ⟨before, after, rfl⟩ := append_of_mem h
  exact ⟨_, mem_offsetsFrom.mpr ⟨before, after, rfl, rfl⟩⟩

/-! ## The entries that are kept -/

section

variable (index : IndexStore) (target : Nat)

/-- The entry is no tombstone and the index leads to it. -/
def keeps (found : Entry × Nat) : Bool :=
  !found.1.isTombstone && isLatest index target found.1 found.2

def keptOf (visited : List (Entry × Nat)) : List Entry :=
  (visited.filter (keeps index target)).map Prod.fst

/-- The keys the index has a live record for at the place of a tombstone. -/
def staleKeys (visited : List (Entry × Nat)) : List Key := (visited.filter fun found =>
    found.1.isTombstone && isLatest index target found.1 found.2).map fun found => found.1.key

end

section

variable {index : IndexStore} {target : Nat}

theorem isLatest_iff {offset : Nat} :
    isLatest index target e offset = true ↔
      ∃ record, index.get e.key = some record ∧ record.segmentId = target ∧
        record.offset = offset := by
  unfold isLatest
  cases index.get e.key <;> simp

theorem mem_keptOf {visited : List (Entry × Nat)} :
    e ∈ keptOf index target visited ↔ e.isTombstone = false ∧
      ∃ record, index.get e.key = some record ∧ record.segmentId = target ∧
        (e, record.offset) ∈ visited := by
  rw [keptOf, mem_map]
  constructor
  · rintro ⟨⟨e', offset⟩, hmem, rfl⟩
    obtain ⟨hat, hkeeps⟩ := mem_filter.mp hmem
    rw [keeps, Bool.and_eq_true] at hkeeps
    obtain ⟨record, hget, hid, rfl⟩ := isLatest_iff.mp hkeeps.2
    exact ⟨by simpa using hkeeps.1, record, hget, hid, hat⟩
  · rintro ⟨hlive, record, hget, hid, hat⟩
    refine ⟨(e, record.offset), mem_filter.mpr ⟨hat, ?_⟩, rfl⟩
    rw [keeps, Bool.and_eq_true]
    exact ⟨by simpa using hlive, isLatest_iff.mpr ⟨record, hget, hid, rfl⟩⟩

/-- The index knows one place of a key. -/
theorem keptOf_unique {f : Entry}
    (he : e ∈ keptOf index target (offsetsFrom 0 es))
    (hf : f ∈ keptOf index target (offsetsFrom 0 es)) (hkey : f.key = e.key) : f = e := by
  obtain ⟨-, record, hget, -, hat⟩ := mem_keptOf.mp he
  obtain ⟨-, record', hget', -, hat'⟩ := mem_keptOf.mp hf
  rw [hkey, hget] at hget'
  cases hget'
  exact offsetsFrom_unique hat' hat

/-- A live record that names the segment is the record of the entry it leads to. -/
def IndexStore.Points (index : IndexStore) (target : Nat) (es : List Entry) : Prop :=
  ∀ key record e, index.get key = some record → record.segmentId = target →
    (e, record.offset) ∈ offsetsFrom 0 es →
    e.key = key ∧ record = IndexRecord.ofEntry target (e, record.offset)

theorem live_of_mem_staleKeys {key : Key}
    {visited : List (Entry × Nat)} (h : key ∈ staleKeys index target visited) :
    ∃ e record, e.key = key ∧ e.isTombstone = true ∧ index.get key = some record ∧
      record.segmentId = target ∧ (e, record.offset) ∈ visited := by
  obtain ⟨⟨e, offset⟩, hmem, rfl⟩ := mem_map.mp h
  obtain ⟨hat, hboth⟩ := mem_filter.mp hmem
  rw [Bool.and_eq_true] at hboth
  obtain ⟨record, hget, hid, rfl⟩ := isLatest_iff.mp hboth.2
  exact ⟨e, record, rfl, hboth.1, hget, hid, hat⟩

section

variable (h : index.Points target es)

include h

theorem IndexStore.Points.mem_kept {key : Key} {record : IndexRecord}
    (hget : index.get key = some record) (hid : record.segmentId = target)
    (hat : (e, record.offset) ∈ offsetsFrom 0 es) :
    e ∈ keptOf index target (offsetsFrom 0 es) := by
  obtain ⟨rfl, hrecord⟩ := h key record e hget hid hat
  have hlive := (get_eq_some_iff.mp hget).2
  rw [hrecord] at hlive
  exact mem_keptOf.mpr ⟨hlive, record, hget, hid, hat⟩

theorem IndexStore.Points.staleKeys_eq_nil : staleKeys index target (offsetsFrom 0 es) = [] := by
  rw [eq_nil_iff_forall_not_mem]
  intro key hkey
  obtain ⟨e, record, -, htomb, hget, hid, hat⟩ := live_of_mem_staleKeys hkey
  rw [(mem_keptOf.mp (h.mem_kept hget hid hat)).1] at htomb
  cases htomb

theorem IndexStore.Points.dataBytes_ne_zero_iff (hvalid : ∀ e ∈ es, e.Valid) :
    dataBytes (keptOf index target (offsetsFrom 0 es)) ≠ 0 ↔
      ∃ key record e, index.get key = some record ∧ record.segmentId = target ∧
        (e, record.offset) ∈ offsetsFrom 0 es ∧ record.dataSize ≠ 0 := by
  have hsize : ∀ {key record e}, index.get key = some record → record.segmentId = target →
      (e, record.offset) ∈ offsetsFrom 0 es → (record.dataSize = 0 ↔ e.data = []) := by
    intro key record e hget hid hat
    rw [(h _ _ _ hget hid hat).2, ← UInt32.toNat_inj]
    exact (Entry.toNat_dataSize (hvalid e (mem_of_mem_offsetsFrom hat))).symm ▸ length_eq_zero_iff
  rw [Ne, dataBytes_eq_zero_iff]
  push Not
  constructor
  · rintro ⟨e, he, hdata⟩
    obtain ⟨-, record, hget, hid, hat⟩ := mem_keptOf.mp he
    exact ⟨e.key, record, e, hget, hid, hat, mt (hsize hget hid hat).mp hdata⟩
  · rintro ⟨key, record, e, hget, hid, hat, hne⟩
    exact ⟨e, h.mem_kept hget hid hat, mt (hsize hget hid hat).mpr hne⟩

end

end

theorem map_fst_offsetsFrom (base : Nat) (es : List Entry) :
    (offsetsFrom base es).map Prod.fst = es := by
  induction es generalizing base with
  | nil => rfl
  | cons e es ih => rw [offsetsFrom, map_cons, ih]

theorem keptOf_sublist (index : IndexStore) (target base : Nat) (es : List Entry) :
    (keptOf index target (offsetsFrom base es)).Sublist es := by
  have h := (filter_sublist (l := offsetsFrom base es) (p := keeps index target)).map Prod.fst
  rwa [map_fst_offsetsFrom] at h

theorem sizeAll_le_of_sublist {ks : List Entry} (h : ks.Sublist es) : sizeAll ks ≤ sizeAll es := by
  induction h with
  | slnil => exact le_refl _
  | cons e _ ih =>
    rw [sizeAll_cons]
    omega
  | cons_cons e _ ih =>
    rw [sizeAll_cons, sizeAll_cons]
    omega

namespace View

def index (v : View) : IndexStore := { table := v.table }

def kept (v : View) (id : Nat) : List Entry := keptOf v.index id (offsetsFrom 0 (v.entriesAt id))

/-- The key has a live record that names the segment. -/
def LiveIn (v : View) (id : Nat) (key : Key) : Prop :=
  ∃ record, v.index.get key = some record ∧ record.segmentId = id

/-- The second phase: the file of the segment is replaced, the records of the new
file are inserted, and the segment is recorded as indexed up to the number of its
data bytes. When there are none it is dropped. -/
def committed (id : Nat) (ks : List Entry) (v : View) : View :=
  { v.insertAll (recordsOf id ks) with
    layout := Function.update v.layout id (if dataBytes ks = 0 then none else some ks)
    marks := Function.update v.marks id (dataBytes ks) }

def compacted (id : Nat) (v : View) : View := v.committed id (v.kept id)

section

variable {X : Extern} {v w : View} {id : Nat} {ks : List Entry}

theorem lookup_eq (v : View) (key : Key) :
    v.lookup X key =
      match v.index.get key with
      | none => .ok none
      | some record => v.readRecord X record := by
  dsimp only [lookup, IndexStore.get, index]
  cases v.table key with
  | none => rfl
  | some record =>
    by_cases ht : record.isTombstone = true
    · simp [readSlot, ht]
    · simp [readSlot, ht]

variable {e : Entry}

theorem mem_kept :
    e ∈ v.kept id ↔ e.isTombstone = false ∧
      ∃ record, v.index.get e.key = some record ∧ record.segmentId = id ∧
        (e, record.offset) ∈ offsetsFrom 0 (v.entriesAt id) :=
  mem_keptOf

theorem mem_entriesAt_of_mem_kept (h : e ∈ v.kept id) : e ∈ v.entriesAt id := by
  obtain ⟨-, record, -, -, hat⟩ := mem_kept.mp h
  exact mem_of_mem_offsetsFrom hat

variable {key : Key}

theorem entryOf_iff {record : IndexRecord} : v.EntryOf record e ↔
    (e, record.offset) ∈ offsetsFrom 0 (v.entriesAt record.segmentId) := by
  rw [EntryOf, entriesAt]
  cases v.layout record.segmentId with
  | none => simp [offsetsFrom]
  | some es => simp

theorem Sound.points (hs : v.Sound) (id : Nat) : v.index.Points id (v.entriesAt id) := by
  rintro key record e hget rfl hat
  obtain ⟨htable, hlive⟩ := get_eq_some_iff.mp hget
  obtain ⟨hkey, -, hleads⟩ := hs key record htable hlive
  obtain ⟨es, hes, -⟩ := entryOf_iff.mpr hat
  obtain ⟨f, hentry, hrecord⟩ := hleads (by simp [hes])
  rw [offsetsFrom_unique (entryOf_iff.mp hentry) hat] at hrecord
  refine ⟨?_, hrecord⟩
  rw [← hkey, hrecord]
  rfl

theorem Sound.kept_of_get (hs : v.Sound) {record : IndexRecord}
    (hget : v.index.get key = some record) (hlayout : v.layout record.segmentId ≠ none) :
    ∃ e ∈ v.kept record.segmentId, e.key = key ∧ v.EntryOf record e ∧
      record = IndexRecord.ofEntry record.segmentId (e, record.offset) := by
  obtain ⟨htable, hlive⟩ := get_eq_some_iff.mp hget
  obtain ⟨e, hentry, hrecord⟩ := (hs key record htable hlive).2.2 hlayout
  have hat := entryOf_iff.mp hentry
  have hpoints := hs.points record.segmentId
  exact ⟨e, hpoints.mem_kept hget rfl hat, (hpoints _ _ _ hget rfl hat).1, hentry, hrecord⟩

theorem liveIn_of_mem_kept (h : e ∈ v.kept id) : v.LiveIn id e.key := by
  obtain ⟨-, record, hget, hid, -⟩ := mem_kept.mp h
  exact ⟨record, hget, hid⟩

theorem Sound.liveIn_iff (hs : v.Sound) (hlayout : v.layout id ≠ none) :
    v.LiveIn id key ↔ ∃ e ∈ v.kept id, e.key = key := by
  constructor
  · rintro ⟨record, hget, rfl⟩
    obtain ⟨e, he, hkey, -⟩ := hs.kept_of_get hget hlayout
    exact ⟨e, he, hkey⟩
  · rintro ⟨e, he, rfl⟩
    exact liveIn_of_mem_kept he

/-! ## Reading after the second phase -/

variable {id' : Nat}

theorem layout_committed_ne (ks : List Entry) (h : id' ≠ id) :
    (v.committed id ks).layout id' = v.layout id' := Function.update_of_ne h _ _

theorem layout_committed_self (v : View) (id : Nat) (ks : List Entry) :
    (v.committed id ks).layout id = if dataBytes ks = 0 then none else some ks :=
  Function.update_self _ _ _

theorem mem_updates_recordsOf {slot : Option IndexRecord}
    (h : (key, slot) ∈ IndexStore.updates (recordsOf id ks)) :
    ∃ e offset, (e, offset) ∈ offsetsFrom 0 ks ∧ e.key = key ∧
      slot = some (IndexRecord.ofEntry id (e, offset)) := by
  obtain ⟨record, hrecord, heq⟩ := mem_map.mp h
  obtain ⟨e, offset, hat, rfl⟩ := mem_recordsOf.mp hrecord
  cases heq
  exact ⟨e, offset, hat, rfl, rfl⟩

/-- What the table says once the records of a file are in: the place of a key that
is in the file, and for every other key what it said before. -/
theorem setAll_recordsOf_cases (t : Key → Option IndexRecord) (id : Nat) (ks : List Entry)
    (key : Key) :
    (∃ e offset, (e, offset) ∈ offsetsFrom 0 ks ∧ e.key = key ∧
        setAll t (IndexStore.updates (recordsOf id ks)) key =
          some (IndexRecord.ofEntry id (e, offset))) ∨
      ((∀ e ∈ ks, e.key ≠ key) ∧
        setAll t (IndexStore.updates (recordsOf id ks)) key = t key) := by
  rw [setAll_apply]
  cases hlast : lastFor key (updates (recordsOf id ks)) with
  | some slot =>
    obtain ⟨e, offset, hat, hkey, rfl⟩ := mem_updates_recordsOf (mem_of_lastFor hlast)
    exact .inl ⟨e, offset, hat, hkey, rfl⟩
  | none =>
    refine .inr ⟨fun e he hkey => ?_, rfl⟩
    obtain ⟨offset, hat⟩ := exists_offset_of_mem he 0
    have hmem : (e.key, some (ofEntry id (e, offset))) ∈
        updates (recordsOf id ks) :=
      mem_map.mpr ⟨_, mem_recordsOf.mpr ⟨e, offset, hat, rfl⟩, rfl⟩
    exact lastFor_eq_none_iff.mp hlast _ hmem hkey

/-- How `w` differs from `v`: the file of the segment is replaced or dropped, and the
records of the new file are in the table. -/
structure Rewritten (id : Nat) (ks : List Entry) (v w : View) : Prop where
  active : w.active = v.active
  table : w.table = setAll v.table (updates (recordsOf id ks))
  self : w.layout id = none ∨ w.layout id = some ks
  other : ∀ {id'}, id' ≠ id → w.layout id' = v.layout id'

theorem rewritten_committed (v : View) (id : Nat) (ks : List Entry) :
    Rewritten id ks v (v.committed id ks) where
  active := rfl
  table := rfl
  self := by
    rw [layout_committed_self]
    split
    · exact .inl rfl
    · exact .inr rfl
  other := layout_committed_ne ks

section

variable (h : Rewritten id ks v w) (hlive : ∀ e ∈ ks, e.isTombstone = false)

include h hlive

theorem Rewritten.get_cases (key : Key) :
    (∃ e offset, (e, offset) ∈ offsetsFrom 0 ks ∧ e.key = key ∧
        w.index.get key = some (ofEntry id (e, offset))) ∨
      ((∀ e ∈ ks, e.key ≠ key) ∧ w.index.get key = v.index.get key) := by
  have htable := congrFun h.table key
  rcases setAll_recordsOf_cases v.table id ks key with
    ⟨e, offset, hat, hkey, hslot⟩ | ⟨hnone, hslot⟩
  · refine .inl ⟨e, offset, hat, hkey, get_eq_some_iff.mpr ⟨htable.trans hslot, ?_⟩⟩
    exact hlive e (mem_of_mem_offsetsFrom hat)
  · exact .inr ⟨hnone, get_congr (htable.trans hslot)⟩

theorem Rewritten.lookup_of_mem (hvalid : ∀ e ∈ ks, e.Valid)
    (hunique : ∀ {e f}, e ∈ ks → f ∈ ks → f.key = e.key → f = e) (he : e ∈ ks) :
    w.lookup X e.key = if w.layout id = none then .error (.segmentNotFound id) else e.value X := by
  rcases h.get_cases hlive e.key with ⟨f, offset, hat, hkey, hget⟩ | ⟨hnone, -⟩
  · obtain rfl : f = e := hunique he (mem_of_mem_offsetsFrom hat) hkey
    rw [lookup_eq, hget]
    rcases h.self with hself | hself
    · rw [if_pos hself]
      dsimp only [readRecord, ofEntry]
      rw [hself]
    · rw [if_neg (by simp [hself])]
      exact readRecord_of_entryOf ⟨ks, hself, hat⟩ (hvalid f he)
  · exact absurd rfl (hnone e he)

theorem Rewritten.lookup_of_notMem (hks : ∀ e ∈ ks, e.key ≠ key) (hdead : ¬ v.LiveIn id key) :
    w.lookup X key = v.lookup X key := by
  rcases h.get_cases hlive key with ⟨e, offset, hat, hkey, -⟩ | ⟨-, hsame⟩
  · exact absurd hkey (hks e (mem_of_mem_offsetsFrom hat))
  · rw [lookup_eq, lookup_eq, hsame]
    cases hget : v.index.get key with
    | none => rfl
    | some record => exact readRecord_congr (h.other fun hid => hdead ⟨record, hget, hid⟩)

end

/-- A key reads as the entry that is kept for it. -/
theorem Coherent.lookup_of_mem_kept (h : v.Coherent) (he : e ∈ v.kept id) :
    v.lookup X e.key = e.value X := by
  obtain ⟨-, record, hget, rfl, hat⟩ := mem_kept.mp he
  have hentry := entryOf_iff.mpr hat
  rw [lookup_eq, hget]
  exact readRecord_of_entryOf hentry (hentry.valid h.valid)

theorem Coherent.valid_kept (h : v.Coherent) : ∀ e ∈ v.kept id, e.Valid :=
  fun e he => h.valid id e (mem_entriesAt_of_mem_kept he)

theorem live_kept : ∀ e ∈ v.kept id, e.isTombstone = false := fun _ he => (mem_kept.mp he).1

/-- With nothing in between, the second phase changes what is read only by dropping a
segment that still has live keys. -/
theorem Coherent.lookup_rewritten (h : v.Coherent) (hlayout : v.layout id ≠ none)
    (hw : Rewritten id (v.kept id) v w) (key : Key) :
    (v.LiveIn id key ∧ w.lookup X key =
        if w.layout id = none then .error (.segmentNotFound id) else v.lookup X key) ∨
      (¬ v.LiveIn id key ∧ w.lookup X key = v.lookup X key) := by
  by_cases hlive : v.LiveIn id key
  · obtain ⟨e, he, rfl⟩ := (h.sound.liveIn_iff hlayout).mp hlive
    refine .inl ⟨hlive, ?_⟩
    rw [hw.lookup_of_mem live_kept h.valid_kept keptOf_unique he, h.lookup_of_mem_kept he]
  · refine .inr ⟨hlive, hw.lookup_of_notMem live_kept (fun e he hkey => ?_) hlive⟩
    exact hlive (hkey ▸ liveIn_of_mem_kept he)

theorem layout_committed_eq_none_iff (v : View) (id : Nat) (ks : List Entry) :
    (v.committed id ks).layout id = none ↔ dataBytes ks = 0 := by
  rw [layout_committed_self]
  split <;> simp [*]

theorem Coherent.lookup_compacted (h : v.Coherent) (hlayout : v.layout id ≠ none) (key : Key) :
    (v.LiveIn id key ∧ (v.compacted id).lookup X key =
        if dataBytes (v.kept id) = 0 then .error (.segmentNotFound id) else v.lookup X key) ∨
      (¬ v.LiveIn id key ∧ (v.compacted id).lookup X key = v.lookup X key) := by
  have hcases := h.lookup_rewritten (X := X) hlayout (rewritten_committed v id (v.kept id)) key
  simpa only [layout_committed_eq_none_iff, compacted] using hcases

/-! ## The states on the way -/

/-- The file is replaced, the index still leads into the old one. -/
def replaced (id : Nat) (ks : List Entry) (v : View) : View :=
  { v with layout := Function.update v.layout id (some ks) }

theorem layout_replaced_self (v : View) (id : Nat) (ks : List Entry) :
    (v.replaced id ks).layout id = some ks := Function.update_self _ _ _

theorem layout_replaced_ne (ks : List Entry) (h : id' ≠ id) :
    (v.replaced id ks).layout id' = v.layout id' := Function.update_of_ne h _ _

theorem entriesAt_replaced_self (v : View) (id : Nat) (ks : List Entry) :
    (v.replaced id ks).entriesAt id = ks := by
  rw [entriesAt, layout_replaced_self, Option.getD_some]

theorem scanFrom_replaced_self (h : sizeAll ks < v.marks id) :
    (v.replaced id ks).scanFrom id = 0 := by
  rw [scanFrom, entriesAt_replaced_self, scanStart]
  exact if_neg (Nat.not_le.mpr h)

/-- The records are inserted, the metadata is the old one. -/
def reindexed (id : Nat) (ks : List Entry) (v : View) : View :=
  (v.replaced id ks).insertAll (recordsOf id ks)

theorem rewritten_reindexed (v : View) (id : Nat) (ks : List Entry) :
    Rewritten id ks v (v.reindexed id ks) where
  active := rfl
  table := rfl
  self := .inr (v.layout_replaced_self id ks)
  other := layout_replaced_ne ks

/-- The metadata is saved; a file that is to be dropped is still there. -/
def recorded (id : Nat) (ks : List Entry) (v : View) : View :=
  { v.reindexed id ks with marks := Function.update v.marks id (dataBytes ks) }

theorem committed_of_data (h : dataBytes ks ≠ 0) : v.committed id ks = v.recorded id ks := by
  rw [committed, if_neg h]
  rfl

theorem committed_of_no_data (h : dataBytes ks = 0) : v.committed id ks = { v.recorded id ks with
      layout := Function.update (v.recorded id ks).layout id none } := by
  rw [committed, if_pos h]
  simp only [recorded, reindexed, replaced, insertAll, Function.update_idem]

/-- What a crash in the second phase can leave. -/
def Committing (id : Nat) (ks : List Entry) (v w : View) : Prop :=
  w = v ∨ w = v.replaced id ks ∨ w = v.reindexed id ks ∨ w = v.recorded id ks ∨
    w = v.committed id ks

theorem entriesAt_of_layout_ne (h : ∀ {id'}, id' ≠ id → w.layout id' = v.layout id')
    (hne : id' ≠ id) : w.entriesAt id' = v.entriesAt id' := by
  rw [entriesAt, entriesAt, h hne]

section

variable (hw : Rewritten id ks v w) (hlive : ∀ key, v.LiveIn id key → ∃ e ∈ ks, e.key = key)

include hw hlive

theorem Sound.rewritten (hs : v.Sound) (hid : id ≤ v.active) : w.Sound := by
  intro key record hrecord hliveRecord
  rw [hw.table] at hrecord
  rcases setAll_recordsOf_cases v.table id ks key with
    ⟨e, offset, hat, hkey, hnew⟩ | ⟨hks, hold⟩
  · rw [hnew] at hrecord
    cases hrecord
    refine ⟨hkey, by rw [hw.active]; exact hid, fun hsome => ⟨e, ⟨ks, ?_, hat⟩, rfl⟩⟩
    exact hw.self.resolve_left hsome
  · rw [hold] at hrecord
    obtain ⟨hkey, hle, hleads⟩ := hs key record hrecord hliveRecord
    have hne : record.segmentId ≠ id := by
      intro heq
      obtain ⟨e, he, hekey⟩ := hlive key ⟨record, get_eq_some_iff.mpr ⟨hrecord, hliveRecord⟩, heq⟩
      exact hks e he hekey
    refine ⟨hkey, by rw [hw.active]; exact hle, fun hsome => ?_⟩
    rw [hw.other hne] at hsome
    obtain ⟨e, ⟨es, hes, hat⟩, heq⟩ := hleads hsome
    exact ⟨e, ⟨es, (hw.other hne).trans hes, hat⟩, heq⟩

theorem Coherent.rewritten (h : v.Coherent) (hid : id < v.active) (hks : ∀ e ∈ ks, e.Valid) :
    w.Coherent where
  isOpen :=
    { active := by
        rw [hw.active, hw.other (Nat.ne_of_gt hid)]
        exact h.isOpen.active
      above := by
        intro id' hid'
        rw [hw.active] at hid'
        rw [hw.other (by omega)]
        exact h.isOpen.above hid' }
  valid := by
    intro id' e he
    by_cases hne : id' = id
    · subst hne
      rcases hw.self with hnone | hsome
      · rw [entriesAt, hnone] at he
        cases he
      · rw [entriesAt, hsome] at he
        exact hks e he
    · rw [entriesAt_of_layout_ne hw.other hne] at he
      exact h.valid id' e he
  sound := h.sound.rewritten hw hlive hid.le

end

theorem Coherent.compacted (h : v.Coherent) (hid : id < v.active) (hlayout : v.layout id ≠ none) :
    (v.compacted id).Coherent :=
  h.rewritten (rewritten_committed v id _) (fun _ hkey => (h.sound.liveIn_iff hlayout).mp hkey) hid
    h.valid_kept

end

end View

end Bichon.Blob
