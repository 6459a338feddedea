import Bichon.Blob.View

/-!
# The log of a view

`View.records` lists what the segments hold, in the order of the segments and of
the offsets. Appending adds at the end of this list, across the start of a new
segment too. `View.pending` is the part that recovery reads: the records behind
the marks. While an operation marks its entries one segment after the other, the
pending records are always an end of the list it appended, so that replaying them
over an index that has them already changes nothing.
-/

namespace Bichon.Blob

open ByteFile LastWrite List IndexRecord

/-! ## Places between entries -/

/-- An offset between two entries, in front of the first or behind the last. -/
def Boundary (es : List Entry) (n : Nat) : Prop :=
  ∃ before after, es = before ++ after ∧ sizeAll before = n

theorem boundary_zero (es : List Entry) : Boundary es 0 := ⟨[], es, rfl, rfl⟩

theorem boundary_sizeAll (es : List Entry) : Boundary es (sizeAll es) :=
  ⟨es, [], (append_nil es).symm, rfl⟩

variable {es : List Entry} {n : Nat}

theorem Boundary.append (h : Boundary es n) (fs : List Entry) : Boundary (es ++ fs) n := by
  obtain ⟨before, after, rfl, rfl⟩ := h
  exact ⟨before, after ++ fs, append_assoc _ _ _, rfl⟩

theorem Boundary.le_sizeAll (h : Boundary es n) : n ≤ sizeAll es := by
  obtain ⟨before, after, rfl, rfl⟩ := h
  simp

theorem Boundary.max {m : Nat} (hm : Boundary es m) (hn : Boundary es n) :
    Boundary es (max m n) := by
  rcases Nat.le_total m n with h | h
  · rwa [Nat.max_eq_right h]
  · rwa [Nat.max_eq_left h]

theorem boundary_of_mem_offsetsFrom {e : Entry} {offset : Nat}
    (h : (e, offset) ∈ offsetsFrom 0 es) : Boundary es (offset + e.diskSize) := by
  obtain ⟨before, after, rfl, rfl⟩ := mem_offsetsFrom.mp h
  exact ⟨before ++ [e], after, by simp, by simp⟩

theorem Boundary.exists_entry (h : Boundary es n)
    (hlt : n < sizeAll es) : ∃ e, (e, n) ∈ offsetsFrom 0 es := by
  obtain ⟨before, after, rfl, rfl⟩ := h
  cases after with
  | nil => simp at hlt
  | cons e after => exact ⟨e, mem_offsetsFrom.mpr ⟨before, after, rfl, by simp⟩⟩

/-! ## The records of a view -/

/-- The end of the entry a record leads to. -/
def IndexRecord.entryEnd (record : IndexRecord) : Nat :=
  Engine.entryEnd record.offset record.dataSize

theorem entryEnd_ofEntry (id : Nat) {e : Entry} (offset : Nat) (hv : e.Valid) :
    (IndexRecord.ofEntry id (e, offset)).entryEnd = offset + e.diskSize := by
  simp only [entryEnd, Engine.entryEnd, ofEntry,
    Entry.toNat_dataSize hv, Entry.diskSize, Nat.add_assoc]

theorem offset_lt_entryEnd (record : IndexRecord) : record.offset < record.entryEnd := by
  simp only [entryEnd, Engine.entryEnd, ENTRY_HEADER_SIZE]
  omega

/-- The order of the log. -/
def IndexRecord.Before (r t : IndexRecord) : Prop :=
  r.segmentId < t.segmentId ∨ (r.segmentId = t.segmentId ∧ r.entryEnd ≤ t.offset)

namespace View

section

variable (v : View)

/-- The entries of a segment; none when it has no file. -/
def entriesAt (id : Nat) : List Entry := (v.layout id).getD []

def recordsIn (id : Nat) : List IndexRecord :=
  (offsetsFrom 0 (v.entriesAt id)).map (IndexRecord.ofEntry id)

def records : List IndexRecord := (List.range (v.active + 1)).flatMap v.recordsIn

/-- Where recovery starts to read a segment. -/
def scanFrom (id : Nat) : Nat := scanStart false (v.marks id) (sizeAll (v.entriesAt id))

/-- What recovery finds. -/
def pending : List IndexRecord :=
  v.records.filter fun record => decide (v.scanFrom record.segmentId ≤ record.offset)

/-- Recovery starts to read every segment between two entries. -/
def Aligned : Prop := ∀ id, Boundary (v.entriesAt id) (v.scanFrom id)

end

/-- The active segment has a file and is the last one. -/
structure Open (v : View) : Prop where
  active : v.layout v.active ≠ none
  above : ∀ {id}, v.active < id → v.layout id = none

def Valid (v : View) : Prop := ∀ id, ∀ e ∈ v.entriesAt id, e.Valid

variable {v : View} {id : Nat} {record : IndexRecord}

theorem mem_recordsIn :
    record ∈ v.recordsIn id ↔ ∃ e offset, (e, offset) ∈ offsetsFrom 0 (v.entriesAt id) ∧
      record = IndexRecord.ofEntry id (e, offset) := by
  simp only [recordsIn, mem_map, Prod.exists, eq_comm]

theorem segmentId_of_mem_recordsIn (h : record ∈ v.recordsIn id) : record.segmentId = id := by
  obtain ⟨e, offset, -, rfl⟩ := mem_recordsIn.mp h
  rfl

theorem mem_records :
    record ∈ v.records ↔ record.segmentId ≤ v.active ∧ record ∈ v.recordsIn record.segmentId := by
  simp only [records, mem_flatMap, mem_range]
  constructor
  · rintro ⟨id, hid, hmem⟩
    rw [segmentId_of_mem_recordsIn hmem]
    exact ⟨Nat.le_of_lt_succ hid, hmem⟩
  · rintro ⟨hid, hmem⟩
    exact ⟨record.segmentId, Nat.lt_succ_of_le hid, hmem⟩

theorem entryEnd_le_of_mem_recordsIn (hv : v.Valid) (h : record ∈ v.recordsIn id) :
    record.entryEnd ≤ sizeAll (v.entriesAt id) := by
  obtain ⟨e, offset, hmem, rfl⟩ := mem_recordsIn.mp h
  rw [entryEnd_ofEntry id offset (hv id e (mem_of_mem_offsetsFrom hmem))]
  simpa using add_diskSize_le_of_mem_offsetsFrom hmem

end View

theorem offsetsFrom_pairwise (base : Nat) (es : List Entry) :
    (offsetsFrom base es).Pairwise fun p q => p.2 + p.1.diskSize ≤ q.2 := by
  induction es generalizing base with
  | nil => exact List.Pairwise.nil
  | cons e es ih =>
    refine List.Pairwise.cons ?_ (ih _)
    rintro ⟨f, offset⟩ hmem
    exact le_of_mem_offsetsFrom hmem

namespace View

variable {v : View}

theorem recordsIn_pairwise (hv : v.Valid) (id : Nat) :
    (v.recordsIn id).Pairwise IndexRecord.Before := by
  rw [recordsIn, pairwise_map]
  refine (offsetsFrom_pairwise 0 (v.entriesAt id)).imp_of_mem ?_
  rintro ⟨e, offset⟩ ⟨f, offset'⟩ he - hle
  refine .inr ⟨rfl, ?_⟩
  rw [entryEnd_ofEntry id offset (hv id e (mem_of_mem_offsetsFrom he))]
  exact hle

theorem records_pairwise (hv : v.Valid) : v.records.Pairwise IndexRecord.Before := by
  rw [records, pairwise_flatMap]
  refine ⟨fun id _ => recordsIn_pairwise hv id, ?_⟩
  refine pairwise_lt_range.imp ?_
  intro i j hij r hr t ht
  exact .inl (by rwa [segmentId_of_mem_recordsIn hr, segmentId_of_mem_recordsIn ht])

/-! ## Appending -/

/-- Append an entry, in the next segment if the active one is full. -/
def appendOne (e : Entry) (v : View) : View := v.room.push e

def recordFor (e : Entry) (v : View) : IndexRecord :=
  IndexRecord.ofEntry v.room.active (e, v.room.activeSize)

def appendAll : List Entry → View → View
  | [], v => v
  | e :: es, v => appendAll es (v.appendOne e)

def recordsFor : List Entry → View → List IndexRecord
  | [], _ => []
  | e :: es, v => v.recordFor e :: recordsFor es (v.appendOne e)

theorem entriesAt_push_active (h : v.Open) (e : Entry) :
    (v.push e).entriesAt v.active = v.entriesAt v.active ++ [e] := by
  obtain ⟨es, hes⟩ := Option.ne_none_iff_exists'.mp h.active
  simp [entriesAt, push, hes]

theorem entriesAt_push_ne (v : View) (e : Entry) {id : Nat} (h : id ≠ v.active) :
    (v.push e).entriesAt id = v.entriesAt id := by
  simp [entriesAt, push, h]

section

variable (h : v.Open)

include h

theorem entriesAt_roll (id : Nat) : v.roll.entriesAt id = v.entriesAt id := by
  by_cases hid : id = v.active + 1
  · subst hid
    simp [entriesAt, roll, h.above (Nat.lt_succ_self _)]
  · simp [entriesAt, roll, hid]

theorem open_push (e : Entry) : (v.push e).Open where
  active := by simpa [push] using h.active
  above := by
    intro id hid
    have hne : id ≠ v.active := Nat.ne_of_gt hid
    simpa [push, hne] using h.above hid

theorem open_roll : v.roll.Open where
  active := by simp [roll]
  above := by
    intro id hid
    have hlt : v.active + 1 < id := hid
    have hne : id ≠ v.active + 1 := Nat.ne_of_gt hlt
    simpa [roll, hne] using h.above (Nat.lt_of_succ_lt hlt)

theorem open_room : v.room.Open := by
  unfold room
  split
  · exact open_roll h
  · exact h

theorem open_appendOne (e : Entry) : (v.appendOne e).Open := open_push (open_room h) e

theorem records_roll : v.roll.records = v.records := by
  have hnew : v.recordsIn (v.active + 1) = [] := by
    simp [recordsIn, entriesAt, h.above (Nat.lt_succ_self _), offsetsFrom]
  have hsame : v.roll.recordsIn = v.recordsIn :=
    funext fun id => by rw [recordsIn, entriesAt_roll h, recordsIn]
  rw [records, hsame, records]
  change (range (v.active + 1 + 1)).flatMap v.recordsIn = _
  rw [range_succ, flatMap_append]
  simp [hnew]

theorem records_push (e : Entry) :
    (v.push e).records =
      v.records ++ [IndexRecord.ofEntry v.active (e, v.activeSize)] := by
  have hold : (range v.active).flatMap (v.push e).recordsIn =
      (range v.active).flatMap v.recordsIn := by
    rw [flatMap_congr]
    intro id hid
    have hne : id ≠ v.active := Nat.ne_of_lt (mem_range.mp hid)
    rw [recordsIn, entriesAt_push_ne v e hne, recordsIn]
  have hnew : (v.push e).recordsIn v.active =
      v.recordsIn v.active ++ [ofEntry v.active (e, v.activeSize)] := by
    rw [recordsIn, entriesAt_push_active h, offsetsFrom_append, map_append, Nat.zero_add]
    rfl
  have hactive : (v.push e).active = v.active := rfl
  rw [records, hactive, records, range_succ, flatMap_append, flatMap_append, hold]
  simp [hnew]

theorem records_room : v.room.records = v.records := by
  unfold room
  split
  · exact records_roll h
  · rfl

theorem records_appendOne (e : Entry) : (v.appendOne e).records = v.records ++ [v.recordFor e] := by
  rw [appendOne, records_push (open_room h), records_room h, recordFor]

theorem open_appendAll (es : List Entry) : (v.appendAll es).Open := by
  induction es generalizing v with
  | nil => exact h
  | cons e es ih => exact ih (open_appendOne h e)

theorem records_appendAll (es : List Entry) :
    (v.appendAll es).records = v.records ++ v.recordsFor es := by
  induction es generalizing v with
  | nil => simp [appendAll, recordsFor]
  | cons e es ih =>
    rw [appendAll, ih (open_appendOne h e), records_appendOne h, recordsFor]
    simp

end

theorem marks_room (v : View) : v.room.marks = v.marks := by
  unfold room
  split <;> rfl

theorem table_appendAll (es : List Entry) (v : View) : (v.appendAll es).table = v.table := by
  induction es generalizing v with
  | nil => rfl
  | cons e es ih =>
    rw [appendAll, ih, appendOne, room]
    split <;> rfl

/-! ## Marks -/

/-- Every segment is recorded as indexed up to a boundary. -/
def Marked (v : View) : Prop := ∀ id, Boundary (v.entriesAt id) (v.marks id)

/-- Every segment is recorded as indexed up to its end. -/
def Settled (v : View) : Prop := ∀ id, v.marks id = sizeAll (v.entriesAt id)

theorem Settled.marked (h : v.Settled) : v.Marked := by
  intro id
  rw [h id]
  exact boundary_sizeAll _

theorem scanFrom_le (v : View) (id : Nat) : v.scanFrom id ≤ sizeAll (v.entriesAt id) := by
  rw [scanFrom, scanStart]
  simp only [Bool.false_eq_true, if_false]
  split
  · assumption
  · exact Nat.zero_le _

theorem scanFrom_of_marked (h : v.Marked) (id : Nat) : v.scanFrom id = v.marks id := by
  rw [scanFrom, scanStart, if_neg Bool.false_ne_true, if_pos (h id).le_sizeAll]

theorem Marked.aligned (h : v.Marked) : v.Aligned := by
  intro id
  rw [scanFrom_of_marked h]
  exact h id

theorem pending_of_marked (h : v.Marked) : v.pending = v.records.filter fun record =>
      decide (v.marks record.segmentId ≤ record.offset) := by
  simp only [pending, scanFrom_of_marked h]

theorem settled_of_pending (ho : v.Open) (hm : v.Marked) (hp : v.pending = []) : v.Settled := by
  intro id
  by_contra hne
  obtain ⟨e, hmem⟩ := (hm id).exists_entry (lt_of_le_of_ne (hm id).le_sizeAll hne)
  have hid : id ≤ v.active := by
    by_contra hlt
    simp [entriesAt, ho.above (Nat.lt_of_not_le hlt), offsetsFrom] at hmem
  have hrecord : ofEntry id (e, v.marks id) ∈ v.pending := by
    rw [pending_of_marked hm, mem_filter]
    exact ⟨mem_records.mpr ⟨hid, mem_recordsIn.mpr ⟨e, _, hmem, rfl⟩⟩,
      decide_eq_true (le_refl (v.marks id))⟩
  rw [hp] at hrecord
  cases hrecord

def pendingIn (v : View) (id : Nat) : List IndexRecord :=
  (v.recordsIn id).filter fun record => decide (v.scanFrom id ≤ record.offset)

theorem pending_eq_flatMap (v : View) :
    v.pending = (List.range (v.active + 1)).flatMap v.pendingIn := by
  rw [pending, records, filter_flatMap]
  apply flatMap_congr
  intro id _
  apply filter_congr
  intro record hrecord
  rw [segmentId_of_mem_recordsIn hrecord]

theorem Settled.pending_eq_nil (hv : v.Valid) (h : v.Settled) : v.pending = [] := by
  rw [pending_of_marked h.marked, filter_eq_nil_iff]
  intro record hrecord
  have hend := entryEnd_le_of_mem_recordsIn hv (mem_records.mp hrecord).2
  have hlt := offset_lt_entryEnd record
  rw [decide_eq_true_iff, h record.segmentId]
  omega

section

variable (ho : v.Open) (h : v.Marked)

include ho h

theorem Marked.room : v.room.Marked := by
  unfold View.room
  split
  · intro id
    rw [entriesAt_roll ho]
    exact h id
  · exact h

theorem Marked.appendOne (e : Entry) : (v.appendOne e).Marked := by
  intro id
  by_cases hid : id = v.room.active
  · subst hid
    rw [View.appendOne, entriesAt_push_active (open_room ho)]
    exact (h.room ho v.room.active).append [e]
  · rw [View.appendOne, entriesAt_push_ne _ _ hid]
    exact h.room ho id

theorem pending_appendOne (e : Entry) : (v.appendOne e).pending = v.pending ++ [v.recordFor e] := by
  have hmarks : (v.appendOne e).marks = v.marks := v.marks_room
  have hlast : v.marks (v.recordFor e).segmentId ≤ (v.recordFor e).offset := by
    rw [← v.marks_room]
    exact (h.room ho v.room.active).le_sizeAll
  rw [pending_of_marked (h.appendOne ho e), pending_of_marked h, hmarks, records_appendOne ho,
    filter_append]
  simp [hlast]

theorem Marked.appendAll (es : List Entry) : (v.appendAll es).Marked := by
  induction es generalizing v with
  | nil => exact h
  | cons e es ih => exact ih (open_appendOne ho e) (h.appendOne ho e)

theorem pending_appendAll (es : List Entry) :
    (v.appendAll es).pending = v.pending ++ v.recordsFor es := by
  induction es generalizing v with
  | nil => simp [View.appendAll, recordsFor]
  | cons e es ih =>
    rw [View.appendAll, ih (open_appendOne ho e) (h.appendOne ho e), pending_appendOne ho h,
      recordsFor]
    simp

end

theorem marks_mark (v : View) (id offset id' : Nat) :
    (v.mark id offset).marks id' =
      if id' = id then max (v.marks id) offset else v.marks id' := by
  simp only [mark, Function.update_apply]

@[simp] theorem entriesAt_mark (v : View) (id offset id' : Nat) :
    (v.mark id offset).entriesAt id' = v.entriesAt id' := rfl

@[simp] theorem records_mark (v : View) (id offset : Nat) :
    (v.mark id offset).records = v.records := rfl

def markAll (ends : List (Nat × Nat)) (v : View) : View := ends.foldl (fun v p => v.mark p.1 p.2) v

theorem markAll_eq (ends : List (Nat × Nat)) (v : View) :
    v.markAll ends = { v with marks := (v.markAll ends).marks } := by
  induction ends generalizing v with
  | nil => rfl
  | cons p ends ih =>
    change (v.mark p.1 p.2).markAll ends = _
    rw [ih]
    rfl

theorem pending_mark (h : v.Marked) {id offset : Nat} (hb : Boundary (v.entriesAt id) offset) :
    (v.mark id offset).Marked ∧ (v.mark id offset).pending =
      v.pending.filter fun record =>
        decide (record.segmentId = id → offset ≤ record.offset) := by
  have hmarked : (v.mark id offset).Marked := by
    intro id'
    rw [marks_mark, entriesAt_mark]
    split
    · rename_i hid
      rw [hid]
      exact (h id).max hb
    · exact h id'
  refine ⟨hmarked, ?_⟩
  rw [pending_of_marked hmarked, pending_of_marked h, filter_filter, records_mark]
  apply filter_congr
  intro record _
  rw [← Bool.decide_and, decide_eq_decide, marks_mark]
  by_cases hid : record.segmentId = id
  · simp [hid, and_comm]
  · simp [hid]

theorem pending_markAll (h : v.Marked) {ends : List (Nat × Nat)}
    (hb : ∀ p ∈ ends, Boundary (v.entriesAt p.1) p.2) :
    (v.markAll ends).Marked ∧ (v.markAll ends).pending =
      v.pending.filter fun record =>
        decide (∀ p ∈ ends, record.segmentId = p.1 → p.2 ≤ record.offset) := by
  induction ends generalizing v with
  | nil => exact ⟨h, by simp [markAll]⟩
  | cons p ends ih =>
    obtain ⟨hmarked, hpending⟩ := pending_mark h (hb p mem_cons_self)
    obtain ⟨hmarked', hpending'⟩ := ih hmarked fun q hq => hb q (mem_cons_of_mem _ hq)
    refine ⟨hmarked', ?_⟩
    change ((v.mark p.1 p.2).markAll ends).pending = _
    rw [hpending', hpending, filter_filter]
    apply filter_congr
    intro record _
    rw [← Bool.decide_and, decide_eq_decide]
    simp only [forall_mem_cons]
    exact and_comm

end View

/-- A list of marks that covers the records and comes in the order of the segments. -/
structure Covers (records : List IndexRecord) (ends : List (Nat × Nat)) : Prop where
  sorted : ends.Pairwise fun p q => p.1 ≤ q.1
  ends_mem : ∀ p ∈ ends, ∃ record ∈ records, p = (record.segmentId, record.entryEnd)
  covered : ∀ record ∈ records, ∃ p ∈ ends,
    p.1 = record.segmentId ∧ record.entryEnd ≤ p.2

namespace View

variable {v : View}

theorem boundary_of_mem_records (hv : v.Valid) {record : IndexRecord} (h : record ∈ v.records) :
    Boundary (v.entriesAt record.segmentId) record.entryEnd := by
  obtain ⟨e, offset, hmem, heq⟩ := mem_recordsIn.mp (mem_records.mp h).2
  have hend : record.entryEnd = offset + e.diskSize := by
    rw [heq]
    exact entryEnd_ofEntry _ _ (hv _ e (mem_of_mem_offsetsFrom hmem))
  rw [hend]
  exact boundary_of_mem_offsetsFrom hmem

theorem pending_sublist (v : View) : v.pending.Sublist v.records := List.filter_sublist

variable {ends : List (Nat × Nat)}

theorem Covers.boundary (hv : v.Valid)
    (hc : Covers v.pending ends) : ∀ p ∈ ends, Boundary (v.entriesAt p.1) p.2 := by
  intro p hp
  obtain ⟨record, hrecord, rfl⟩ := hc.ends_mem p hp
  exact boundary_of_mem_records hv (v.pending_sublist.subset hrecord)

theorem pending_markAll_take (hv : v.Valid) (h : v.Marked) (hc : Covers v.pending ends) (n : Nat) :
    (v.markAll (ends.take n)).Marked ∧
      (v.markAll (ends.take n)).pending <:+ v.pending := by
  have hb := Covers.boundary hv hc
  obtain ⟨hmarked, hpending⟩ := pending_markAll h fun p hp => hb p (mem_of_mem_take hp)
  refine ⟨hmarked, ?_⟩
  rw [hpending]
  apply filter_suffix_of_pairwise
  refine ((records_pairwise hv).sublist v.pending_sublist).imp_of_mem ?_
  intro r t hr _ hbefore hkept
  rw [decide_eq_true_iff] at hkept ⊢
  intro p hp hseg
  rcases hbefore with hlt | ⟨heq, hle⟩
  · -- the segment of `r` was marked to its end before the one of `t` was reached
    obtain ⟨q, hq, hqseg, hqend⟩ := hc.covered r hr
    have hqtake : q ∈ ends.take n := by
      rw [← take_append_drop n ends] at hq
      rcases mem_append.mp hq with hq | hq
      · exact hq
      · have hsorted := hc.sorted
        rw [← take_append_drop n ends, pairwise_append] at hsorted
        have := hsorted.2.2 p hp q hq
        omega
    have := hkept q hqtake hqseg.symm
    have := offset_lt_entryEnd r
    omega
  · have := hkept p hp (heq.trans hseg)
    have := offset_lt_entryEnd r
    omega

theorem settled_markAll (hv : v.Valid) (ho : v.Open) (h : v.Marked) (hc : Covers v.pending ends) :
    (v.markAll ends).Settled := by
  obtain ⟨hmarked, hpending⟩ := pending_markAll h (Covers.boundary hv hc)
  have hopen : (v.markAll ends).Open := by
    rw [markAll_eq]
    exact ⟨ho.active, ho.above⟩
  apply settled_of_pending hopen hmarked
  rw [hpending, filter_eq_nil_iff]
  intro r hr hall
  rw [decide_eq_true_iff] at hall
  obtain ⟨q, hq, hqseg, hqend⟩ := hc.covered r hr
  have := hall q hq hqseg.symm
  have := offset_lt_entryEnd r
  omega

end View

end Bichon.Blob
