import Bichon.Blob.Steps
import Bichon.Blob.Sees

/-!
# The operations as changes of the view

Every operation that writes does three things in this order: it appends entries,
it commits their records to the index, and it records the segments as indexed.
`View.write` is that, and `View.Interrupted` lists what a crash can leave of it.
The single operations only differ in the entries and in the order of the marks.
-/

namespace Bichon.Blob

open ByteFile LastWrite Durable List Engine Runs

/-! ## What is written -/

section

variable (X : Extern) (config : Config)

def putEntry (entry : Key × Bytes × Codec) : Entry :=
  let stored := compress X entry.2.1 entry.2.2 config.compressThreshold config.compressionLevel
  ⟨0, stored.2, entry.1, UInt32.ofNat entry.2.1.length, stored.1⟩

theorem valid_putEntry {entry : Key × Bytes × Codec}
    (h : entry.2.1.length ≤ MAX_VALUE_SIZE) : (putEntry X config entry).Valid :=
  (length_compress_le X _ _ _ _).trans h

theorem says_putEntry {entry : Key × Bytes × Codec} (h : entry.2.1.length ≤ MAX_VALUE_SIZE) :
    (putEntry X config entry).Says X (entry.1, some entry.2.1) := by
  have hlen : (UInt32.ofNat entry.2.1.length).toNat = entry.2.1.length := by
    simp only [MAX_VALUE_SIZE] at h
    rw [UInt32.toNat_ofNat']
    omega
  refine ⟨rfl, ?_⟩
  have hlive : (putEntry X config entry).isTombstone = false := rfl
  rw [hlive, if_neg Bool.false_ne_true, Entry.value]
  simp only [putEntry, hlen, decompress_compress]
  rfl

end

theorem made_putEntry (X : Extern) (config : Config) (entry : Key × Bytes × Codec) :
    (putEntry X config entry).Made :=
  if_neg (show ¬ (0 : UInt8) = 1 by decide)

theorem made_tombstone (key : Key) : (Entry.tombstone key).Made := if_pos rfl

theorem says_tombstone (X : Extern) (key : Key) : (Entry.tombstone key).Says X (key, none) :=
  ⟨rfl, rfl⟩

/-- The ends of the entries the records lead to. -/
def markEnds (records : List IndexRecord) : List (Nat × Nat) :=
  records.map fun record => (record.segmentId, record.entryEnd)

namespace View

section

variable (es : List Entry)

/-- Append the entries, insert their records, record the ends as indexed. -/
def write (ends : List (Nat × Nat)) (v : View) : View :=
  ((v.appendAll es).insertAll (v.recordsFor es)).markAll ends

/-- What a crash can leave of the appending. -/
def Appending (v w : View) : Prop :=
  ∃ n, w = v.appendAll (es.take n) ∨ w = (v.appendAll (es.take n)).roll

/-- What a crash can leave of a write. -/
def Interrupted (ends : List (Nat × Nat)) (v w : View) : Prop :=
  v.Appending es w ∨ ∃ n, w = ((v.appendAll es).insertAll (v.recordsFor es)).markAll (ends.take n)

theorem Appending.here (v : View) : v.Appending es v := ⟨0, .inl rfl⟩

theorem Appending.roll (v : View) : v.Appending es v.roll := ⟨0, .inr rfl⟩

end

theorem Appending.cons {es : List Entry} {e : Entry} {v w : View}
    (h : (v.appendOne e).Appending es w) : v.Appending (e :: es) w := by
  obtain ⟨n, h⟩ := h
  exact ⟨n + 1, h⟩

theorem Appending.all (es : List Entry) (v : View) : v.Appending es (v.appendAll es) :=
  ⟨es.length, .inl (by rw [take_length])⟩

end View

section

variable {X : Extern} {v : View} {s : Engine}

/-! ## Appending -/

theorem runs_accountDelete (h : InMemory X v s) (key : Key) (C : Engine → Prop) :
    Runs (Engine.accountDelete X key) s (fun _ t => InMemory X v t) C := by
  refine bind (state ?_)
  cases s.disk.index.get key with
  | none => exact pure h
  | some record =>
    dsimp only
    split
    · exact pure h
    · exact modify (h.modifyStats _ fun _ => by simp)

/-- A crash leaves one of the views on disk. -/
def Engine.Leaves (X : Extern) (P : View → Prop) (t : Engine) : Prop := ∃ w, P w ∧ OnDisk X w t.disk

theorem Engine.Leaves.imp {P Q : View → Prop} (h : ∀ w, P w → Q w) (t : Engine)
    (ht : t.Leaves X P) : t.Leaves X Q := by
  obtain ⟨w, hw, ht⟩ := ht
  exact ⟨w, h w hw, ht⟩

theorem runs_append (h : InMemory X v s) {e : Entry} (hv : e.Valid) (he : e.Made)
    (es : List Entry) :
    Runs (Engine.appendEntry X none e.key e.data e.rawSize e.flags e.codec) s
      (fun out t => out = (v.room.active, v.room.activeSize, e.dataSize) ∧
        InMemory X (v.appendOne e) t)
      (Leaves X (v.Appending (e :: es))) := by
  refine (runs_appendEntry h hv he).weaken ?_
  rintro t (ht | ht)
  · exact ⟨_, View.Appending.roll _ v, ht⟩
  · exact ⟨_, View.Appending.cons (View.Appending.here _ _), ht⟩

theorem batch_push_append (batch : Engine.Batch) (e : Entry) (v : View) (es : List Entry) :
    ((batch.push e.key (v.room.active, v.room.activeSize, e.dataSize) e.flags).1 ++
        (v.appendOne e).recordsFor es,
      (batch.push e.key (v.room.active, v.room.activeSize, e.dataSize) e.flags).2 ++
        markEnds ((v.appendOne e).recordsFor es)) =
      (batch.1 ++ v.recordsFor (e :: es), batch.2 ++ markEnds (v.recordsFor (e :: es))) :=
  Prod.ext (append_assoc batch.1 [v.recordFor e] _)
    (append_assoc batch.2 (markEnds [v.recordFor e]) _)

theorem runs_putBatchLoop (h : InMemory X v s) (config : Config)
    {entries : List (Key × Bytes × Codec)}
    (hsize : ∀ entry ∈ entries, entry.2.1.length ≤ MAX_VALUE_SIZE) (batch : Engine.Batch) :
    Runs (Engine.putBatchLoop X config noFaults entries batch) s (fun out t =>
        out = (batch.1 ++ v.recordsFor (entries.map (putEntry X config)),
          batch.2 ++ markEnds (v.recordsFor (entries.map (putEntry X config)))) ∧
        InMemory X (v.appendAll (entries.map (putEntry X config))) t)
      (Leaves X (v.Appending (entries.map (putEntry X config)))) := by
  induction entries generalizing v s batch with
  | nil => exact pure ⟨by simp [View.recordsFor, markEnds], h⟩
  | cons entry entries ih =>
    obtain ⟨key, value, codec⟩ := entry
    have hvalue : value.length ≤ MAX_VALUE_SIZE := hsize _ mem_cons_self
    rw [putBatchLoop, if_neg (Nat.not_lt.mpr hvalue)]
    have hvalid : (putEntry X config (key, value, codec)).Valid := valid_putEntry X config hvalue
    refine seq (runs_append h hvalid (made_putEntry ..) (entries.map (putEntry X config))) ?_
    rintro _ t ⟨rfl, ht⟩
    refine (ih ht (fun entry hmem => hsize entry (mem_cons_of_mem _ hmem)) _).mono ?_
      (Leaves.imp fun _ => View.Appending.cons)
    rintro out t' ⟨hout, ht'⟩
    exact ⟨hout.trans (batch_push_append batch (putEntry X config (key, value, codec)) v _), ht'⟩

theorem runs_deleteBatchLoop (h : InMemory X v s) (keys : List Key) (batch : Engine.Batch) :
    Runs (Engine.deleteBatchLoop X noFaults keys batch) s (fun out t =>
        out = (batch.1 ++ v.recordsFor (keys.map Entry.tombstone),
          batch.2 ++ markEnds (v.recordsFor (keys.map Entry.tombstone))) ∧
        InMemory X (v.appendAll (keys.map Entry.tombstone)) t)
      (Leaves X (v.Appending (keys.map Entry.tombstone))) := by
  induction keys generalizing v s batch with
  | nil => exact pure ⟨by simp [View.recordsFor, markEnds], h⟩
  | cons key keys ih =>
    refine seq (runs_accountDelete h key _) fun _ t ht => ?_
    refine seq (runs_append ht (Entry.valid_tombstone key) (made_tombstone key)
      (keys.map Entry.tombstone)) ?_
    rintro _ t' ⟨rfl, ht'⟩
    refine (ih ht' _).mono ?_ (Leaves.imp fun _ => View.Appending.cons)
    rintro out t'' ⟨hout, ht''⟩
    exact ⟨hout.trans (batch_push_append batch (Entry.tombstone key) v _), ht''⟩

/-! ## Marking -/

theorem runs_markAll (h : InMemory X v s) {ends : List (Nat × Nat)}
    (hends : ∀ p ∈ ends, v.entriesAt p.1 ≠ []) :
    Runs (Engine.markAll ends) s (fun _ t => InMemory X (v.markAll ends) t)
      (fun t => ∃ n, OnDisk X (v.markAll (ends.take n)) t.disk) := by
  induction ends generalizing v s with
  | nil => exact pure h
  | cons p ends ih =>
    obtain ⟨id, offset⟩ := p
    have hne := hends (id, offset) mem_cons_self
    cases hes : v.layout id with
    | none => simp [View.entriesAt, hes] at hne
    | some es =>
      have hnil : es ≠ [] := by simpa [View.entriesAt, hes] using hne
      refine seq ((runs_markIndexed h offset hes hnil).weaken fun t ht => ⟨1, ht⟩) fun _ t ht => ?_
      refine (ih ht fun q hq => hends q (mem_cons_of_mem _ hq)).weaken ?_
      rintro t' ⟨n, ht'⟩
      exact ⟨n + 1, ht'⟩

/-! ## The order of the marks -/

theorem covers_markEnds {records : List IndexRecord}
    (h : records.Pairwise IndexRecord.Before) : Covers records (markEnds records) where
  sorted := by
    rw [markEnds, pairwise_map]
    refine h.imp ?_
    rintro r t (hlt | ⟨heq, -⟩)
    · exact le_of_lt hlt
    · exact le_of_eq heq
  ends_mem := by
    intro p hp
    obtain ⟨record, hrecord, rfl⟩ := mem_map.mp hp
    exact ⟨record, hrecord, rfl⟩
  covered := fun record hrecord =>
    ⟨_, mem_map_of_mem hrecord, rfl, le_refl _⟩

/-- The order `put_batch` sorts the ends by. -/
def EndsBefore (p q : Nat × Nat) : Prop := p.1 < q.1 ∨ (p.1 = q.1 ∧ q.2 ≤ p.2)

instance : DecidableRel EndsBefore := fun p q =>
  inferInstanceAs (Decidable (p.1 < q.1 ∨ (p.1 = q.1 ∧ q.2 ≤ p.2)))

instance : Std.Total EndsBefore where
  total p q := by
    unfold EndsBefore
    omega

instance : IsTrans (Nat × Nat) EndsBefore where
  trans p q r hpq hqr := by
    unfold EndsBefore at *
    omega

theorem dedupFrom_sublist (kept : Nat × Nat) (l : List (Nat × Nat)) :
    (Engine.dedupFrom kept l).Sublist (kept :: l) := by
  induction l generalizing kept with
  | nil => exact List.Sublist.refl _
  | cons e l ih =>
    rw [dedupFrom]
    split
    · exact (ih kept).trans ((sublist_cons_self e l).cons_cons kept)
    · exact (ih e).cons_cons kept

theorem dedupFrom_covers {kept : Nat × Nat} {l : List (Nat × Nat)}
    (h : (kept :: l).Pairwise EndsBefore) {p : Nat × Nat} (hp : p ∈ kept :: l) :
    ∃ q ∈ Engine.dedupFrom kept l, q.1 = p.1 ∧ p.2 ≤ q.2 := by
  induction l generalizing kept p with
  | nil =>
    rw [mem_singleton.mp hp]
    exact ⟨kept, mem_singleton_self kept, rfl, le_refl _⟩
  | cons e l ih =>
    obtain ⟨hkept, hl⟩ := pairwise_cons.mp h
    rw [dedupFrom]
    by_cases heq : e.1 = kept.1
    · rw [if_pos heq]
      have hrest : (kept :: l).Pairwise EndsBefore :=
        pairwise_cons.mpr ⟨fun q hq => hkept q (mem_cons_of_mem _ hq),
          (pairwise_cons.mp hl).2⟩
      rcases mem_cons.mp hp with rfl | hp
      · exact ih hrest mem_cons_self
      · rcases mem_cons.mp hp with rfl | hp
        · obtain ⟨q, hq, hseg, hle⟩ := ih hrest mem_cons_self
          refine ⟨q, hq, hseg.trans heq.symm, ?_⟩
          rcases hkept p mem_cons_self with hlt | ⟨-, hle'⟩
          · omega
          · omega
        · exact ih hrest (mem_cons_of_mem _ hp)
    · rw [if_neg heq]
      rcases mem_cons.mp hp with rfl | hp
      · exact ⟨p, mem_cons_self, rfl, le_refl _⟩
      · obtain ⟨q, hq, hseg, hle⟩ := ih hl hp
        exact ⟨q, mem_cons_of_mem _ hq, hseg, hle⟩

theorem covers_dedupEnds (records : List IndexRecord) :
    Covers records (Engine.dedupEnds (markEnds records)) := by
  have hsorted : ((markEnds records).insertionSort
      fun a b => a.1 < b.1 ∨ (a.1 = b.1 ∧ b.2 ≤ a.2)).Pairwise EndsBefore :=
    pairwise_insertionSort EndsBefore _
  have hmem : ∀ p, p ∈ (markEnds records).insertionSort
      (fun a b => a.1 < b.1 ∨ (a.1 = b.1 ∧ b.2 ≤ a.2)) ↔ p ∈ markEnds records :=
    fun p => (perm_insertionSort _ _).mem_iff
  rw [dedupEnds]
  generalize (markEnds records).insertionSort
    (fun a b => a.1 < b.1 ∨ (a.1 = b.1 ∧ b.2 ≤ a.2)) = ends at hsorted hmem
  have hsub : (dedupSegments ends).Sublist ends := by
    cases ends with
    | nil => exact List.Sublist.refl _
    | cons e ends => exact dedupFrom_sublist e ends
  refine ⟨?_, ?_, ?_⟩
  · refine (hsorted.sublist hsub).imp ?_
    rintro p q (hlt | ⟨heq, -⟩)
    · exact le_of_lt hlt
    · exact le_of_eq heq
  · intro p hp
    obtain ⟨record, hrecord, rfl⟩ := mem_map.mp ((hmem p).mp (hsub.subset hp))
    exact ⟨record, hrecord, rfl⟩
  · intro record hrecord
    have hin : (record.segmentId, record.entryEnd) ∈ ends := (hmem _).mpr (mem_map_of_mem hrecord)
    cases ends with
    | nil => cases hin
    | cons e ends => exact dedupFrom_covers hsorted hin

/-! ## The operations -/

theorem InMemory.open_ (h : InMemory X v s) : v.Open where
  active := h.layout_active
  above := h.layout_above

theorem OnDisk.validView {d : Disk} (h : OnDisk X v d) : v.Valid := by
  intro id e he
  cases hes : v.layout id with
  | none => simp [View.entriesAt, hes] at he
  | some es => exact h.valid hes e (by simpa [View.entriesAt, hes] using he)

theorem View.entriesAt_ne_nil {record : IndexRecord} (h : record ∈ v.records) :
    v.entriesAt record.segmentId ≠ [] := by
  intro hnil
  obtain ⟨e, offset, hmem, -⟩ := View.mem_recordsIn.mp (View.mem_records.mp h).2
  simp [hnil, offsetsFrom] at hmem

/-- The program writes the entries and records the ends as indexed. -/
def Writes (X : Extern) (v : View) (s : Engine) (es : List Entry) (ends : List (Nat × Nat))
    (m : EngineM Unit) : Prop :=
  Runs m s (fun _ t => InMemory X (v.write es ends) t) (Leaves X (v.Interrupted es ends))

theorem writes_index {es : List Entry} (ho : v.Open) (h : InMemory X (v.appendAll es) s)
    {ends : List (Nat × Nat)} (hc : Covers (v.recordsFor es) ends) :
    Writes X v s es ends (do
      Engine.insertBatch (v.recordsFor es)
      Engine.markAll ends) := by
  refine seq ((runs_insertBatch h _).weaken fun t ht => ⟨_, .inr ⟨0, rfl⟩, ht⟩) fun _ t ht => ?_
  refine (runs_markAll ht ?_).weaken ?_
  · intro p hp
    obtain ⟨record, hrecord, rfl⟩ := hc.ends_mem p hp
    change (v.appendAll es).entriesAt record.segmentId ≠ []
    apply View.entriesAt_ne_nil
    rw [View.records_appendAll ho]
    exact mem_append_right _ hrecord
  · rintro t' ⟨n, ht'⟩
    exact ⟨_, .inr ⟨n, rfl⟩, ht'⟩

theorem writes_indexOne {e : Entry} (ho : v.Open) (h : InMemory X (v.appendOne e) s) :
    Writes X v s [e] (markEnds (v.recordsFor [e])) (do
      Engine.insertRecord (v.recordFor e)
      Engine.markIndexed (v.recordFor e).segmentId (v.recordFor e).entryEnd) := by
  refine seq ((runs_insertRecord h _).weaken fun t ht => ⟨_, .inr ⟨0, rfl⟩, ht⟩) fun _ t ht => ?_
  obtain ⟨es, hes, hmem⟩ := View.entryOf_recordFor ho e
  have hne : es ≠ [] := by
    rintro rfl
    cases hmem
  exact (runs_markIndexed ht _ hes hne).weaken fun t ht => ⟨_, .inr ⟨1, rfl⟩, ht⟩

theorem View.recordsFor_pairwise (ho : v.Open) (hv : v.Valid) {es : List Entry}
    (hes : ∀ e ∈ es, e.Valid) : (v.recordsFor es).Pairwise IndexRecord.Before := by
  have h := View.records_pairwise (View.valid_appendAll ho hv hes)
  rw [View.records_appendAll ho] at h
  exact (pairwise_append.mp h).2.1

theorem writes_put (h : InMemory X v s) (config : Config) (entry : Key × Bytes × Codec)
    (hsize : entry.2.1.length ≤ MAX_VALUE_SIZE) :
    Writes X v s [putEntry X config entry] (markEnds (v.recordsFor [putEntry X config entry]))
      (Engine.put X config none entry.1 entry.2.1 entry.2.2) := by
  rw [put, if_neg (Nat.not_lt.mpr hsize)]
  refine seq ((runs_append h (valid_putEntry X config hsize) (made_putEntry ..) []).weaken
    (Leaves.imp fun _ => .inl)) ?_
  rintro _ t ⟨rfl, ht⟩
  exact writes_indexOne h.open_ ht

theorem writes_delete (h : InMemory X v s) (key : Key) :
    Writes X v s [Entry.tombstone key] (markEnds (v.recordsFor [Entry.tombstone key]))
      (Engine.delete X none key) := by
  refine seq (runs_accountDelete h key _) fun _ t ht => ?_
  refine seq ((runs_append ht (Entry.valid_tombstone key) (made_tombstone key) []).weaken
    (Leaves.imp fun _ => .inl)) ?_
  rintro _ t' ⟨rfl, ht'⟩
  exact writes_indexOne h.open_ ht'

theorem writes_flushAndIndex {es : List Entry} (ho : v.Open) (h : InMemory X (v.appendAll es) s)
    {ends : List (Nat × Nat)} (hc : Covers (v.recordsFor es) ends) :
    Writes X v s es ends (do
      Engine.flushActive
      Engine.insertBatch (v.recordsFor es)
      Engine.markAll ends) :=
  seq ((runs_save h).weaken fun _ ht => ⟨_, .inl (View.Appending.all es v), ht⟩)
    fun _ _ ht => writes_index ho ht hc

theorem writes_putBatch (h : InMemory X v s) (config : Config)
    {entries : List (Key × Bytes × Codec)}
    (hsize : ∀ entry ∈ entries, entry.2.1.length ≤ MAX_VALUE_SIZE) :
    Writes X v s (entries.map (putEntry X config))
      (Engine.dedupEnds (markEnds (v.recordsFor (entries.map (putEntry X config)))))
      (Engine.putBatch X config noFaults entries) := by
  unfold putBatch
  cases hempty : entries.isEmpty with
  | true =>
    rw [isEmpty_iff.mp hempty]
    exact pure h
  | false =>
    refine seq ((runs_putBatchLoop h config hsize ([], [])).weaken (Leaves.imp fun _ => .inl)) ?_
    rintro _ t ⟨rfl, ht⟩
    exact writes_flushAndIndex h.open_ ht (covers_dedupEnds _)

theorem writes_deleteBatch (h : InMemory X v s) (keys : List Key) :
    Writes X v s (keys.map Entry.tombstone) (markEnds (v.recordsFor (keys.map Entry.tombstone)))
      (Engine.deleteBatch X noFaults keys) := by
  unfold deleteBatch
  cases hempty : keys.isEmpty with
  | true =>
    rw [isEmpty_iff.mp hempty]
    exact pure h
  | false =>
    have hvalid : ∀ e ∈ keys.map Entry.tombstone, e.Valid := by
      intro e he
      obtain ⟨key, -, rfl⟩ := mem_map.mp he
      exact Entry.valid_tombstone key
    refine seq ((runs_deleteBatchLoop h keys ([], [])).weaken (Leaves.imp fun _ => .inl)) ?_
    rintro _ t ⟨rfl, ht⟩
    exact writes_flushAndIndex h.open_ ht
      (covers_markEnds (View.recordsFor_pairwise h.open_ h.validView hvalid))

theorem FilePool.mem_get {pool : FilePool} {segId inode : Nat} {p : Nat × Nat}
    (h : p ∈ (pool.get segId inode).2) : p ∈ pool ∨ p = (segId, inode) := by
  unfold FilePool.get at h
  cases hfind : pool.find? (fun entry => entry.1 == segId) with
  | some entry =>
    rw [hfind] at h
    rcases mem_cons.mp h with rfl | h
    · exact .inl (mem_of_find?_eq_some hfind)
    · exact .inl (mem_of_mem_eraseP h)
  | none =>
    rw [hfind] at h
    rcases mem_cons.mp h with rfl | h
    · exact .inr rfl
    · split at h
      · exact .inl ((dropLast_sublist pool).subset h)
      · exact .inl h

theorem get_state (X : Extern) (key : Key) (s : Engine) :
    (Engine.get X key s).passed = [] ∧
      ((Engine.get X key s).state = s ∨ ∃ segId inode, s.disk.fs.inode? (.seg segId) = some inode ∧
        (Engine.get X key s).state =
          { s with filePool := (s.filePool.get segId inode).2 }) := by
  rw [get_eq]
  cases s.disk.index.get key with
  | none => exact ⟨rfl, .inl rfl⟩
  | some record =>
    dsimp only
    cases hi : s.disk.fs.inode? (.seg record.segmentId) with
    | none => exact ⟨rfl, .inl rfl⟩
    | some inode => exact ⟨rfl, .inr ⟨record.segmentId, inode, hi, rfl⟩⟩

theorem InMemory.openPooled (h : InMemory X v s) {segId inode : Nat}
    (hi : s.disk.fs.inode? (.seg segId) = some inode) :
    InMemory X v { s with filePool := (s.filePool.get segId inode).2 } :=
  { h with
    pool := by
      intro p hp
      rcases FilePool.mem_get hp with hp | rfl
      · exact h.pool hp
      · have hread := h.read segId
        rw [FileSystem.read?_eq_some hi] at hread
        obtain ⟨es, hes, -⟩ := Option.map_eq_some_iff.mp hread.symm
        refine ⟨h.top hes, ?_⟩
        intro i hi'
        rw [hi] at hi'
        exact (Option.some.inj hi').symm }

theorem InMemory.get (h : InMemory X v s) (key : Key) :
    InMemory X v (Engine.get X key s).state := by
  rcases (get_state X key s).2 with heq | ⟨segId, inode, hi, heq⟩
  · rw [heq]
    exact h
  · rw [heq]
    exact h.openPooled hi

end

end Bichon.Blob
