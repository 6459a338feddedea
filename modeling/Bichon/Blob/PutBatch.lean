import Bichon.Blob.GcReopen
import Bichon.Blob.MapRefinement
import Bichon.Blob.Rebuild

/-!
# A batch that is refused half way

`put_batch` checks the size of a value right before it appends it. When one is too
large, the entries in front of it are in the segment already; they are not in the index,
and no offset is recorded for them. A running process never sees them. A recovery does,
if the segment is still recorded as indexed up to an earlier offset, and whether that is
so depends on what follows: another write to the same segment records an offset behind
them, but a segment that is sealed first keeps its old one.
-/

namespace Bichon.Blob

open ByteFile LastWrite Durable List Option Engine View

/-- Whatever operations follow, and wherever in the next one the process dies: the store
opens again, and every key reads as it did before that operation or as the operation set
it. -/
def Engine.Unspoilt (X : Extern) (config : Config) (s : Engine) : Prop :=
  ∀ ops : List Op, (∀ op ∈ ops, op.Fits) → ∀ op : Op, op.Fits → ∀ n,
    ∃ s', (Status.stopped ((op.run X config).crashPoint (runOps X config ops s) n).disk).next
        X config .openStore = some (.running s') ∧
      ∀ key, (Engine.get X key s').result =
          (Engine.get X key (runOps X config ops s)).result ∨
        ∃ value, (key, value) ∈ op.updates ∧ (Engine.get X key s').result = .ok value

section

variable {X : Extern} {v w : View} {s : Engine} {config : Config}

/-! ## Crashes of a settled store -/

namespace View

theorem lookup_opened (ho : w.Open) (key : Key) :
    w.opened.lookup X key = (w.insertAll w.pending).lookup X key := by
  obtain ⟨es, hes⟩ := ne_none_iff_exists'.mp ho.active
  refine lookup_congr (v := w.insertAll w.pending) (w := w.opened) ?_ rfl key
  rw [opened, entriesAt, hes, getD_some, ← hes]
  exact Function.update_eq_self _ _

theorem Steady.lookup_insertAll_pending (h : v.Steady) (key : Key) :
    (v.insertAll v.pending).lookup X key = v.lookup X key := by
  rw [h.settled.pending_eq_nil h.valid]
  rfl

theorem Steady.lookup_interrupts (h : v.Steady) {op : Op} (hfits : op.Fits)
    (hw : op.Interrupts X config v w) (key : Key) :
    (w.insertAll w.pending).lookup X key = v.lookup X key ∨
      ∃ value, (key, value) ∈ op.updates ∧ (w.insertAll w.pending).lookup X key = .ok value := by
  rcases hw with rfl | hw
  · left
    rw [h.roll.lookup_insertAll_pending, lookup_roll h.toCoherent]
  · obtain ⟨-, n, hupdates⟩ := h.updates_interrupted (op.valid_entries hfits config)
      (op.says_entries hfits config) (op.covers hfits config h.toCoherent) hw
    rw [hupdates key]
    cases hlast : lastFor key (op.updates.take n) with
    | none => exact .inl rfl
    | some value => exact .inr ⟨value, mem_of_mem_take (mem_of_lastFor hlast), rfl⟩

end View

theorem unspoilt_of_steady (h : InMemory X v s) (hv : v.Steady)
    (hconfig : config.validate = .ok ()) : s.Unspoilt X config := by
  intro ops
  induction ops generalizing v s with
  | cons op ops ih =>
    intro hops
    exact ih (op.state_view (hops op mem_cons_self) config h).1
      (op.steady_view (hops op mem_cons_self) config hv)
      (fun op' hop' => hops op' (mem_cons_of_mem _ hop'))
  | nil =>
    intro _ op hfits n
    have hcrash : ∃ w, OnDisk X w ((op.run X config).crashPoint s n).disk ∧ w.Coherent ∧
        w.Marked ∧ ∀ key, (w.insertAll w.pending).lookup X key = v.lookup X key ∨
          ∃ value, (key, value) ∈ op.updates ∧
            (w.insertAll w.pending).lookup X key = .ok value := by
      rcases mem_cons.mp (Prog.crashPoint_mem (op.run X config) s n) with heq | hmem
      · rw [heq]
        exact ⟨v, h.toOnDisk, hv.toCoherent, hv.settled.marked,
          fun key => .inl (hv.lookup_insertAll_pending key)⟩
      · obtain ⟨w, hw, hd⟩ := (op.state_view hfits config h).2 _ hmem
        exact ⟨w, hd, op.coherent_interrupts hfits config hv.toCoherent hw,
          op.marked_interrupts hfits config hv hw, hv.lookup_interrupts hfits hw⟩
    obtain ⟨w, hd, hcoherent, hmarked, hlookup⟩ := hcrash
    obtain ⟨out, hout, hopened, -⟩ := hd.runs_openStore hconfig hmarked.aligned
    refine ⟨_, by rw [runOps, foldl_nil, Status.next, hout], fun key => ?_⟩
    rw [get_eq_lookup hopened, lookup_opened hcoherent.isOpen, runOps, foldl_nil,
      get_eq_lookup h]
    exact hlookup key

/-! ## Entries that were never indexed -/

namespace View

theorem activeSize_sealActive (ho : v.Open) : v.sealActive.activeSize = 0 := by
  unfold sealActive
  split
  · assumption
  · change sizeAll (v.roll.entriesAt (v.active + 1)) = 0
    rw [entriesAt_roll ho, entriesAt, ho.above (Nat.lt_succ_self _), getD_none, sizeAll_nil]

theorem Marked.sealActive (ho : v.Open) (h : v.Marked) : v.sealActive.Marked := by
  unfold View.sealActive
  split
  · exact h
  · intro id
    rw [entriesAt_roll ho]
    exact h id

theorem pending_sealActive (ho : v.Open) : v.sealActive.pending = v.pending := by
  unfold sealActive
  split
  · rfl
  · exact pending_roll ho

theorem segmentId_ne_of_mem_pending (hsize : v.activeSize = 0) {record : IndexRecord}
    (h : record ∈ v.pending) : record.segmentId ≠ v.active := by
  intro heq
  have hin := (mem_records.mp (v.pending_sublist.subset h)).2
  obtain ⟨e, offset, hat, -⟩ := mem_recordsIn.mp hin
  have hend := add_diskSize_le_of_mem_offsetsFrom hat
  have hpos := diskSize_pos e
  have hzero : sizeAll (v.entriesAt record.segmentId) = 0 := by
    rw [heq]
    exact hsize
  omega

theorem room_of_empty (hsize : v.activeSize = 0) : v.room = v := by
  rw [room, if_neg]
  rw [hsize]
  decide

theorem pending_write_fresh (ho : v.Open) (hm : v.Marked) (hsize : v.activeSize = 0) {e : Entry}
    (he : e.Valid) (hv : v.Valid) :
    (v.write [e] (markEnds (v.recordsFor [e]))).Marked ∧
      (v.write [e] (markEnds (v.recordsFor [e]))).pending = v.pending := by
  have hactive : (v.recordFor e).segmentId = v.active := by
    rw [recordFor, room_of_empty hsize]
    rfl
  have happended : ((v.appendAll [e]).insertAll (v.recordsFor [e])).Marked := hm.appendOne ho e
  have hpending : ((v.appendAll [e]).insertAll (v.recordsFor [e])).pending =
      v.pending ++ [v.recordFor e] := pending_appendOne ho hm e
  have hmarks : markEnds (v.recordsFor [e]) =
      [((v.recordFor e).segmentId, (v.recordFor e).entryEnd)] := rfl
  have hends : ∀ p ∈ markEnds (v.recordsFor [e]),
      Boundary ((v.appendAll [e]).entriesAt p.1) p.2 := by
    refine forall_mem_singleton.mpr (boundary_of_mem_records (valid_appendAll ho hv
      (forall_mem_singleton.mpr he)) ?_)
    rw [records_appendAll ho]
    exact mem_append_right _ mem_cons_self
  obtain ⟨hmarked, hfilter⟩ := pending_markAll happended hends
  refine ⟨hmarked, ?_⟩
  rw [write, hfilter, hpending, hmarks, filter_append, filter_eq_self.mpr, filter_eq_nil_iff.mpr,
    append_nil]
  · have hlt := offset_lt_entryEnd (v.recordFor e)
    simpa using hlt
  · intro record hmem
    have hne := segmentId_ne_of_mem_pending hsize hmem
    simp [hactive, hne]

end View

theorem Entry.value_ne_ok_none (e : Entry) : e.value X ≠ .ok none := by
  unfold Entry.value
  cases decompress X e.data e.codec e.rawSize.toNat with
  | error | ok => exact fun h => by cases h

theorem View.entryOf_of_mem_records {record : IndexRecord} (h : record ∈ v.records) :
    ∃ e, v.EntryOf record e := by
  obtain ⟨e, offset, hat, heq⟩ := mem_recordsIn.mp (mem_records.mp h).2
  have hoffset : record.offset = offset := by rw [heq]; rfl
  rw [entriesAt] at hat
  cases hes : v.layout record.segmentId with
  | none =>
    rw [hes] at hat
    cases hat
  | some es =>
    rw [hes, ← hoffset] at hat
    exact ⟨e, es, hes, hat⟩

theorem View.lookup_found (hv : v.Valid) {key : Key} {record : IndexRecord}
    (hlast : lastFor key (IndexStore.updates v.pending) = some (some record)) :
    ((v.insertAll v.pending).lookup X key = .ok none) ↔ record.isTombstone = true := by
  have hslot : (v.insertAll v.pending).lookup X key =
      (v.insertAll v.pending).readSlot X (some record) := by
    rw [lookup, insertAll]
    dsimp only
    rw [setAll_apply, hlast, getD_some]
  rw [hslot, readSlot]
  by_cases htomb : record.isTombstone = true
  · rw [if_pos htomb]
    exact ⟨fun _ => htomb, fun _ => rfl⟩
  · rw [if_neg htomb]
    obtain ⟨r, hr, heq⟩ := mem_map.mp (mem_of_lastFor hlast)
    cases heq
    obtain ⟨e, hentry⟩ := entryOf_of_mem_records (v.pending_sublist.subset hr)
    have hread : (v.insertAll v.pending).readRecord X record = e.value X :=
      readRecord_of_entryOf hentry (hentry.valid hv)
    rw [hread]
    exact ⟨fun hnone => absurd hnone e.value_ne_ok_none, fun h => absurd h htomb⟩

/-- The write that brings an entry left behind to light: the key is deleted if recovery
finds a value for it, and set if it finds a tombstone. -/
def exposing (key : Key) (record : IndexRecord) : Op :=
  if record.isTombstone then .put key [] .none else .delete key

theorem fits_exposing (key : Key) (record : IndexRecord) : (exposing key record).Fits := by
  unfold exposing
  split
  · exact Nat.zero_le _
  · trivial

theorem view_exposing (X : Extern) (config : Config) (key : Key) (record : IndexRecord) (v : View) :
    ∃ e : Entry, e.Valid ∧ (exposing key record).view X config v =
      v.write [e] (markEnds (v.recordsFor [e])) := by
  unfold exposing
  split
  · exact ⟨putEntry X config (key, [], .none), valid_putEntry X config (Nat.zero_le _), rfl⟩
  · exact ⟨Entry.tombstone key, Entry.valid_tombstone key, rfl⟩

theorem lookup_view_exposing (X : Extern) (config : Config) (hv : v.Coherent) (key : Key)
    (record : IndexRecord) :
    ((exposing key record).view X config v).lookup X key = .ok none ↔
      record.isTombstone = false := by
  rw [Op.updates_view (fits_exposing key record) config hv key]
  cases htomb : record.isTombstone with
  | false | true => simp [exposing, htomb, Op.updates, lastFor]

/-- A store with an entry that is not indexed can lose a later write to a crash: seal
the segment, write to the key of the entry, crash. -/
theorem pending_eq_nil_of_unspoilt (h : InMemory X v s) (hv : v.Coherent) (hm : v.Marked)
    (hconfig : config.validate = .ok ()) (hunspoilt : s.Unspoilt X config) :
    v.pending = [] := by
  by_contra hne
  obtain ⟨r, hr⟩ := exists_mem_of_ne_nil _ hne
  have hsome : lastFor r.key (IndexStore.updates v.pending) ≠ none := by
    intro hnone
    exact lastFor_eq_none_iff.mp hnone _ (mem_map_of_mem hr) rfl
  obtain ⟨slot, hslot⟩ := ne_none_iff_exists'.mp hsome
  obtain ⟨record, -, rfl⟩ := IndexStore.mem_of_lastFor_updates hslot
  -- the two operations
  have hfits := fits_exposing r.key record
  have hseal : Op.sealActiveSegment.Fits := trivial
  have hsealed : InMemory X v.sealActive (Op.sealActiveSegment.run X config s).state :=
    (Op.state_view hseal config h).1
  have hcoherent : v.sealActive.Coherent := Op.coherent_view (X := X) hseal config hv
  obtain ⟨hwritten, -⟩ := Op.state_view hfits config hsealed
  obtain ⟨e, he, hview⟩ := view_exposing X config r.key record v.sealActive
  obtain ⟨hmarked, hpending⟩ := pending_write_fresh hcoherent.isOpen
    (hm.sealActive hv.isOpen) (activeSize_sealActive hv.isOpen) he hcoherent.valid
  rw [← hview] at hmarked hpending
  rw [pending_sealActive hv.isOpen] at hpending
  have hafter := Op.coherent_view (X := X) hfits config hcoherent
  -- the crash and what recovery makes of it
  obtain ⟨s', hopen, hsame⟩ := hunspoilt [.sealActiveSegment, exposing r.key record] (by
      intro op hop
      rcases mem_cons.mp hop with rfl | hop
      · exact hseal
      · rw [mem_singleton.mp hop]
        exact hfits) .flush trivial 0
  obtain ⟨out, hout, hopened, -⟩ := hwritten.toOnDisk.runs_openStore hconfig hmarked.aligned
  change (Status.stopped ((exposing r.key record).run X config
    (Op.sealActiveSegment.run X config s).state).state.disk).next X config .openStore = _ at hopen
  rw [Status.next, hout] at hopen
  cases hopen
  rcases hsame r.key with hsame | ⟨value, hmem, -⟩
  · change _ = (get X r.key ((exposing r.key record).run X config
      (Op.sealActiveSegment.run X config s).state).state).result at hsame
    rw [get_eq_lookup hopened, lookup_opened hafter.isOpen, get_eq_lookup hwritten] at hsame
    have hfound := lookup_found (X := X) hafter.valid (hpending.symm ▸ hslot)
    rw [hsame, lookup_view_exposing X config hcoherent] at hfound
    cases htomb : record.isTombstone with
    | false | true => simp [htomb] at hfound
  · cases hmem

/-! ## The refused batch -/

theorem accepted_eq_nil_iff {entries : List (Key × Bytes × Codec)} :
    (Op.putBatch entries).accepted X config = [] ↔
      ∀ entry ∈ entries.head?, MAX_VALUE_SIZE < entry.2.1.length := by
  cases entries with
  | nil => simp [Op.accepted]
  | cons entry entries =>
    rw [Op.accepted, map_eq_nil_iff, takeWhile_cons]
    by_cases hvalue : entry.2.1.length ≤ MAX_VALUE_SIZE
    · simp [hvalue]
    · simp [hvalue, Nat.lt_of_not_le hvalue]

theorem View.recordsFor_eq_nil {es : List Entry} (h : v.recordsFor es = []) : es = [] := by
  cases es with
  | nil => rfl
  | cons e es => cases h

end

/-- A batch with a value that is too large is refused, and nothing changes for the
running process. If the first value is too large and every segment is recorded as
indexed to its end, no later crash changes anything either. These conditions are needed
wherever the recorded offsets are ends of entries. -/
theorem put_batch_refused {X : Extern} {v : View} {s : Engine} {config : Config}
    (h : InMemory X v s) (hv : v.Coherent) (hconfig : config.validate = .ok ())
    {entries : List (Key × Bytes × Codec)}
    (hlarge : ∃ entry ∈ entries, MAX_VALUE_SIZE < entry.2.1.length) :
    (∃ entry ∈ entries, MAX_VALUE_SIZE < entry.2.1.length ∧
        (Engine.putBatch X config noFaults entries s).result =
          .error (.valueTooLarge entry.2.1.length)) ∧
      (∀ key, (Engine.get X key (Engine.putBatch X config noFaults entries s).state).result =
        (Engine.get X key s).result) ∧
      ((∀ entry ∈ entries.head?, MAX_VALUE_SIZE < entry.2.1.length) ∧ v.Settled →
        (Engine.putBatch X config noFaults entries s).state.Unspoilt X config) ∧
      (v.Marked → (Engine.putBatch X config noFaults entries s).state.Unspoilt X config →
        (∀ entry ∈ entries.head?, MAX_VALUE_SIZE < entry.2.1.length) ∧ v.Settled) := by
  have hfits : ¬ (Op.putBatch entries).Fits := by
    obtain ⟨entry, hmem, hlt⟩ := hlarge
    exact fun hall => absurd (hall entry hmem) (Nat.not_le.mpr hlt)
  have hafter : InMemory X (v.appendAll ((Op.putBatch entries).accepted X config))
      (putBatch X config noFaults entries s).state :=
    (Op.fails_of_not_fits hfits config h).2.1
  have hvalid := (Op.putBatch entries).valid_accepted (X := X) config
  refine ⟨?_, ?_, ?_, ?_⟩
  · obtain ⟨entry, hmem, hlt, hloop⟩ := Op.exists_putBatchLoop_eq X config hlarge
    refine ⟨entry, hmem, hlt, ?_⟩
    have hempty : entries.isEmpty = false := isEmpty_eq_false_iff_exists_mem.mpr ⟨entry, hmem⟩
    obtain ⟨out, hout, -⟩ := runs_putBatchLoop h config
      (Op.length_le_of_mem_takeWhile entries) ([], [])
    rw [putBatch, hempty, if_neg Bool.false_ne_true, hloop, LawfulMonad.bind_assoc,
      Prog.bind_of_ok hout]
    rfl
  · intro key
    rw [get_eq_lookup hafter, get_eq_lookup h, lookup_appendAll hv hvalid]
  · rintro ⟨hfirst, hsettled⟩
    rw [accepted_eq_nil_iff.mpr hfirst] at hafter
    exact unspoilt_of_steady hafter ⟨hv, hsettled⟩ hconfig
  · intro hm hunspoilt
    have hpending := pending_eq_nil_of_unspoilt hafter (hv.appendAll hvalid)
      (hm.appendAll hv.isOpen _) hconfig hunspoilt
    rw [pending_appendAll hv.isOpen hm, append_eq_nil_iff] at hpending
    exact ⟨accepted_eq_nil_iff.mp (recordsFor_eq_nil hpending.2),
      settled_of_pending hv.isOpen hm hpending.1⟩

/-- A value that no batch may hold. -/
def hugeValue : Bytes := List.replicate (MAX_VALUE_SIZE + 1) 0

theorem length_hugeValue : hugeValue.length = MAX_VALUE_SIZE + 1 := List.length_replicate

/-- After a few writes and a crash, a batch that starts with a huge value. -/
theorem put_batch_refused_first :
    ∃ s₀ s, openFully reference quarterConfig [] Disk.empty = .ok s₀ ∧
      runEvents reference quarterConfig sampleEvents s₀ = .ok s ∧
      (Engine.putBatch reference quarterConfig noFaults
        [(Key.fill 4, hugeValue, .none), (Key.fill 5, [5], .none)] s).state.Unspoilt
          reference quarterConfig := by
  obtain ⟨s₀, _, hopen, hshows₀⟩ := refines_openFully validate_quarterConfig []
    (showsPrefix_empty (X := reference))
  obtain ⟨s, _, hrun, -, v, hmem, hquiet⟩ := hshows₀.runEvents validate_quarterConfig
    (show ∀ event ∈ sampleEvents, event.Fits by decide +kernel)
  have hlt : MAX_VALUE_SIZE < hugeValue.length := by
    rw [length_hugeValue]
    exact Nat.lt_succ_self _
  refine ⟨s₀, s, hopen, hrun, ?_⟩
  refine (put_batch_refused hmem hquiet.toCoherent validate_quarterConfig
    ⟨_, mem_cons_self, hlt⟩).2.2.1 ⟨?_, hquiet.settled⟩
  rintro _ ⟨⟩
  exact hlt

theorem putBatch_pair (X : Extern) (config : Config) (s : Engine) (key key' : Key)
    {value huge : Bytes} (codec codec' : Codec) (hvalue : value.length ≤ MAX_VALUE_SIZE)
    (hhuge : MAX_VALUE_SIZE < huge.length) {at_ : Nat × Nat × UInt32}
    (hat : (Engine.appendEntry X none key (putEntry X config (key, value, codec)).data
      (UInt32.ofNat value.length) 0 (putEntry X config (key, value, codec)).codec s).result =
        .ok at_) :
    (Engine.putBatch X config noFaults [(key, value, codec), (key', huge, codec')] s).result =
        .error (.valueTooLarge huge.length) ∧
      (Engine.putBatch X config noFaults [(key, value, codec), (key', huge, codec')] s).state =
        (Engine.appendEntry X none key (putEntry X config (key, value, codec)).data
          (UInt32.ofNat value.length) 0 (putEntry X config (key, value, codec)).codec s).state := by
  have hloop : putBatchLoop X config noFaults [(key, value, codec), (key', huge, codec')]
      ([], []) s = (appendEntry X none key (putEntry X config (key, value, codec)).data
          (UInt32.ofNat value.length) 0 (putEntry X config (key, value, codec)).codec >>=
        fun _ => Prog.fail (.valueTooLarge huge.length)) s := by
    rw [putBatchLoop, if_neg (Nat.not_lt.mpr hvalue), Prog.bind_of_ok hat]
    refine (Prog.bind_of_ok hat).trans ?_
    rw [putBatchLoop, if_pos hhuge]
  rw [Prog.bind_of_ok hat] at hloop
  have herror : (putBatchLoop X config noFaults
      [(key, value, codec), (key', huge, codec')] ([], []) s).result =
        .error (.valueTooLarge huge.length) := by
    rw [hloop]
    rfl
  rw [putBatch, isEmpty_cons, if_neg Bool.false_ne_true,
    Prog.bind_of_error herror, hloop]
  exact ⟨rfl, rfl⟩

/-- The batch is refused for its second value, and a reopen brings its first one to
light. -/
theorem refused_batch_shows_up :
    ∃ s s', engineAfter reference quarterConfig (freshSteps []) = some s ∧
      (Engine.putBatch reference quarterConfig noFaults
        [(Key.fill 2, [2], .none), (Key.fill 3, hugeValue, .none)] s).result =
          .error (.valueTooLarge (MAX_VALUE_SIZE + 1)) ∧
      (Engine.get reference (Key.fill 2) s).result.toOption = some none ∧
      (Status.stopped (Engine.putBatch reference quarterConfig noFaults
        [(Key.fill 2, [2], .none), (Key.fill 3, hugeValue, .none)] s).state.disk).next
          reference quarterConfig .openStore = some (.running s') ∧
      (Engine.get reference (Key.fill 2) s').result.toOption = some (some [2]) := by
  obtain ⟨s, hs, hbefore, ⟨at_, hat, -⟩, status, hstatus, s', hengine, hafter⟩ :
      ∃ s ∈ engineAfter reference quarterConfig (freshSteps []),
        (get reference (Key.fill 2) s).result.toOption = some none ∧
        (∃ a ∈ (appendEntry reference none (Key.fill 2) [2] 1 0 .none s).result.toOption, True) ∧
        ∃ status ∈ (Status.stopped (appendEntry reference none (Key.fill 2) [2] 1 0 .none
          s).state.disk).next reference quarterConfig .openStore, ∃ s' ∈ status.engine?,
            (get reference (Key.fill 2) s').result.toOption = some (some [2]) := by
    decide +kernel
  have hlt : MAX_VALUE_SIZE < hugeValue.length := by
    rw [length_hugeValue]
    exact Nat.lt_succ_self _
  have hvalue : ([2] : Bytes).length ≤ MAX_VALUE_SIZE := by decide
  obtain ⟨hresult, hstate⟩ := putBatch_pair reference quarterConfig s (Key.fill 2) (Key.fill 3)
    .none .none hvalue hlt (Transition.eq_ok_of_mem_toOption hat)
  rw [length_hugeValue] at hresult
  cases status with
  | stopped d => cases hengine
  | running s₁ =>
    cases hengine
    refine ⟨s, s', hs, hresult, hbefore, ?_, hafter⟩
    rw [hstate]
    exact hstatus

end Bichon.Blob
