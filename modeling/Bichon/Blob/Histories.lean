import Bichon.Blob.GcSpec
import Bichon.Blob.OpenSpec
import Bichon.Lib.Transition

/-!
# Histories with compaction

A store is running or stopped. While it runs it takes operations and compactions,
each of which may be cut short by a crash; while it is stopped it may be opened, and
opening may crash too. `Orderly` is the condition under which the index keeps
pointing at the right entries through all of this, and `Reached.coherent` says that it
does. The condition rules out three situations:

* an open that finds a segment recorded as indexed up to a place inside an entry,
* a crash in the compaction of a segment that is recorded as indexed up to a place in
  front of one of its live entries,
* a crash while a directory is opened in which a compaction was cut short between the
  rename and the insertion of the records.

The first two come from the offset that a compaction records, the third from the
order in which recovery saves its results.
-/

namespace Bichon.Blob

open ByteFile LastWrite Durable Transition List View

inductive Action where
  | op (op : Op)
  | gc (timestamp : Nat)

def Action.run (X : Extern) (config : Config) : Action → EngineM Unit
  | op operation => operation.run X config
  | gc timestamp => do
      let _ ← Engine.gc X config timestamp
      pure ()

inductive Status where
  | running (s : Engine)
  | stopped (d : Disk)

inductive Step where
  /-- an operation or compaction that returns, with or without an error -/
  | act (action : Action)
  /-- one that is cut short after some durable steps -/
  | crash (action : Action) (steps : Nat)
  | close
  | openStore
  | openCrash (steps : Nat)

def Status.next (X : Extern) (config : Config) : Status → Step → Option Status
  | running s, .act action => some (running (action.run X config s).state)
  | running s, .crash action steps =>
    some (stopped ((action.run X config).crashPoint s steps).disk)
  | running s, .close => some (stopped s.disk)
  | stopped d, .openStore =>
    match (Blob.openStore X config d).result with
    | .ok out => some (running (Engine.opened (Blob.openStore X config d).state out))
    | .error _ => some (stopped (Blob.openStore X config d).state)
  | stopped d, .openCrash steps => some (stopped ((Blob.openStore X config).crashPoint d steps))
  | _, _ => none

def Status.engine? : Status → Option Engine
  | running s => some s
  | stopped _ => none

/-! ## The condition -/

/-- Every segment is recorded as indexed up to the start of an entry or the end of
the entries, unless it is scanned from the front anyway. -/
def Disk.Aligned (X : Extern) (d : Disk) : Prop :=
  ∀ id file, d.fs.read? (.seg id) = some file →
    (∃ e, (e, scanStart false ((d.metaBin.getD .new).indexedUpTo id) file.length) ∈
      (scanEntries X id file 0).visited) ∨
    (scanEntries X id file 0).outcome =
      .ok (scanStart false ((d.metaBin.getD .new).indexedUpTo id) file.length)

/-- Every live record whose segment has a file is the record of an entry in it. -/
def Disk.Pointing (X : Extern) (d : Disk) : Prop :=
  ∀ key record, d.index.get key = some record →
    ∀ file, d.fs.read? (.seg record.segmentId) = some file →
      ∃ e, (e, record.offset) ∈ (scanEntries X record.segmentId file 0).visited ∧
        record = IndexRecord.ofEntry record.segmentId (e, record.offset)

/-- The segment a compaction would rewrite is recorded as indexed behind all its live
entries. -/
def Engine.Covered (config : Config) (s : Engine) : Prop :=
  ∀ id, gcTarget config s = some id → ∀ key record, s.disk.index.get key = some record →
    record.segmentId = id → record.entryEnd ≤ s.globalMeta.indexedUpTo id

def Orderly (X : Extern) (config : Config) : Status → Step → Prop
  | .running s, .crash (.gc _) _ => s.Covered config
  | .stopped d, .openStore => d.Aligned X
  | .stopped d, .openCrash _ => d.Aligned X ∧ d.Pointing X
  | _, _ => True

/-! ## What is kept -/

/-- Recovery brings the index of a stopped store in order: a live record leads to its
entry or is about to be replaced. -/
structure View.Mends (v : View) : Prop where
  live : ∀ key record, v.table key = some record → record.isTombstone = false →
    record.key = key ∧ record.segmentId ≤ v.active ∧ (v.Leads record ∨ ∃ r ∈ v.pending, r.key = key)
  blank : v.layout v.active = none → (∀ key, v.table key = none) ∧ ∀ id, v.layout id = none

def Status.Fine (X : Extern) : Status → Prop
  | running s => ∃ v, InMemory X v s ∧ v.Coherent
  | stopped d => ∃ v, OnDisk X v d ∧ v.Mends

section

variable {X : Extern} {v w : View} {s : Engine} {d : Disk} {config : Config} {id : Nat}

theorem View.Sound.mends (hs : v.Sound)
    (hblank : v.layout v.active = none → (∀ key, v.table key = none) ∧ ∀ id, v.layout id = none) :
    v.Mends where
  live := by
    intro key record hrecord hlive
    obtain ⟨hkey, hleads⟩ := hs key record hrecord hlive
    exact ⟨hkey, hleads.1, .inl hleads⟩
  blank := hblank

theorem View.Coherent.mends (h : v.Coherent) : v.Mends :=
  h.sound.mends fun hnone => absurd hnone h.isOpen.active

theorem View.Leads.opened {record : IndexRecord} (h : v.Leads record)
    (hblank : v.layout v.active = none → record.segmentId ≠ v.active) :
    v.opened.Leads record := by
  refine ⟨h.1, fun hsome => ?_⟩
  have hlayout : v.layout record.segmentId ≠ none := by
    intro hnone
    by_cases hid : record.segmentId = v.active
    · exact hblank (hid ▸ hnone) hid
    · rw [View.opened] at hsome
      dsimp only at hsome
      rw [Function.update_of_ne hid] at hsome
      exact hsome hnone
  obtain ⟨e, ⟨es, hes, hat⟩, heq⟩ := h.2 hlayout
  exact ⟨e, ⟨es, (layout_opened hlayout).trans hes, hat⟩, heq⟩

theorem View.Mends.opened (h : v.Mends) (hv : v.Valid)
    (habove : ∀ {id}, v.active < id → v.layout id = none) : v.opened.Coherent where
  isOpen := v.open_opened habove
  valid := v.valid_opened hv
  sound := by
    intro key record hrecord hlive
    change setAll v.table (IndexStore.updates v.pending) key = some record at hrecord
    rw [setAll_apply] at hrecord
    cases hlast : lastFor key (IndexStore.updates v.pending) with
    | some slot =>
      rw [hlast] at hrecord
      cases hrecord
      obtain ⟨r, hr, heq⟩ := mem_map.mp (mem_of_lastFor hlast)
      cases heq
      have hmem := v.pending_sublist.subset hr
      refine ⟨rfl, (leads_of_mem_records hmem).opened fun hnone hid => ?_⟩
      exact entriesAt_ne_nil hmem (by rw [entriesAt, hid, hnone]; rfl)
    | none =>
      rw [hlast] at hrecord
      obtain ⟨hkey, hle, hleads | ⟨r, hr, hrkey⟩⟩ := h.live key record hrecord hlive
      · refine ⟨hkey, hleads.opened fun hnone _ => ?_⟩
        rw [(h.blank hnone).1 key] at hrecord
        cases hrecord
      · exact absurd hrkey (lastFor_eq_none_iff.mp hlast _ (mem_map.mpr ⟨r, hr, rfl⟩))

/-! ## Opening -/

theorem OnDisk.scanEntries (h : OnDisk X v d) {es : List Entry} (hes : v.layout id = some es) :
    scanEntries X id (encodeAll X es) 0 = ⟨offsetsFrom 0 es, .ok (sizeAll es)⟩ :=
  scanEntries_whole X id (h.valid hes)

theorem OnDisk.aligned (h : OnDisk X v d) (ha : d.Aligned X) : v.Aligned := by
  intro id
  cases hes : v.layout id with
  | none =>
    have hle := scanFrom_le v id
    rw [entriesAt, hes, Option.getD_none, sizeAll_nil] at hle
    rw [Nat.le_zero.mp hle]
    exact boundary_zero _
  | some es =>
    have hentries : v.entriesAt id = es := by rw [entriesAt, hes]; rfl
    have hread := h.read id
    rw [hes] at hread
    have hat := ha id _ hread
    rw [h.scanEntries hes, h.marks, length_encodeAll, ← hentries] at hat
    rcases hat with ⟨e, hmem⟩ | hend
    · obtain ⟨before, after, heq, hoffset⟩ := mem_offsetsFrom.mp hmem
      exact ⟨before, e :: after, heq, by rw [scanFrom, hoffset, Nat.zero_add]⟩
    · rw [scanFrom, ← Except.ok.inj hend]
      exact boundary_sizeAll _

theorem OnDisk.sound (h : OnDisk X v d) (hm : v.Mends) (hp : d.Pointing X) : v.Sound := by
  intro key record hrecord hlive
  obtain ⟨hkey, hle, -⟩ := hm.live key record hrecord hlive
  refine ⟨hkey, hle, fun hsome => ?_⟩
  obtain ⟨es, hes⟩ := Option.ne_none_iff_exists'.mp hsome
  have hread := h.read record.segmentId
  rw [hes] at hread
  have hget : d.index.get key = some record := by
    rw [h.index_eq]
    exact IndexStore.get_eq_some_iff.mpr ⟨hrecord, hlive⟩
  obtain ⟨e, hat, heq⟩ := hp key record hget _ hread
  rw [h.scanEntries hes] at hat
  exact ⟨e, ⟨es, hes, hat⟩, heq⟩

theorem View.pending_of_blank (h : ∀ id, v.layout id = none) : v.pending = [] := by
  have hrecords : v.records = [] := by
    rw [records, flatMap_eq_nil_iff]
    intro id _
    rw [recordsIn, entriesAt, h id]
    rfl
  rw [pending, hrecords]
  rfl

theorem Status.Fine.openStore (h : (Status.stopped d).Fine X) (ha : d.Aligned X)
    (hconfig : config.validate = .ok ()) :
    Runs (Blob.openStore X config) d
      (fun out d' => (Status.running (Engine.opened d' out)).Fine X)
      (fun c => d.Pointing X → (Status.stopped c).Fine X) := by
  obtain ⟨v, hd, hm⟩ := h
  have hopened := hm.opened hd.validView hd.layout_above
  refine (hd.runs_openStore hconfig (hd.aligned ha)).mono (fun _ _ ht => ⟨_, ht, hopened⟩) ?_
  rintro c (hc | hc | hc | hc) hp
  · exact ⟨v, hc, hm⟩
  · have hs : v.caughtUp.Sound := hd.sound hm hp
    exact ⟨_, hc, hs.mends hm.blank⟩
  · have hs : v.caughtUp.Sound := hd.sound hm hp
    refine ⟨_, hc, (hs.insertAll fun record hrecord => ?_).mends fun hnone => ?_⟩
    · exact leads_of_mem_records (v := v.caughtUp) (v.pending_sublist.subset hrecord)
    · obtain ⟨htable, hlayout⟩ := hm.blank hnone
      rw [pending_of_blank hlayout]
      exact ⟨htable, hlayout⟩
  · exact ⟨_, hc, hopened.mends⟩

theorem openStore_of_invalid {err : Error} (h : config.validate = .error err) (d : Disk) :
    Blob.openStore X config d = ⟨.error err, d, []⟩ := by
  rw [Blob.openStore, h]
  rfl

theorem OnDisk.next_openStore (h : OnDisk X v d) (ha : v.Aligned) {st : Status}
    (hnext : (Status.stopped d).next X config .openStore = some st) :
    st = .stopped d ∨ config.validate = .ok () ∧ ∃ s, st = .running s ∧ InMemory X v.opened s := by
  cases hconfig : config.validate with
  | error err =>
    rw [Status.next, openStore_of_invalid hconfig] at hnext
    cases hnext
    exact .inl rfl
  | ok _ =>
    obtain ⟨out, hout, hmem, -⟩ := h.runs_openStore hconfig ha
    rw [Status.next, hout] at hnext
    cases hnext
    exact .inr ⟨rfl, _, rfl, hmem⟩

/-! ## A compaction that is cut short -/

/-- If all entries picked from a file end in front of an offset, they fill the file without
a gap, or they take less room than there is in front of it. -/
theorem filter_offsetsFrom_tight {p : Entry × Nat → Bool} {es : List Entry} {base m : Nat}
    (hend : ∀ q ∈ (offsetsFrom base es).filter p, q.2 + q.1.diskSize ≤ m) :
    (offsetsFrom base es).filter p =
        offsetsFrom base (((offsetsFrom base es).filter p).map Prod.fst) ∨
      base + sizeAll (((offsetsFrom base es).filter p).map Prod.fst) < m := by
  induction es generalizing base with
  | nil => exact .inl rfl
  | cons e es ih =>
    rw [offsetsFrom] at hend ⊢
    by_cases hp : p (e, base) = true
    · rw [filter_cons_of_pos hp] at hend ⊢
      rw [map_cons, sizeAll_cons, offsetsFrom]
      rcases ih fun q hq => hend q (mem_cons_of_mem _ hq) with htight | hless
      · exact .inl (congrArg _ htight)
      · exact .inr (by dsimp only; omega)
    · rw [filter_cons_of_neg hp] at hend ⊢
      have hpos := diskSize_pos e
      rcases ih hend with htight | hless
      · rw [htight] at hend
        rw [htight, map_fst_offsetsFrom]
        generalize ((offsetsFrom (base + e.diskSize) es).filter p).map Prod.fst = ks at hend
        rcases eq_nil_or_concat' ks with rfl | ⟨front, last, rfl⟩
        · exact .inl rfl
        · -- the room of the skipped entry is missing
          rw [offsetsFrom_append] at hend
          have hlast := hend _ (mem_append_right _ mem_cons_self)
          dsimp only at hlast
          rw [sizeAll_append, sizeAll_cons, sizeAll_nil]
          exact .inr (by omega)
      · exact .inr (by omega)

/-- Between the rename and the insertion: either the file is shorter than recorded and
will be scanned from the front, or nothing was dropped in front of a kept entry. -/
theorem View.Coherent.mends_replaced (h : v.Coherent) (hid : id < v.active)
    (hlayout : v.layout id ≠ none)
    (hcovered : ∀ key record, v.index.get key = some record → record.segmentId = id →
      record.entryEnd ≤ v.marks id) : (v.replaced id (v.kept id)).Mends where
  live := by
    intro key record hrecord hlive
    have hget : v.index.get key = some record := IndexStore.get_eq_some_iff.mpr ⟨hrecord, hlive⟩
    obtain ⟨hkey, hle, hleads⟩ := h.sound key record hrecord hlive
    refine ⟨hkey, hle, ?_⟩
    by_cases hne : record.segmentId = id
    · subst hne
      obtain ⟨e, he, hekey, hentry, heq⟩ := h.sound.kept_of_get hget hlayout
      have hself := v.layout_replaced_self record.segmentId (v.kept record.segmentId)
      by_cases hsize : v.marks record.segmentId ≤ sizeAll (v.kept record.segmentId)
      · -- the kept entries fill the file up to the recorded offset
        have hends : ∀ q ∈ (offsetsFrom 0 (v.entriesAt record.segmentId)).filter
            (keeps v.index record.segmentId),
            q.2 + q.1.diskSize ≤ v.marks record.segmentId := by
          rintro ⟨f, offset⟩ hq
          obtain ⟨hat, hkeeps⟩ := mem_filter.mp hq
          rw [keeps, Bool.and_eq_true] at hkeeps
          obtain ⟨r, hr, hrid, rfl⟩ := isLatest_iff.mp hkeeps.2
          have hend := hcovered f.key r hr hrid
          rw [(h.sound.points _ _ _ _ hr hrid hat).2,
            entryEnd_ofEntry _ _ (h.valid _ f (mem_of_mem_offsetsFrom hat))] at hend
          exact hend
        have htight := (filter_offsetsFrom_tight hends).resolve_right
          (by rwa [Nat.zero_add, not_lt])
        obtain ⟨es, hes, hat⟩ := hentry
        have hmem : (e, record.offset) ∈ (offsetsFrom 0 (v.entriesAt record.segmentId)).filter
            (keeps v.index record.segmentId) := by
          refine mem_filter.mpr ⟨by rwa [entriesAt, hes], ?_⟩
          rw [keeps, Bool.and_eq_true]
          exact ⟨by simpa using (mem_kept.mp he).1,
            isLatest_iff.mpr ⟨record, by rw [hekey]; exact hget, rfl, rfl⟩⟩
        rw [htight] at hmem
        exact .inl ⟨hle, fun _ => ⟨e, ⟨_, hself, hmem⟩, heq⟩⟩
      · -- the file is scanned from the front
        obtain ⟨offset, hat⟩ := exists_offset_of_mem he 0
        refine .inr ⟨IndexRecord.ofEntry record.segmentId (e, offset), ?_, hekey⟩
        rw [pending, mem_filter]
        refine ⟨mem_records.mpr ⟨hle, mem_recordsIn.mpr ⟨e, offset, ?_, rfl⟩⟩, ?_⟩
        · exact (v.entriesAt_replaced_self _ _).symm ▸ hat
        · have hzero := scanFrom_replaced_self (not_le.mp hsize)
          exact decide_eq_true (hzero.trans_le (Nat.zero_le _))
    · refine .inl ⟨hle, fun hsome => ?_⟩
      rw [layout_replaced_ne _ hne] at hsome
      obtain ⟨e, ⟨es, hes, hat⟩, heq⟩ := hleads hsome
      exact ⟨e, ⟨es, (layout_replaced_ne _ hne).trans hes, hat⟩, heq⟩
  blank := by
    intro hnone
    have hactive : (v.replaced id (v.kept id)).layout v.active = none := hnone
    rw [layout_replaced_ne _ (Nat.ne_of_gt hid)] at hactive
    exact absurd hactive h.isOpen.active

theorem View.Coherent.mends_committing (h : v.Coherent) (hid : id < v.active)
    (hlayout : v.layout id ≠ none)
    (hcovered : ∀ key record, v.index.get key = some record → record.segmentId = id →
      record.entryEnd ≤ v.marks id) (hw : v.Committing id (v.kept id) w) : w.Mends := by
  have hlive : ∀ key, v.LiveIn id key → ∃ e ∈ v.kept id, e.key = key :=
    fun _ hkey => (h.sound.liveIn_iff hlayout).mp hkey
  rcases hw with rfl | rfl | rfl | rfl | rfl
  · exact h.mends
  · exact h.mends_replaced hid hlayout hcovered
  · exact (h.rewritten (rewritten_reindexed v id _) hlive hid h.valid_kept).mends
  · have hrecorded : Rewritten id (v.kept id) v (v.recorded id (v.kept id)) :=
      ⟨rfl, rfl, .inr (v.layout_replaced_self id _), layout_replaced_ne _⟩
    exact (h.rewritten hrecorded hlive hid h.valid_kept).mends
  · exact (h.rewritten (rewritten_committed v id _) hlive hid h.valid_kept).mends

/-! ## One step -/

theorem Op.fine (op : Op) (config : Config) (h : InMemory X v s) (hv : v.Coherent) :
    (Status.running (op.run X config s).state).Fine X ∧
      ∀ t ∈ (op.run X config s).passed, (Status.stopped t.disk).Fine X := by
  by_cases hfits : op.Fits
  · obtain ⟨hstate, hpassed⟩ := op.state_view hfits config h
    refine ⟨⟨_, hstate, op.coherent_view hfits config hv⟩, fun t ht => ?_⟩
    obtain ⟨w, hw, hd⟩ := hpassed t ht
    exact ⟨w, hd, (op.coherent_interrupts hfits config hv hw).mends⟩
  · obtain ⟨-, hstate, hpassed⟩ := op.fails_of_not_fits hfits config h
    have hes := op.valid_accepted (X := X) config
    refine ⟨⟨_, hstate, hv.appendAll hes⟩, fun t ht => ?_⟩
    obtain ⟨w, hw, hd⟩ := hpassed t ht
    exact ⟨w, hd, (hv.appending hes hw).mends⟩

theorem InMemory.gc_after (h : InMemory X v s) (hv : v.Coherent) (config : Config)
    (timestamp : Nat) :
    (Blob.gcTarget config s = none ∧ ((Action.gc timestamp).run X config s).state = s ∧
        ((Action.gc timestamp).run X config s).passed = []) ∨
      ∃ id, Blob.gcTarget config s = some id ∧ id < v.active ∧ v.layout id ≠ none ∧
        InMemory X (v.compacted id) ((Action.gc timestamp).run X config s).state ∧
        ∀ t ∈ ((Action.gc timestamp).run X config s).passed,
          ∃ w, v.Committing id (v.kept id) w ∧ OnDisk X w t.disk := by
  cases ht : Blob.gcTarget config s with
  | none =>
    have hgc := gc_of_target_none X ht timestamp
    rw [Action.run, Prog.bind_of_ok (by rw [hgc]), hgc]
    exact .inl ⟨rfl, rfl, rfl⟩
  | some id =>
    obtain ⟨hid, hlayout, -⟩ := h.gcTarget ht
    obtain ⟨out, hresult, ⟨-, hmem⟩, hpassed⟩ := runs_gc h hv ht timestamp
    rw [Action.run, Prog.bind_of_ok hresult, Prog.pure_apply, append_nil]
    exact .inr ⟨id, rfl, hid, hlayout, hmem, hpassed⟩

theorem gc_fine (h : InMemory X v s) (hv : v.Coherent) (timestamp : Nat) :
    (Status.running ((Action.gc timestamp).run X config s).state).Fine X ∧
      (s.Covered config → ∀ t ∈ ((Action.gc timestamp).run X config s).passed,
        (Status.stopped t.disk).Fine X) := by
  rcases h.gc_after hv config timestamp with
    ⟨-, hstate, hpassed⟩ | ⟨id, ht, hid, hlayout, hmem, hpassed⟩
  · rw [hstate, hpassed]
    exact ⟨⟨v, h, hv⟩, nofun⟩
  · refine ⟨⟨_, hmem, hv.compacted hid hlayout⟩, fun hcovered t ht' => ?_⟩
    obtain ⟨w, hw, hd⟩ := hpassed t ht'
    refine ⟨w, hd, hv.mends_committing hid hlayout (fun key record hget hrid => ?_) hw⟩
    rw [← h.memMarks]
    rw [← h.index_eq] at hget
    exact hcovered id ht key record hget hrid

theorem Status.Fine.next {st st' : Status} {step : Step} (h : st.Fine X)
    (hguard : Orderly X config st step) (hnext : st.next X config step = some st') :
    st'.Fine X := by
  cases st with
  | running s =>
    obtain ⟨v, hmem, hv⟩ := h
    have hstart : (Status.stopped s.disk).Fine X := ⟨v, hmem.toOnDisk, hv.mends⟩
    have hcrash : ∀ {action : Action} (steps : Nat),
        (∀ t ∈ (action.run X config s).passed, (Status.stopped t.disk).Fine X) →
        (Status.stopped ((action.run X config).crashPoint s steps).disk).Fine X := by
      intro action steps hpassed
      rcases mem_cons.mp ((action.run X config).crashPoint_mem s steps) with heq | hin
      · rw [heq]
        exact hstart
      · exact hpassed _ hin
    cases step with
    | act action =>
      cases hnext
      cases action with
      | op operation => exact (operation.fine config hmem hv).1
      | gc timestamp => exact (gc_fine hmem hv timestamp).1
    | crash action steps =>
      cases hnext
      cases action with
      | op operation => exact hcrash steps (operation.fine config hmem hv).2
      | gc timestamp => exact hcrash steps ((gc_fine hmem hv timestamp).2 hguard)
    | close =>
      cases hnext
      exact hstart
    | openStore | openCrash => cases hnext
  | stopped d =>
    cases step with
    | openStore =>
      obtain ⟨v, hd, hm⟩ := h
      rcases hd.next_openStore (hd.aligned hguard) hnext with rfl | ⟨-, s, rfl, hmem⟩
      · exact ⟨v, hd, hm⟩
      · exact ⟨_, hmem, hm.opened hd.validView hd.layout_above⟩
    | openCrash steps =>
      cases hnext
      cases hconfig : config.validate with
      | error err =>
        rw [Prog.crashPoint, openStore_of_invalid hconfig]
        simpa using h
      | ok _ => exact (h.openStore hguard.1 hconfig).crashPoint (fun _ => h) steps hguard.2
    | _ => cases hnext

/-! ## Whole histories -/

theorem View.mends_empty : View.empty.Mends where
  live := fun _ _ h => by cases h
  blank := fun _ => ⟨fun _ => rfl, fun _ => rfl⟩

theorem fine_empty (X : Extern) : (Status.stopped Disk.empty).Fine X :=
  ⟨empty, onDisk_empty X, mends_empty⟩

/-- The states an orderly history from an empty directory leads to. -/
def Reached (X : Extern) (config : Config) (steps : List Step) (s : Engine) : Prop :=
  Along (Status.next X config) (Orderly X config) (.stopped Disk.empty) steps ∧
    runFrom (Status.next X config) (.stopped Disk.empty) steps = some (.running s)

theorem Reached.coherent {steps : List Step} (h : Reached X config steps s) :
    ∃ v, InMemory X v s ∧ v.Coherent :=
  h.1.invariant (I := Status.Fine X) (fun hfine hguard hnext => hfine.next hguard hnext)
    (fine_empty X) h.2

/-- A new store that is opened and used. -/
def freshSteps (actions : List Action) : List Step := .openStore :: actions.map .act

theorem along_acts (X : Extern) (config : Config) (actions : List Action) (st : Status) :
    Along (Status.next X config) (Orderly X config) st (actions.map .act) := by
  induction actions generalizing st with
  | nil => trivial
  | cons action actions ih => exact ⟨by cases st <;> trivial, fun st' _ => ih st'⟩

theorem reached_freshSteps {actions : List Action}
    (h : runFrom (Status.next X config) (.stopped Disk.empty) (freshSteps actions) =
      some (.running s)) : Reached X config (freshSteps actions) s :=
  ⟨⟨fun _ _ hfile => (by cases hfile), fun st _ => along_acts X config actions st⟩, h⟩

/-- The engine at the end of a run, for evaluation. -/
def engineAfter (X : Extern) (config : Config) (steps : List Step) : Option Engine :=
  (runFrom (Status.next X config) (.stopped Disk.empty) steps).bind Status.engine?

theorem runFrom_of_engineAfter {steps : List Step} (h : engineAfter X config steps = some s) :
    runFrom (Status.next X config) (.stopped Disk.empty) steps = some (.running s) := by
  obtain ⟨st, hst, hengine⟩ := Option.bind_eq_some_iff.mp h
  cases st with
  | stopped d => cases hengine
  | running s' =>
    cases hengine
    exact hst

end

end Bichon.Blob
