import Bichon.Blob.RecoverySpec
import Bichon.Blob.Steps
import Bichon.Blob.Sees

/-!
# What opening a store does

`runs_openStore`: a directory whose segments are recorded as indexed up to
boundaries, and whose files may end in less than one header of a torn entry, opens
successfully. The torn bytes are cut off, the pending records go into the index and
every segment is recorded as indexed to its end. The crash condition lists the
stages on the way; the second of them is the one in which the marks have moved and
the records are not in the index yet.
-/

namespace Bichon.Blob

open ByteFile LastWrite Durable List View GlobalMeta

/-! ## All segments -/

/-- The files hold the entries of the view, each with some torn bytes behind them. -/
def HoldsTorn (X : Extern) (v : View) (torn : Nat → Bytes) (fs : FileSystem FileName) : Prop :=
  ∀ id, fs.read? (.seg id) = (v.layout id).map fun es => encodeAll X es ++ torn id

/-- Some of the torn bytes are cut off already. -/
def Cut (torn torn' : Nat → Bytes) : Prop := ∀ id, torn' id = torn id ∨ torn' id = []

/-- What recovery can cope with: aligned marks and torn bytes shorter than a header. -/
structure Recoverable (v : View) (torn : Nat → Bytes) : Prop where
  valid : ∀ {id es}, v.layout id = some es → ∀ e ∈ es, e.Valid
  aligned : v.Aligned
  short : ∀ id, (torn id).length < ENTRY_HEADER_SIZE
  behind : ∀ id, torn id ≠ [] → v.marks id ≤ sizeAll (v.entriesAt id)

/-- Up to where a segment is indexed once recovery has read it. -/
def View.caughtUpTo (v : View) (id : Nat) : Nat :=
  if sizeAll (v.entriesAt id) ≤ v.scanFrom id then v.marks id else sizeAll (v.entriesAt id)

section

variable {X : Extern} {v : View} {torn : Nat → Bytes}

variable {id : Nat}

theorem diskSegments_of_holds {fs : FileSystem FileName} (hfs : HoldsTorn X v torn fs)
    (htop : ∀ {id es}, v.layout id = some es → id ≤ v.active) :
    diskSegments fs = (List.range (v.active + 1)).filter fun id => (v.layout id).isSome := by
  apply diskSegments_eq_of_mem_iff (pairwise_lt_range.filter _)
  intro id
  rw [mem_filter, mem_range, hfs id]
  constructor
  · rintro ⟨-, hsome⟩
    simpa [Option.isSome_iff_ne_none] using hsome
  · intro hne
    cases hes : v.layout id with
    | none => simp [hes] at hne
    | some es => exact ⟨Nat.lt_succ_of_le (htop hes), rfl⟩

theorem View.flatMap_filter_layout {β : Type} {f : Nat → List β}
    (hf : ∀ {id}, v.layout id = none → f id = []) (ids : List Nat) :
    (ids.filter fun id => (v.layout id).isSome).flatMap f = ids.flatMap f := by
  induction ids with
  | nil => rfl
  | cons id ids ih =>
    rw [flatMap_cons, ← ih]
    cases hes : v.layout id with
    | none => rw [filter_cons_of_neg (by simp [hes]), hf hes, nil_append]
    | some es => rw [filter_cons_of_pos (by simp [hes]), flatMap_cons]

theorem View.recordsIn_of_layout_none {id : Nat} (h : v.layout id = none) :
    v.recordsIn id = [] := by
  simp [recordsIn, entriesAt, h, offsetsFrom]

theorem View.pending_eq_filter (v : View) :
    v.pending = ((List.range (v.active + 1)).filter fun id => (v.layout id).isSome).flatMap
      v.pendingIn := by
  rw [pending_eq_flatMap, flatMap_filter_layout]
  intro id hnone
  rw [pendingIn, recordsIn_of_layout_none hnone, filter_nil]

/-- The metadata in memory before the scan. -/
structure Discovered (v : View) (m : GlobalMeta) : Prop where
  active : m.activeSegmentId = v.active
  marks : ∀ id, m.indexedUpTo id = v.marks id
  stats : ∀ {id : Nat} {st : SegmentStats}, m.segments[id]? = some st →
    st.segmentId = id ∧ id ≤ v.active
  fresh : v.layout v.active = none → m.segments[v.active]? = none

/-- The metadata in memory after the scan. -/
structure Scanned (v : View) (m : GlobalMeta) : Prop where
  active : m.activeSegmentId = v.active
  marks : ∀ id, m.indexedUpTo id = v.caughtUpTo id
  stats : ∀ {id : Nat} {st : SegmentStats}, m.segments[id]? = some st →
    st.segmentId = id ∧ id ≤ v.active ∧ (st.sealed = true → id ≠ v.active)
  tracked : ∀ {id}, v.layout id ≠ none → m.segments[id]? ≠ none
  fresh : v.layout v.active = none → m.segments[v.active]? = none

/-- What the scan of a segment gives in terms of the view. -/
structure ScansTo (v : View) (id : Nat) (es : List Entry) (f : SegmentScan) : Prop where
  records : f.records = v.pendingIn id
  length : f.length = sizeAll es
  segmentId : f.stats.segmentId = id
  sealed : f.stats.sealed = (id != v.active)
  upTo : f.stats.indexedUpToOffset = v.caughtUpTo id

variable {m : GlobalMeta}

theorem scanSegment_of_recoverable (X : Extern) {fullScan : Bool}
    (hfull : fullScan = true → ∀ id, v.marks id = 0) (hr : Recoverable v torn)
    {es : List Entry} (hes : v.layout id = some es) {stats : SegmentStats}
    (hid : stats.segmentId = id) (hmark : stats.indexedUpToOffset = v.marks id) :
    ∃ f, scanSegment X fullScan v.active id stats (encodeAll X es ++ torn id) = .ok f ∧
      ScansTo v id es f := by
  have hentries : v.entriesAt id = es := by simp [entriesAt, hes]
  have hbehind := hr.behind id
  have hstart : scanStart fullScan stats.indexedUpToOffset (encodeAll X es ++ torn id).length =
      v.scanFrom id := by
    rw [length_append, length_encodeAll, hmark, scanFrom, hentries]
    cases fullScan with
    | true => simp [scanStart, hfull rfl]
    | false =>
      cases htorn : torn id with
      | nil => rfl
      | cons b torn =>
        rw [hentries, htorn] at hbehind
        have hle := hbehind (cons_ne_nil b torn)
        rw [scanStart, scanStart, if_neg Bool.false_ne_true, if_neg Bool.false_ne_true,
          if_pos (by omega), if_pos hle]
  obtain ⟨before, after, heq, hsize⟩ := hr.aligned id
  rw [hentries] at heq
  have hafter : ∀ e ∈ after, e.Valid := fun e he => hr.valid hes e (by simp [heq, he])
  have hscan := scanEntries_encodeAll X id before hafter (hr.short id)
  rw [← heq, hsize, ← hstart] at hscan
  obtain ⟨f, hf, hlength, h⟩ := exists_scans v.active hscan
  refine ⟨f, hf, ?_, hlength, h.segmentId.trans hid, h.sealed, ?_⟩
  · rw [h.records, hstart, pendingIn, recordsIn, filter_map, hentries, heq, ← hsize]
    exact congrArg _ (filter_offsetsFrom before after).symm
  · rw [h.upTo, hstart, hlength, hmark, caughtUpTo, hentries, length_append, length_encodeAll]
    by_cases hle : sizeAll es ≤ v.scanFrom id
    · rw [if_pos hle]
      split
      · rfl
      next hlt =>
        -- only torn bytes are scanned: the mark was at the end of the entries before
        have hmark' := hbehind fun hnil => hlt (by simpa [hnil] using hle)
        rw [scanFrom, scanStart, if_neg Bool.false_ne_true, if_pos hmark'] at hle
        rw [hentries] at hmark'
        omega
    · rw [if_neg hle, if_neg (by omega)]

theorem finds_of_recoverable {fullScan : Bool} (hfull : fullScan = true → ∀ id, v.marks id = 0)
    (hr : Recoverable v torn) (hm : Discovered v m)
    {fs : FileSystem FileName} (hfs : HoldsTorn X v torn fs) :
    ∃ found : Nat → SegmentScan, Finds X fullScan m fs found ∧
      ∀ id es, v.layout id = some es → ScansTo v id es (found id) := by
  have hone : ∀ id, ∃ f : SegmentScan, ∀ es, v.layout id = some es →
      scanOf X fullScan m fs id = .ok f ∧ ScansTo v id es f := by
    intro id
    cases hes : v.layout id with
    | none => exact ⟨⟨.new id, [], 0⟩, fun es h => by cases h⟩
    | some es =>
      have hsegId : ((m.segments[id]?).getD (.new id)).segmentId = id := by
        cases hst : m.segments[id]? with
        | none => rfl
        | some st => exact (hm.stats hst).1
      obtain ⟨f, hscan, hf⟩ := scanSegment_of_recoverable X hfull hr hes hsegId
        ((m.indexedUpToOffset_getD id).trans (hm.marks id))
      refine ⟨f, fun es' h => ?_⟩
      cases h
      refine ⟨?_, hf⟩
      rw [scanOf, hm.active, hfs id, hes]
      exact hscan
  choose found hspec using hone
  refine ⟨found, fun id hid => ?_, fun id es hes => (hspec id es hes).2⟩
  rw [mem_diskSegments, hfs id] at hid
  cases hes : v.layout id with
  | none => exact absurd (by rw [hes]; rfl) hid
  | some es => exact (hspec id es hes).1

variable {found : Nat → SegmentScan}

theorem scanned_of_updated {m' : GlobalMeta} (hm : Discovered v m)
    (htop : ∀ {id es}, v.layout id = some es → id ≤ v.active) {ids : List Nat}
    (hmem : ∀ id, id ∈ ids ↔ v.layout id ≠ none)
    (hspec : ∀ id es, v.layout id = some es → ScansTo v id es (found id))
    (h : Updated found ids m m') : Scanned v m' where
  active := h.active.trans hm.active
  marks := by
    intro id
    rw [indexedUpTo]
    cases hes : v.layout id with
    | none =>
      rw [h.kept id fun hid => (hmem id).mp hid hes, ← indexedUpTo, hm.marks id,
        caughtUpTo, if_pos (by simp [entriesAt, hes])]
    | some es =>
      rw [h.scanned id ((hmem id).mpr (by rw [hes]; exact Option.some_ne_none es)),
        Option.map_some, Option.getD_some]
      exact (hspec id es hes).upTo
  stats := by
    intro id st hst
    cases hes : v.layout id with
    | none =>
      rw [h.kept id fun hid => (hmem id).mp hid hes] at hst
      refine ⟨(hm.stats hst).1, (hm.stats hst).2, ?_⟩
      rintro - rfl
      rw [hm.fresh hes] at hst
      cases hst
    | some es =>
      rw [h.scanned id ((hmem id).mpr (by rw [hes]; exact Option.some_ne_none es))] at hst
      cases hst
      have hscan := hspec id es hes
      exact ⟨hscan.segmentId, htop hes, fun hs => by simpa [hscan.sealed] using hs⟩
  tracked := by
    intro id hsome
    rw [h.scanned id ((hmem id).mpr hsome)]
    exact Option.some_ne_none _
  fresh := by
    intro hnone
    rw [h.kept v.active fun hid => (hmem _).mp hid hnone]
    exact hm.fresh hnone

/-! ## The view of the open store -/

/-- Every segment is recorded as indexed as far as recovery has read it. -/
def View.caughtUp (v : View) : View := { v with marks := v.caughtUpTo }

/-- The view once the store is open. -/
def View.opened (v : View) : View :=
  { v.caughtUp.insertAll v.pending with
    layout := Function.update v.layout v.active (some (v.entriesAt v.active)) }

theorem View.layout_opened (h : v.layout id ≠ none) : v.opened.layout id = v.layout id := by
  obtain ⟨es, hes⟩ := Option.ne_none_iff_exists'.mp h
  by_cases hid : id = v.active
  · subst hid
    simp [opened, entriesAt, hes]
  · simp [opened, hid]

theorem View.layout_of_opened {es : List Entry} (h : v.opened.layout id = some es) :
    v.layout id = some es ∨ (id = v.active ∧ es = []) := by
  by_cases hsome : v.layout id = none
  · by_cases hid : id = v.active
    · subst hid
      simp only [opened, Function.update_self, entriesAt, hsome, Option.getD_none,
        Option.some.injEq] at h
      exact .inr ⟨rfl, h.symm⟩
    · simp [opened, hid, hsome] at h
  · rw [layout_opened hsome] at h
    exact .inl h

variable {c d : Disk}

theorem onDisk_of_scanned {layout : Nat → Option (List Entry)} {table : Key → Option IndexRecord}
    (hvalid : ∀ {id es}, layout id = some es → ∀ e ∈ es, e.Valid)
    (htop : ∀ {id es}, layout id = some es → id ≤ v.active) (hpos : 1 ≤ v.active)
    (hactive : layout v.active = none → v.layout v.active = none) (htable : c.index.table = table)
    (hreadable : c.index.readable = true) (hm : Scanned v m) (hbin : c.metaBin = some m)
    (hread : ∀ id, c.fs.read? (.seg id) = (layout id).map (encodeAll X)) :
    OnDisk X ⟨layout, table, v.caughtUpTo, v.active⟩ c where
  valid := hvalid
  table := htable
  readable := hreadable
  marks := by
    rw [hbin]
    exact hm.marks
  pos := hpos
  top := htop
  metaTop := by
    rw [hbin]
    exact hm.active.le
  stats := by
    rw [hbin]
    exact fun hst => ⟨(hm.stats hst).1, (hm.stats hst).2.1⟩
  fresh := by
    rw [hbin]
    exact fun hnone => ⟨hm.active, hm.fresh (hactive hnone)⟩
  read := hread

/-- The engine as `Engine::open` hands it out, with an empty pool of files. -/
def Engine.opened (d : Disk) (out : GlobalMeta × SegmentWriter) : Engine where
  disk := d
  globalMeta := out.1
  activeWriter := out.2
  filePool := []

theorem inMemory_opened {out : GlobalMeta × SegmentWriter} (h : OnDisk X v.opened d)
    (hm : Scanned v out.1) (hwriter : out.2.AtEnd v.active d.fs) :
    InMemory X v.opened (Engine.opened d out) where
  toOnDisk := h
  writerId := hwriter.id_eq
  writerFile := hwriter.file
  writerPos := hwriter.pos
  writerBytes := hwriter.bytesWritten
  activeId := hm.active
  memMarks := hm.marks
  memStats := hm.stats
  tracked := by
    intro id es hes hne
    have hlayout := (layout_of_opened hes).resolve_right fun h => hne h.2
    exact hm.tracked (by rw [hlayout]; exact Option.some_ne_none es)
  pool := fun hp => by simp [Engine.opened] at hp

/-! ## The whole of `Engine::open` -/

theorem discovered_of_described (h : Described v d) (hfs : HoldsTorn X v torn d.fs) :
    Discovered v (discover (diskSegments d.fs) (d.metaBin.getD .new)) := by
  have hmem : ∀ id, id ∈ diskSegments d.fs ↔ v.layout id ≠ none := by
    intro id
    rw [mem_diskSegments, hfs id]
    simp
  refine ⟨?_, ?_, ?_, ?_⟩
  · refine le_antisymm (active_discover_le (Nat.pos_iff_ne_zero.mp h.pos) h.metaTop
      fun id hid => ?_) ?_
    · obtain ⟨es, hes⟩ := Option.ne_none_iff_exists'.mp ((hmem id).mp hid)
      exact h.top hes
    · by_cases hnone : v.layout v.active = none
      · exact (h.fresh hnone).1.symm.le.trans (active_le_discover _ _)
      · exact le_active_discover (diskSegments_sorted d.fs) _ ((hmem _).mpr hnone)
  · intro id
    rw [indexedUpTo_discover, h.marks id]
  · intro id st hst
    rw [getElem?_discover] at hst
    by_cases hin : id ∈ diskSegments d.fs
    · rw [if_pos hin] at hst
      cases hst
      obtain ⟨es, hes⟩ := Option.ne_none_iff_exists'.mp ((hmem id).mp hin)
      cases hold : (d.metaBin.getD new).segments[id]? with
      | none => exact ⟨rfl, h.top hes⟩
      | some st => exact h.stats hold
    · rw [if_neg hin] at hst
      exact h.stats hst
  · intro hnone
    rw [getElem?_discover, if_neg fun hin => (hmem _).mp hin hnone]
    exact (h.fresh hnone).2

/-- The directory as the scan meets it: the view describes the files and the index that
`Engine::open` works on. -/
structure Scannable (X : Extern) (v : View) (torn : Nat → Bytes) (d : Disk) : Prop
    extends Recoverable v torn where
  files : HoldsTorn X v torn d.fs
  table : d.openedIndex.table = v.table
  discovered : Discovered v d.scanMeta
  full : (!d.index.readable) = true → ∀ id, v.marks id = 0
  pos : 1 ≤ v.active
  top : ∀ {id es}, v.layout id = some es → id ≤ v.active

/-- What the scans find, in terms of the view. -/
structure Reads (X : Extern) (v : View) (d : Disk) (found : Nat → SegmentScan) : Prop where
  finds : Finds X (!d.index.readable) d.scanMeta d.fs found
  scanned : ∀ {m}, Updated found (diskSegments d.fs) d.scanMeta m → Scanned v m
  records : foundRecords found d = v.pending
  trimmed : ∀ id, trimmed found d.fs id = (v.layout id).map (encodeAll X)

theorem Scannable.exists_reads (h : Scannable X v torn d) : ∃ found, Reads X v d found := by
  have hmem : ∀ id, id ∈ diskSegments d.fs ↔ v.layout id ≠ none := by
    intro id
    rw [mem_diskSegments, h.files id]
    simp
  obtain ⟨found, hfound, hspec⟩ := finds_of_recoverable h.full h.toRecoverable h.discovered h.files
  refine ⟨found, hfound, scanned_of_updated h.discovered h.top hmem hspec, ?_, fun id => ?_⟩
  · rw [foundRecords, pending_eq_filter, diskSegments_of_holds h.files h.top]
    refine flatMap_congr fun id hid => ?_
    obtain ⟨es, hes⟩ := Option.isSome_iff_exists.mp (mem_filter.mp hid).2
    exact (hspec id es hes).records
  · rw [Blob.trimmed, h.files id]
    cases hes : v.layout id with
    | none => rfl
    | some es => simp [(hspec id es hes).length]

theorem Reads.openedFile_eq (h : Reads X v d found) (hm : Discovered v d.scanMeta) (id : Nat) :
    openedFile found d id = (v.opened.layout id).map (encodeAll X) := by
  rw [openedFile, hm.active, h.trimmed]
  by_cases hid : id = v.active
  · subst hid
    simp only [opened, Function.update_self, entriesAt]
    cases v.layout v.active <;> rfl
  · simp [opened, hid]

/-- The stages of an open that a crash can leave behind. -/
def Opening (X : Extern) (v : View) (torn : Nat → Bytes) (c : Disk) : Prop :=
  (Described v c ∧ ∃ torn', HoldsTorn X v torn' c.fs ∧ Cut torn torn') ∨
    OnDisk X v.caughtUp c ∨ OnDisk X (v.caughtUp.insertAll v.pending) c ∨ OnDisk X v.opened c

theorem holdsTorn_of_trimming (h : Reads X v d found)
    (hfs : HoldsTorn X v torn d.fs) (htrim : Trimming found d.fs c.fs) :
    ∃ torn', HoldsTorn X v torn' c.fs ∧ Cut torn torn' := by
  refine ⟨fun id => if c.fs.read? (.seg id) = d.fs.read? (.seg id) then torn id else [],
    fun id => ?_, fun id => ?_⟩
  · dsimp only
    split
    · rename_i heq
      rw [heq, hfs id]
    · rename_i hne
      rw [(htrim id).resolve_left hne, h.trimmed]
      cases v.layout id <;> simp
  · dsimp only
    split
    · exact .inl rfl
    · exact .inr rfl

variable {config : Config}

theorem Scannable.runs_openStore (hconfig : config.validate = .ok ()) (h : Scannable X v torn d) :
    Runs (openStore X config) d
      (fun out d' => InMemory X v.opened (Engine.opened d' out))
      (fun c => (c.index = d.openedIndex ∧ c.metaBin = d.metaBin ∧
          ∃ torn', HoldsTorn X v torn' c.fs ∧ Cut torn torn') ∨
        OnDisk X v.caughtUp c ∨ OnDisk X (v.caughtUp.insertAll v.pending) c ∨
          OnDisk X v.opened c) := by
  obtain ⟨found, hreads⟩ := h.exists_reads
  have hreadable := d.readable_openedIndex
  have hinserted : ∀ {c : Disk}, c.index = d.openedIndex.insertBatch (foundRecords found d) →
      c.index.table = setAll v.table (IndexStore.updates v.pending) ∧ c.index.readable = true := by
    intro c hindex
    rw [hindex, hreads.records, IndexStore.table_insertBatch, IndexStore.readable_insertBatch,
      h.table]
    exact ⟨rfl, hreadable⟩
  have hopened : ∀ {c : Disk} {m}, c.index = d.openedIndex.insertBatch (foundRecords found d) →
      Scanned v m → c.metaBin = some m → (∀ id, c.fs.read? (.seg id) = openedFile found d id) →
      OnDisk X v.opened c := by
    intro c m hindex hm hbin hread
    have hread' : ∀ id, c.fs.read? (.seg id) = (v.opened.layout id).map (encodeAll X) :=
      fun id => (hread id).trans (hreads.openedFile_eq h.discovered id)
    refine onDisk_of_scanned (fun {id es} hes => ?_) (fun {id es} hes => ?_) h.pos ?_
      (hinserted hindex).1 (hinserted hindex).2 hm hbin hread'
    · rcases layout_of_opened hes with hes | ⟨-, rfl⟩
      · exact h.valid hes
      · exact fun e he => by cases he
    · rcases layout_of_opened hes with hes | ⟨rfl, -⟩
      · exact h.top hes
      · exact le_refl _
    · exact fun hnone => absurd hnone (by simp)
  refine (runs_openStore_of_finds hconfig hreads.finds).mono (fun out d' hout => ?_) fun c hc => ?_
  · have hm := hreads.scanned hout.updated
    have hwriter := hout.writer
    rw [hm.active] at hwriter
    exact inMemory_opened (hopened hout.index hm hout.bin hout.files) hm hwriter
  · cases hc with
    | scanning hindex hbin htrim =>
      exact .inl ⟨hindex, hbin, holdsTorn_of_trimming hreads h.files htrim⟩
    | saved m hbin hupdated hindex hread =>
      refine .inr (.inl (onDisk_of_scanned h.valid h.top h.pos id ?_ ?_
        (hreads.scanned hupdated) hbin fun id => (hread id).trans (hreads.trimmed id)))
      · rw [hindex, h.table]
      · rw [hindex, hreadable]
    | inserted m hbin hupdated hindex hread =>
      have hm := hreads.scanned hupdated
      rcases hread with hread | hread
      · exact .inr (.inr (.inl (onDisk_of_scanned h.valid h.top h.pos id
          (hinserted hindex).1 (hinserted hindex).2 hm hbin
          fun id => (hread id).trans (hreads.trimmed id))))
      · exact .inr (.inr (.inr (hopened hindex hm hbin hread)))

theorem Described.congr (h : Described v d) (hindex : c.index = d.index)
    (hbin : c.metaBin = d.metaBin) : Described v c := by
  obtain ⟨fs, index, bin⟩ := c
  cases hindex
  cases hbin
  exact { h with }

theorem runs_openStore (hconfig : config.validate = .ok ())
    (h : Described v d) (hfs : HoldsTorn X v torn d.fs) (hr : Recoverable v torn) :
    Runs (openStore X config) d
      (fun out d' => InMemory X v.opened (Engine.opened d' out)) (Opening X v torn) := by
  have hindex : d.openedIndex = d.index := if_pos h.readable
  have hmeta : d.scanMeta = discover (diskSegments d.fs) (d.metaBin.getD .new) := if_pos h.readable
  have hscannable : Scannable X v torn d :=
    { hr with
      files := hfs
      table := by rw [hindex, h.table]
      discovered := by rw [hmeta]; exact discovered_of_described h hfs
      full := by simp [h.readable]
      pos := h.pos
      top := h.top }
  refine (hscannable.runs_openStore hconfig).weaken ?_
  rintro c (⟨hc, hbin, hfiles⟩ | hc)
  · exact .inl ⟨h.congr (hc.trans hindex) hbin, hfiles⟩
  · exact .inr hc

/-! ## Clean directories -/

theorem OnDisk.holdsTorn (h : OnDisk X v d) : HoldsTorn X v (fun _ => []) d.fs := by
  intro id
  rw [h.read id]
  cases v.layout id <;> simp

theorem OnDisk.of_cut (h : Described v d) {torn : Nat → Bytes}
    (hfs : HoldsTorn X v torn d.fs) (hcut : Cut (fun _ => []) torn) : OnDisk X v d where
  toDescribed := h
  read := by
    intro id
    have hnil : torn id = [] := (hcut id).elim (fun h => h) fun h => h
    rw [hfs id, hnil]
    cases v.layout id <;> simp

theorem OnDisk.recoverable (h : OnDisk X v d) (ha : v.Aligned) : Recoverable v fun _ => [] where
  valid := h.valid
  aligned := ha
  short := fun _ => by decide
  behind := fun _ hne => absurd rfl hne

theorem OnDisk.runs_openStore (hconfig : config.validate = .ok ())
    (h : OnDisk X v d) (ha : v.Aligned) :
    Runs (openStore X config) d
      (fun out d' => InMemory X v.opened (Engine.opened d' out))
      (fun c => OnDisk X v c ∨ OnDisk X v.caughtUp c ∨
        OnDisk X (v.caughtUp.insertAll v.pending) c ∨ OnDisk X v.opened c) := by
  refine (Blob.runs_openStore hconfig h.toDescribed h.holdsTorn (h.recoverable ha)).weaken ?_
  rintro c (⟨hc, torn, hfs, hcut⟩ | hc)
  · exact .inl (OnDisk.of_cut hc hfs hcut)
  · exact .inr hc

theorem View.entriesAt_opened (v : View) (id : Nat) : v.opened.entriesAt id = v.entriesAt id := by
  by_cases hid : id = v.active
  · subst hid
    simp [opened, entriesAt]
  · simp [opened, entriesAt, hid]

theorem View.open_opened (v : View) (habove : ∀ {id}, v.active < id → v.layout id = none) :
    v.opened.Open where
  active := by simp [View.opened, View.insertAll, View.caughtUp]
  above := by
    intro id hid
    have hne : id ≠ v.active := Nat.ne_of_gt hid
    simpa [opened, hne] using habove hid

theorem View.valid_opened (v : View) (hv : v.Valid) : v.opened.Valid := by
  intro id e he
  rw [entriesAt_opened] at he
  exact hv id e he

def View.empty : View where
  layout := fun _ => none
  table := fun _ => none
  marks := fun _ => 0
  active := 1

theorem onDisk_empty (X : Extern) : OnDisk X View.empty Disk.empty where
  valid := fun h => by cases h
  table := rfl
  readable := rfl
  marks := fun id => by simp [Disk.empty, new, indexedUpTo, empty]
  pos := le_refl 1
  top := fun h => by cases h
  metaTop := le_refl 1
  stats := fun h => by simp [Disk.empty, new] at h
  fresh := fun _ => ⟨rfl, by simp [Disk.empty, new]⟩
  read := fun _ => rfl

end

end Bichon.Blob
