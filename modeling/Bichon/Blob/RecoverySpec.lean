import Bichon.Blob.Recovery

/-!
# Recovery on any directory

Nothing is assumed here about the bytes in the segment files. If the scan of every
segment succeeds, `Finds` names what it finds, and opening the store cuts the files
where the scans stopped, saves the statistics, inserts the records and creates the
active segment when it is missing. The stages in which a crash can leave the
directory are listed by `Stage`: while the files are cut, after the metadata was
saved, and after the records were inserted.
-/

namespace Bichon.Blob

open ByteFile LastWrite Durable FileSystem List GlobalMeta Prog Runs

/-! ## Parts of the directory that do not matter -/

theorem runs_cleanupTempFiles {P : Disk → Prop}
    (hP : ∀ d timestamp, P d → P { d with fs := d.fs.remove (.temp timestamp) }) {d : Disk}
    (h : P d) : Runs cleanupTempFiles d (fun _ d' => P d') P := by
  refine bind (state ?_)
  generalize d.fs.names.filterMap FileName.tempId? = timestamps
  induction timestamps generalizing d with
  | nil => exact pure h
  | cons timestamp rest ih =>
    have hnext := hP d timestamp h
    exact bind (durable (ih hnext) hnext)

/-- Two directories with the same segment files. -/
def SameSegments (fs fs' : FileSystem FileName) : Prop :=
  ∀ id, fs'.read? (.seg id) = fs.read? (.seg id)

theorem SameSegments.diskSegments_eq {fs fs' : FileSystem FileName} (h : SameSegments fs fs') :
    diskSegments fs' = diskSegments fs := by
  apply diskSegments_eq_of_mem_iff (diskSegments_sorted fs)
  intro id
  rw [mem_diskSegments, h id]

theorem SameSegments.remove_temp {fs fs' : FileSystem FileName} (h : SameSegments fs fs')
    (timestamp : Nat) : SameSegments fs (fs'.remove (.temp timestamp)) := by
  intro id
  rw [read?_remove, if_neg (by simp)]
  exact h id

theorem getElem?_discover (ids : List Nat) (m : GlobalMeta) (id : Nat) :
    (discover ids m).segments[id]? =
      if id ∈ ids then some ((m.segments[id]?).getD (.new id)) else m.segments[id]? := by
  have hfold : ∀ (ids : List Nat) (segments : Std.ExtTreeMap Nat SegmentStats),
      (ids.foldl (fun segments id => segments.insertIfNew id (SegmentStats.new id)) segments)[id]? =
        if id ∈ ids then some ((segments[id]?).getD (SegmentStats.new id)) else segments[id]? := by
    intro ids
    induction ids with
    | nil => intro segments; simp
    | cons id' ids ih =>
      intro segments
      rw [foldl_cons, ih, Std.ExtTreeMap.getElem?_insertIfNew]
      by_cases hid : id' = id
      · subst hid
        cases hsome : segments[id']? with
        | none | some => simp [← Std.ExtTreeMap.isSome_getElem?_iff_mem, hsome]
      · simp [hid, Ne.symm hid]
  exact hfold ids m.segments

theorem GlobalMeta.indexedUpTo_discover (ids : List Nat) (m : GlobalMeta) (id : Nat) :
    (discover ids m).indexedUpTo id = m.indexedUpTo id := by
  rw [indexedUpTo, getElem?_discover, indexedUpTo]
  split
  · cases m.segments[id]? <;> rfl
  · rfl

theorem GlobalMeta.indexedUpToOffset_getD (m : GlobalMeta) (id : Nat) :
    ((m.segments[id]?).getD (.new id)).indexedUpToOffset = m.indexedUpTo id := by
  rw [indexedUpTo]
  cases m.segments[id]? <;> rfl

theorem le_getLastD {ids : List Nat} (hsorted : ids.Pairwise (· < ·)) {id : Nat} (h : id ∈ ids) :
    id ≤ ids.getLastD 0 := by
  induction ids using reverseRecOn with
  | nil => cases h
  | append_singleton ids last _ =>
    rw [getLastD_concat]
    rcases mem_append.mp h with h | h
    · exact ((pairwise_append.mp hsorted).2.2 id h last (mem_singleton_self last)).le
    · rw [mem_singleton.mp h]

theorem le_active_discover {ids : List Nat} (hsorted : ids.Pairwise (· < ·)) (m : GlobalMeta)
    {id : Nat} (h : id ∈ ids) : id ≤ (discover ids m).activeSegmentId := by
  have hle := le_getLastD hsorted h
  dsimp only [discover]
  split <;> split <;> omega

theorem active_le_discover (ids : List Nat) (m : GlobalMeta) :
    m.activeSegmentId ≤ (discover ids m).activeSegmentId := by
  dsimp only [discover]
  split <;> split <;> omega

theorem active_discover_le {ids : List Nat} {m : GlobalMeta} {n : Nat} (hn : n ≠ 0)
    (hm : m.activeSegmentId ≤ n) (h : ∀ id ∈ ids, id ≤ n) :
    (discover ids m).activeSegmentId ≤ n := by
  have hlast : ids.getLastD 0 ≤ n := by
    rcases mem_cons.mp (getLastD_mem_cons (l := ids) (a := 0)) with heq | hmem
    · omega
    · exact h _ hmem
  dsimp only [discover]
  split <;> split <;> omega

/-! ## One segment -/

theorem scanStart_le (fullScan : Bool) (mark size : Nat) : scanStart fullScan mark size ≤ size := by
  unfold scanStart
  split
  · exact Nat.zero_le _
  · split <;> omega

theorem foldl_visitStats (visited : List (Entry × Nat)) (stats : SegmentStats) :
    (visited.foldl visitStats stats).segmentId = stats.segmentId ∧
      (visited.foldl visitStats stats).sealed = stats.sealed ∧
      (visited.foldl visitStats stats).sha256 = stats.sha256 := by
  induction visited generalizing stats with
  | nil => exact ⟨rfl, rfl, rfl⟩
  | cons found visited ih => exact ih (visitStats stats found)

section

variable {X : Extern} {fullScan : Bool} {activeId id : Nat} {stats : SegmentStats} {file : Bytes}
  {f : SegmentScan} {visited : List (Entry × Nat)} {point : Nat}

/-- What the scan of a segment gives. Where nothing is left to scan, the scan of the entries
would find nothing. -/
structure Scans (X : Extern) (fullScan : Bool) (activeId id : Nat) (stats : SegmentStats)
    (file : Bytes) (visited : List (Entry × Nat)) (f : SegmentScan) : Prop where
  scan : scanEntries X id file (scanStart fullScan stats.indexedUpToOffset file.length) =
    ⟨visited, .ok f.length⟩
  records : f.records = visited.map (IndexRecord.ofEntry id)
  segmentId : f.stats.segmentId = stats.segmentId
  sealed : f.stats.sealed = (id != activeId)
  sha256 : f.stats.sha256 = stats.sha256
  upTo : f.stats.indexedUpToOffset =
    if file.length ≤ scanStart fullScan stats.indexedUpToOffset file.length then
      stats.indexedUpToOffset
    else f.length

theorem scanEntries_end (h : file.length ≤ scanStart fullScan stats.indexedUpToOffset file.length) :
    scanEntries X id file (scanStart fullScan stats.indexedUpToOffset file.length) =
      ⟨[], .ok file.length⟩ := by
  rw [(scanStart_le ..).antisymm h]
  exact scanEntries_of_short (Nat.lt_add_of_pos_right (by decide))

theorem scans_of_scanSegment (h : scanSegment X fullScan activeId id stats file = .ok f) :
    ∃ visited, Scans X fullScan activeId id stats file visited f := by
  rw [scanSegment] at h
  dsimp only at h
  split at h
  next hend =>
    cases h
    exact ⟨[], scanEntries_end hend, rfl, rfl, rfl, rfl, (if_pos hend).symm⟩
  next hlt =>
    generalize hscan : scanEntries X id file
      (scanStart fullScan stats.indexedUpToOffset file.length) = scan at h
    obtain ⟨visited, outcome⟩ := scan
    cases outcome with
    | error err => cases h
    | ok point =>
      cases h
      have hstats := foldl_visitStats visited { stats with sealed := id != activeId }
      refine ⟨visited, hscan, rfl, ?_, ?_, ?_, ?_⟩
      · exact (SegmentStats.segmentId_recomputeRatio ..).trans hstats.1
      · exact (SegmentStats.sealed_recomputeRatio ..).trans hstats.2.1
      · exact (SegmentStats.sha256_recomputeRatio ..).trans hstats.2.2
      · rw [if_neg hlt, SegmentStats.indexedUpToOffset_recomputeRatio]

theorem exists_scans (activeId : Nat)
    (h : scanEntries X id file (scanStart fullScan stats.indexedUpToOffset file.length) =
      ⟨visited, .ok point⟩) :
    ∃ f, scanSegment X fullScan activeId id stats file = .ok f ∧ f.length = point ∧
      Scans X fullScan activeId id stats file visited f := by
  obtain ⟨f, hf⟩ : ∃ f, scanSegment X fullScan activeId id stats file = .ok f := by
    rw [scanSegment]
    dsimp only
    split
    · exact ⟨_, rfl⟩
    · rw [h]
      exact ⟨_, rfl⟩
  obtain ⟨visited', hscans⟩ := scans_of_scanSegment hf
  obtain ⟨rfl, hpoint⟩ := Scan.mk.inj (hscans.scan.symm.trans h)
  exact ⟨f, hf, Except.ok.inj hpoint, hscans⟩

end

/-! ## The loop over the segments -/

/-- What the scan of a segment gives, with the metadata and the directory at hand. -/
def scanOf (X : Extern) (fullScan : Bool) (m : GlobalMeta) (fs : FileSystem FileName)
    (id : Nat) : Except Error SegmentScan :=
  scanSegment X fullScan m.activeSegmentId id ((m.segments[id]?).getD (.new id))
    ((fs.read? (.seg id)).getD [])

/-- The scans of these segments succeed. -/
def Finds (X : Extern) (fullScan : Bool) (m : GlobalMeta) (fs : FileSystem FileName)
    (found : Nat → SegmentScan) : Prop :=
  ∀ id ∈ diskSegments fs, scanOf X fullScan m fs id = .ok (found id)

/-- The file of a segment, cut where its scan stopped. -/
def trimmed (found : Nat → SegmentScan) (fs : FileSystem FileName) (id : Nat) : Option Bytes :=
  (fs.read? (.seg id)).map fun file => file.take (found id).length

/-- Some of the files are cut already. -/
def Trimming (found : Nat → SegmentScan) (fs fs' : FileSystem FileName) : Prop :=
  ∀ id, fs'.read? (.seg id) = fs.read? (.seg id) ∨ fs'.read? (.seg id) = trimmed found fs id

/-- Nothing but the files has changed, and they are being cut. -/
def Disk.Trims (found : Nat → SegmentScan) (d c : Disk) : Prop :=
  c.index = d.index ∧ c.metaBin = d.metaBin ∧ Trimming found d.fs c.fs

/-- The statistics of the scanned segments are replaced. -/
structure Updated (found : Nat → SegmentScan) (ids : List Nat) (m m' : GlobalMeta) : Prop where
  active : m'.activeSegmentId = m.activeSegmentId
  scanned : ∀ id ∈ ids, m'.segments[id]? = some (found id).stats
  kept : ∀ id, id ∉ ids → m'.segments[id]? = m.segments[id]?

/-- Only the file of one segment has changed; it is cut where its scan stopped. -/
structure Disk.Truncates (found : Nat → SegmentScan) (id : Nat) (d d' : Disk) : Prop where
  self : d'.fs.read? (.seg id) = trimmed found d.fs id
  rest : ∀ id', id' ≠ id → d'.fs.read? (.seg id') = d.fs.read? (.seg id')
  index : d'.index = d.index
  metaBin : d'.metaBin = d.metaBin

section

variable {X : Extern} {fullScan : Bool} {m : GlobalMeta} {d : Disk}
  {found : Nat → SegmentScan}

theorem runs_truncateSegment (found : Nat → SegmentScan) (id : Nat) (d : Disk) :
    Runs (truncateSegment id ((d.fs.read? (.seg id)).getD []).length (found id).length) d
      (fun _ => d.Truncates found id) (d.Truncates found id) := by
  unfold truncateSegment
  cases hread : d.fs.read? (.seg id) with
  | none => exact pure ⟨by rw [trimmed, hread]; rfl, fun _ _ => rfl, rfl, rfl⟩
  | some file =>
    rw [Option.getD_some]
    split_ifs with hlt
    · have hcut : d.Truncates found id
          { d with fs := d.fs.setLen (.seg id) (found id).length } := by
        refine ⟨?_, fun id' hne => read?_setLen_ne _ _ (by simpa using hne), rfl, rfl⟩
        rw [read?_setLen_self hread hlt.le, trimmed, hread]
        rfl
      exact durable hcut hcut
    · refine pure ⟨?_, fun _ _ => rfl, rfl, rfl⟩
      rw [trimmed, hread, Option.map_some, take_of_length_le (Nat.le_of_not_lt hlt)]

theorem Disk.Truncates.trims {d₁ c : Disk} {id : Nat} (h : d.Truncates found id d₁)
    (hc : d₁.Trims found c) : d.Trims found c := by
  refine ⟨hc.1.trans h.index, hc.2.1.trans h.metaBin, fun id' => ?_⟩
  have htrim := hc.2.2 id'
  by_cases hid : id' = id
  · subst hid
    rcases htrim with htrim | htrim
    · exact .inr (htrim.trans h.self)
    · refine .inr (htrim.trans ?_)
      rw [trimmed, h.self, trimmed, Option.map_map]
      congr 1
      funext file
      rw [Function.comp_apply, take_take, Nat.min_self]
  · rwa [trimmed, h.rest id' hid] at htrim

/-- Where the scans succeed, `found` is what they give. The loop fails if one of them does. -/
theorem yields_scanLoopSegments {ids : List Nat} (hnodup : ids.Nodup)
    (hfound : ∀ id ∈ ids, ∀ f, scanOf X fullScan m d.fs id = .ok f → f = found id)
    (records : List IndexRecord) :
    Yields (scanLoopSegments X fullScan ids m records) d
      (fun out d' => (∀ id ∈ ids, scanOf X fullScan m d.fs id = .ok (found id)) ∧
        out.2 = records ++ ids.flatMap (fun id => (found id).records) ∧
        Updated found ids m out.1 ∧
        (∀ id, d'.fs.read? (.seg id) =
          if id ∈ ids then trimmed found d.fs id else d.fs.read? (.seg id)) ∧
        d'.index = d.index)
      (fun c => (¬ ∀ id ∈ ids, scanOf X fullScan m d.fs id = .ok (found id)) ∧ d.Trims found c)
      (d.Trims found) := by
  induction ids generalizing m records d with
  | nil =>
    refine Yields.pure ⟨by simp, by simp, ⟨rfl, by simp, fun _ _ => rfl⟩, fun id => ?_, rfl⟩
    rw [if_neg not_mem_nil]
  | cons id ids ih =>
    obtain ⟨hnotin, hnodup⟩ := nodup_cons.mp hnodup
    refine Yields.state_bind (Yields.lift_bind (fun f hf => ?_) fun e he => ?_)
    · obtain rfl := hfound id mem_cons_self f hf
      refine Yields.bind ((runs_truncateSegment found id d).weaken fun _ h =>
        h.trims ⟨rfl, rfl, fun _ => .inl rfl⟩).yields ?_
      intro _ d₁ h₁
      -- the segments still to be scanned have not changed
      have hscan : ∀ id' ∈ ids, scanOf X fullScan
          { m with segments := m.segments.insert id (found id).stats } d₁.fs id' =
            scanOf X fullScan m d.fs id' := by
        intro id' hmem
        have hne : id' ≠ id := fun heq => hnotin (heq ▸ hmem)
        rw [scanOf, scanOf, h₁.rest id' hne]
        rw [getElem?_insert, if_neg (Ne.symm hne)]
      refine (ih hnodup (fun id' hmem f hf => hfound id' (mem_cons_of_mem _ hmem) f
        ((hscan id' hmem).symm.trans hf)) _).mono ?_ ?_ fun _ => h₁.trims
      · rintro out d' ⟨hall, hout, hupdated, hread, hindex⟩
        refine ⟨forall_mem_cons.mpr ⟨hf, fun id' hmem => hscan id' hmem ▸ hall id' hmem⟩,
          by rw [hout, flatMap_cons, append_assoc], ⟨hupdated.active, ?_, ?_⟩, ?_,
          hindex.trans h₁.index⟩
        · intro id' hmem
          rcases mem_cons.mp hmem with rfl | hmem
          · rw [hupdated.kept id' hnotin, getElem?_insert, if_pos rfl]
          · exact hupdated.scanned id' hmem
        · intro id' hmem
          have hne : id ≠ id' := fun heq => hmem (heq ▸ mem_cons_self)
          rw [hupdated.kept id' fun h => hmem (mem_cons_of_mem _ h),
            getElem?_insert, if_neg hne]
        · intro id'
          rw [hread id']
          by_cases hid : id' = id
          · rw [hid, if_neg hnotin, if_pos mem_cons_self]
            exact h₁.self
          · have hmem : id' ∈ id :: ids ↔ id' ∈ ids := by simp [hid]
            simp only [hmem, trimmed, h₁.rest id' hid]
      · rintro c ⟨hnot, hc⟩
        exact ⟨fun hall => hnot fun id' hmem =>
          (hscan id' hmem).trans (hall id' (mem_cons_of_mem _ hmem)), h₁.trims hc⟩
    · refine ⟨fun hall => ?_, rfl, rfl, fun _ => .inl rfl⟩
      cases he.symm.trans (hall id mem_cons_self)

theorem yields_scanSegments
    (hfound : ∀ id ∈ diskSegments d.fs, ∀ f, scanOf X fullScan m d.fs id = .ok f → f = found id) :
    Yields (scanSegments X fullScan m) d
      (fun out d' => Finds X fullScan m d.fs found ∧
        out.2 = (diskSegments d.fs).flatMap (fun id => (found id).records) ∧
        Updated found (diskSegments d.fs) m out.1 ∧
        (∀ id, d'.fs.read? (.seg id) = trimmed found d.fs id) ∧
        d'.index = d.index ∧ d'.metaBin = some out.1)
      (fun c => ¬ Finds X fullScan m d.fs found ∧ d.Trims found c)
      (fun c => d.Trims found c ∨
        (c.index = d.index ∧ (∀ id, c.fs.read? (.seg id) = trimmed found d.fs id) ∧
            ∃ m', c.metaBin = some m' ∧ Updated found (diskSegments d.fs) m m')) := by
  refine Yields.state_bind (Yields.bind ((yields_scanLoopSegments
    ((diskSegments_sorted d.fs).imp fun h => ne_of_lt h) hfound []).mono (fun _ _ h => h)
    (fun _ h => h) fun _ => .inl) ?_)
  rintro out d' ⟨hfinds, hout, hupdated, hread, hindex⟩
  have hread' : ∀ id, d'.fs.read? (.seg id) = trimmed found d.fs id := by
    intro id
    rw [hread id]
    by_cases hmem : id ∈ diskSegments d.fs
    · rw [if_pos hmem]
    · rw [mem_diskSegments, not_not] at hmem
      rw [trimmed, hmem]
      exact ite_self none
  exact Yields.durable_bind (.inr ⟨hindex, hread', out.1, rfl, hupdated⟩)
    (Yields.pure ⟨hfinds, hout, hupdated, hread', hindex, rfl⟩)

/-! ## The whole of `Engine::open` -/

theorem GlobalMeta.indexedUpTo_resetStats (m : GlobalMeta) (id : Nat) :
    m.resetStats.indexedUpTo id = 0 := by
  rw [indexedUpTo, resetStats, Std.ExtTreeMap.getElem?_map]
  cases m.segments[id]? with
  | none | some => rfl

/-- The index after an unreadable one was replaced. -/
def Disk.openedIndex (d : Disk) : IndexStore := if d.index.readable then d.index else .empty

theorem Disk.readable_openedIndex (d : Disk) : d.openedIndex.readable = true := by
  rw [Disk.openedIndex]
  split
  · assumption
  · rfl

def Disk.savedMeta (d : Disk) : GlobalMeta := d.metaBin.getD .new

/-- The metadata the scan starts from. -/
def Disk.scanMeta (d : Disk) : GlobalMeta :=
  if d.index.readable then
    discover (diskSegments d.fs) (d.metaBin.getD .new)
  else
    (discover (diskSegments d.fs) (d.metaBin.getD .new)).resetStats

theorem scanStart_scanMeta (d : Disk) (id fileSize : Nat) :
    scanStart (!d.index.readable) ((d.scanMeta.segments[id]?).getD (.new id)).indexedUpToOffset
      fileSize = scanStart (!d.index.readable) (d.savedMeta.indexedUpTo id) fileSize := by
  rw [indexedUpToOffset_getD, Disk.scanMeta]
  cases d.index.readable with
  | true =>
    rw [if_pos rfl, indexedUpTo_discover]
    rfl
  | false => rfl

/-- The files of an open store. -/
def openedFile (found : Nat → SegmentScan) (d : Disk) (id : Nat) : Option Bytes :=
  if id = d.scanMeta.activeSegmentId then
    some ((trimmed found d.fs id).getD [])
  else
    trimmed found d.fs id

def foundRecords (found : Nat → SegmentScan) (d : Disk) : List IndexRecord :=
  (diskSegments d.fs).flatMap fun id => (found id).records

/-- Where a crash inside `Engine::open` can leave the directory. -/
inductive Stage (found : Nat → SegmentScan) (d c : Disk) : Prop where
  | scanning (index : c.index = d.openedIndex) (bin : c.metaBin = d.metaBin)
      (files : Trimming found d.fs c.fs)
  | saved (m : GlobalMeta) (bin : c.metaBin = some m)
      (updated : Updated found (diskSegments d.fs) d.scanMeta m)
      (index : c.index = d.openedIndex)
      (files : ∀ id, c.fs.read? (.seg id) = trimmed found d.fs id)
  | inserted (m : GlobalMeta) (bin : c.metaBin = some m)
      (updated : Updated found (diskSegments d.fs) d.scanMeta m)
      (index : c.index = d.openedIndex.insertBatch (foundRecords found d))
      (files : (∀ id, c.fs.read? (.seg id) = trimmed found d.fs id) ∨
        ∀ id, c.fs.read? (.seg id) = openedFile found d id)

theorem openIndex_eq (d : Disk) :
    (openIndex d).result = .ok (!d.index.readable) ∧
      (openIndex d).state = { d with index := d.openedIndex } ∧
      ∀ c ∈ (openIndex d).passed, c = { d with index := d.openedIndex } := by
  rw [openIndex, state_bind, Disk.openedIndex]
  cases hreadable : d.index.readable with
  | true => exact ⟨rfl, rfl, fun _ h => by cases h⟩
  | false => exact ⟨rfl, rfl, fun _ h => mem_singleton.mp h⟩

theorem scanSegments_bind {α : Type} (X : Extern) (d : Disk)
    (k : GlobalMeta × List IndexRecord → Prog Disk Error α) :
    (if !d.index.readable then
        rebuildIndex X (discover (diskSegments d.fs) (d.metaBin.getD .new)) >>= k
      else
        recover X (discover (diskSegments d.fs) (d.metaBin.getD .new)) >>= k) =
      scanSegments X (!d.index.readable) d.scanMeta >>= k := by
  rw [Disk.scanMeta]
  cases d.index.readable with
  | true | false => rfl

theorem runs_insertRecords (records : List IndexRecord) (d : Disk) :
    Runs (insertRecords records) d
      (fun _ d' => d' = { d with index := d.index.insertBatch records })
      (fun c => c = { d with index := d.index.insertBatch records }) := by
  cases records with
  | nil =>
    exact pure rfl
  | cons r rs =>
    exact durable rfl rfl

/-- The writer stands at the end of the file of a segment. -/
structure SegmentWriter.AtEnd (writer : SegmentWriter) (id : Nat) (fs : FileSystem FileName) :
    Prop where
  id_eq : writer.id = id
  file : fs.inode? (.seg id) = some writer.file
  pos : writer.pos = (fs.data writer.file).length
  bytesWritten : writer.bytesWritten = (fs.data writer.file).length

/-- Nothing has changed but that the segment has a file. -/
def Disk.Activates (id : Nat) (d d' : Disk) : Prop :=
  d'.index = d.index ∧ d'.metaBin = d.metaBin ∧ ∀ id', d'.fs.read? (.seg id') =
    if id' = id then some ((d.fs.read? (.seg id')).getD []) else d.fs.read? (.seg id')

theorem runs_openActive (id : Nat) (d : Disk) :
    Runs (openActive id) d (fun writer d' => writer.AtEnd id d'.fs ∧ d.Activates id d')
      (d.Activates id) := by
  refine bind (state ?_)
  cases hi : d.fs.inode? (.seg id) with
  | some file =>
    refine pure ⟨⟨rfl, hi, rfl, rfl⟩, rfl, rfl, fun id' => ?_⟩
    split
    · rename_i heq
      rw [heq, read?_eq_some hi]
      rfl
    · rfl
  | none =>
    have hread : ∀ id', (d.fs.create (.seg id)).read? (.seg id') =
        if id' = id then some ((d.fs.read? (.seg id')).getD []) else d.fs.read? (.seg id') := by
      intro id'
      split
      · rename_i heq
        rw [heq, read?_create_self, read?_eq_none_iff.mpr hi]
        rfl
      · rename_i hne
        exact read?_create_ne _ (by simpa using hne)
    have hfile : (d.fs.create (.seg id)).inode? (.seg id) = some d.fs.next := by
      rw [inode?_create_of_none hi, if_pos rfl]
    have hdata : (d.fs.create (.seg id)).data d.fs.next = [] := by
      rw [data_create_of_none hi, if_pos rfl]
    refine bind (durable (pure ⟨⟨rfl, hfile, ?_, ?_⟩, rfl, rfl, hread⟩) ⟨rfl, rfl, hread⟩)
    · rw [hdata]
      rfl
    · rw [hdata]
      rfl

/-- What `Engine::open` returns and leaves behind. -/
structure Opens (found : Nat → SegmentScan) (d : Disk) (out : GlobalMeta × SegmentWriter)
    (d' : Disk) : Prop where
  updated : Updated found (diskSegments d.fs) d.scanMeta out.1
  bin : d'.metaBin = some out.1
  index : d'.index = d.openedIndex.insertBatch (foundRecords found d)
  files : ∀ id, d'.fs.read? (.seg id) = openedFile found d id
  writer : out.2.AtEnd out.1.activeSegmentId d'.fs

theorem yields_openStore (config : Config) (hfound : ∀ id ∈ diskSegments d.fs, ∀ f,
      scanOf X (!d.index.readable) d.scanMeta d.fs id = .ok f → f = found id) :
    Yields (openStore X config) d
      (fun out d' => (config.validate = .ok () ∧
        Finds X (!d.index.readable) d.scanMeta d.fs found) ∧ Opens found d out d')
      (fun c => ¬ (config.validate = .ok () ∧
        Finds X (!d.index.readable) d.scanMeta d.fs found) ∧ (c = d ∨ Stage found d c))
      (Stage found d) := by
  have hstart : ∀ {c : Disk}, c.index = d.openedIndex → c.metaBin = d.metaBin →
      SameSegments d.fs c.fs → Stage found d c := fun hindex hbin hsame =>
    .scanning hindex hbin fun id => .inl (hsame id)
  refine Yields.lift_bind (fun _ hconfig => ?_) fun e he => ⟨fun h => ?_, .inl rfl⟩
  swap
  · cases he.symm.trans h.1
  obtain ⟨hresult, hstate, hpassed⟩ := openIndex_eq d
  refine Yields.bind (P := fun rebuilt c => rebuilt = !d.index.readable ∧
    c = { d with index := d.openedIndex }) ⟨fun a ha => ?_, fun e he => ?_, fun c hc => ?_⟩ ?_
  · exact ⟨(Except.ok.inj (hresult.symm.trans ha)).symm, hstate⟩
  · cases hresult.symm.trans he
  · rw [hpassed c hc]
    exact hstart rfl rfl fun _ => rfl
  rintro _ _ ⟨rfl, rfl⟩
  refine Yields.state_bind ?_
  have hclean := runs_cleanupTempFiles
    (P := fun c : Disk => c.index = d.openedIndex ∧ c.metaBin = d.metaBin ∧
      SameSegments d.fs c.fs) (d := { d with index := d.openedIndex })
    (fun c timestamp h => ⟨h.1, h.2.1, h.2.2.remove_temp timestamp⟩) ⟨rfl, rfl, fun _ => rfl⟩
  refine Yields.bind (hclean.weaken fun c h => hstart h.1 h.2.1 h.2.2).yields ?_
  rintro _ d₁ ⟨hindex₁, hbin₁, hsame₁⟩
  dsimp only
  rw [scanSegments_bind]
  have hids := hsame₁.diskSegments_eq
  have htrimmed : ∀ id, trimmed found d₁.fs id = trimmed found d.fs id := fun id => by
    rw [trimmed, trimmed, hsame₁ id]
  have hscan : ∀ id, scanOf X (!d.index.readable) d.scanMeta d₁.fs id =
      scanOf X (!d.index.readable) d.scanMeta d.fs id := fun id => by
    rw [scanOf, scanOf, hsame₁ id]
  have hfinds : Finds X (!d.index.readable) d.scanMeta d₁.fs found ↔
      Finds X (!d.index.readable) d.scanMeta d.fs found := by
    simp only [Finds, hids, hscan]
  have htrims : ∀ c, d₁.Trims found c → Stage found d c := by
    rintro c ⟨hindex, hbin, htrim⟩
    refine .scanning (hindex.trans hindex₁) (hbin.trans hbin₁) fun id => ?_
    have hid := htrim id
    rwa [htrimmed id, hsame₁ id] at hid
  refine Yields.bind ((yields_scanSegments fun id hid f hf => hfound id (hids ▸ hid) f
    (hscan id ▸ hf)).mono (fun _ _ h => h) ?_ ?_) ?_
  · rintro c ⟨hnot, hc⟩
    exact ⟨fun h => hnot (hfinds.mpr h.2), .inr (htrims c hc)⟩
  · rintro c (hc | ⟨hindex, hread, m, hbin, hupdated⟩)
    · exact htrims c hc
    · rw [hids] at hupdated
      exact .saved m hbin hupdated (hindex.trans hindex₁) fun id => (hread id).trans (htrimmed id)
  · rintro out d₂ ⟨hall, hout, hupdated, hread, hindex, hbin⟩
    rw [hids] at hout hupdated
    rw [hindex₁] at hindex
    have hread₂ : ∀ id, d₂.fs.read? (.seg id) = trimmed found d.fs id :=
      fun id => (hread id).trans (htrimmed id)
    rw [hout]
    refine Yields.bind ((runs_insertRecords _ d₂).weaken ?_).yields ?_
    · rintro c rfl
      refine .inserted out.1 hbin hupdated ?_ (.inl hread₂)
      rw [hindex]
      rfl
    · rintro _ d₃ rfl
      have hstage : ∀ {c : Disk}, Disk.Activates out.1.activeSegmentId
          { d₂ with index := d₂.index.insertBatch (foundRecords found d) } c →
          Stage found d c ∧ c.index = d.openedIndex.insertBatch (foundRecords found d) ∧
            ∀ id, c.fs.read? (.seg id) = openedFile found d id := by
        rintro c ⟨hcindex, hcbin, hcread⟩
        have hcread' : ∀ id, c.fs.read? (.seg id) = openedFile found d id := by
          intro id
          rw [hcread id, hread₂ id, hupdated.active]
          rfl
        rw [hindex] at hcindex
        exact ⟨.inserted out.1 (hcbin.trans hbin) hupdated hcindex (.inr hcread'), hcindex, hcread'⟩
      refine Yields.bind ((runs_openActive _ _).weaken fun _ h => (hstage h).1).yields ?_
      rintro writer d₄ ⟨hwriter, hcindex, -, hcread⟩
      obtain ⟨hst, hfinal, hfiles⟩ := hstage (c := { d₄ with metaBin := some out.1 })
        ⟨hcindex, hbin.symm, hcread⟩
      exact Yields.durable_bind hst (Yields.pure
        ⟨⟨hconfig, hfinds.mp hall⟩, hupdated, rfl, hfinal, hfiles, hwriter⟩)

theorem runs_openStore_of_finds {config : Config} (hconfig : config.validate = .ok ())
    (hfound : Finds X (!d.index.readable) d.scanMeta d.fs found) :
    Runs (openStore X config) d (Opens found d) (Stage found d) := by
  have hopen := yields_openStore config fun id hid f hf =>
    Except.ok.inj (hf.symm.trans (hfound id hid))
  exact (hopen.runs fun c hc => hc.1 ⟨hconfig, hfound⟩).mono (fun _ _ h => h.2) fun _ h => h

/-- What the scan of a segment finds. A file that it gives up on stays as it is. -/
def Disk.scanned (X : Extern) (d : Disk) (id : Nat) : SegmentScan :=
  match scanOf X (!d.index.readable) d.scanMeta d.fs id with
  | .ok scan => scan
  | .error _ => ⟨.new id, [], ((d.fs.read? (.seg id)).getD []).length⟩

theorem Disk.scanned_of_ok {f : SegmentScan} {id : Nat}
    (h : scanOf X (!d.index.readable) d.scanMeta d.fs id = .ok f) : f = d.scanned X id := by
  rw [scanned, h]

/-- An open that succeeds has scanned every segment. -/
theorem finds_of_openStore {config : Config} {out : GlobalMeta × SegmentWriter}
    (h : (openStore X config d).result = .ok out) :
    config.validate = .ok () ∧ ∃ found, Finds X (!d.index.readable) d.scanMeta d.fs found := by
  obtain ⟨⟨hconfig, hfinds⟩, -⟩ :=
    (yields_openStore config fun _ _ _ hf => d.scanned_of_ok hf).1 out h
  exact ⟨hconfig, _, hfinds⟩

end

end Bichon.Blob
