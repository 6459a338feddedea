import Bichon.Blob.MapRefinement

/-!
# A torn entry at the end of a segment

A crash in the middle of an append leaves a prefix of the entry's bytes, with or
without its checksum. If the cut lies inside the header, the scan stops in front of
it and opening the store cuts it off. If the header is complete and only data is
missing, the scan runs into the end of the file, which it does not take for a torn
tail: it fails with `UnexpectedEof`, and so does `Engine::open`.

`torn_tail_iff` says both, for every list of entries, every cut and every directory.
-/

namespace Bichon.Blob

open ByteFile LastWrite Durable List Function

/-! ## Files written by `SegmentWriter::append` -/

section

variable (X : Extern) (es : List Entry)

/-- The bytes of a segment file after appending the entries one by one. -/
def segmentBytes : Bytes := (es.foldl (fun file e => writeEntry X e file) ⟨[], 0⟩).content

theorem foldl_writeEntry (content : Bytes) :
    es.foldl (fun file e => writeEntry X e file) ⟨content, content.length⟩ =
      ⟨content ++ encodeAll X es, (content ++ encodeAll X es).length⟩ := by
  induction es generalizing content with
  | nil => simp
  | cons e es ih =>
    rw [foldl_cons, writeEntry_end, ih, encodeAll_cons, append_assoc]

theorem segmentBytes_eq : segmentBytes X es = encodeAll X es := by
  have h := foldl_writeEntry X es []
  rw [segmentBytes]
  simp only [length_nil, nil_append] at h
  rw [h]

end

/-! ## A complete header without its data -/

/-- The checksum is the only thing in an entry's header that depends on `X`; zero is
the placeholder of an unfinished entry. -/
def Extern.unpatched (X : Extern) : Extern := { X with crc32 := fun _ => 0 }

theorem readEntryAtFile_cut (X Y : Extern) (segmentId : Nat) (before : Bytes) {e : Entry}
    {rest : Bytes} (hv : e.Valid) (hrest : rest.length < e.data.length) :
    readEntryAtFile X segmentId (before ++ (e.header Y ++ rest)) before.length =
      .error (.io .unexpectedEof) := by
  have hheader : readOrEof (before ++ (e.header Y ++ rest)) before.length ENTRY_HEADER_SIZE =
      .ok (e.header Y) :=
    readOrEof_append _ _ _ _ _ rfl (Entry.length_header Y e).symm
  have hdata : readOrEof (before ++ (e.header Y ++ rest)) (before.length + ENTRY_HEADER_SIZE)
      e.data.length = .error (.io .unexpectedEof) := by
    have hshort : (before ++ (e.header Y ++ rest)).length <
        before.length + ENTRY_HEADER_SIZE + e.data.length := by
      simp only [length_append, Entry.length_header]
      omega
    rw [readOrEof, readExact_eq_none (by omega) hshort]
  have hsize : e.dataSize.toNat = e.data.length := Entry.toNat_dataSize hv
  have hmax : ¬ MAX_VALUE_SIZE < e.data.length := Nat.not_lt.mpr hv
  simp only [readEntryAtFile, readEntryWith, hheader, ok_bind, slice_header_magic,
    getD_header_codec, slice_header_dataSize, fromLeBytes_toLeBytes, Codec.fromU8_toU8, hsize, hmax,
    hdata, ne_eq, not_true_eq_false, if_false, error_bind]

theorem scanEntries_cut (X Y : Extern) (segmentId : Nat) (es : List Entry) {fs : List Entry}
    {e : Entry} {rest : Bytes} (hfs : ∀ f ∈ fs, f.Valid) (hv : e.Valid)
    (hrest : rest.length < e.data.length) :
    (scanEntries X segmentId (encodeAll X (es ++ fs) ++ (e.header Y ++ rest))
      (sizeAll es)).outcome = .error (.io .unexpectedEof) := by
  have h := scanEntries_entries X segmentId (encodeAll X es) (e.header Y ++ rest) hfs
  have hfile : encodeAll X (es ++ fs) ++ (e.header Y ++ rest) =
      encodeAll X es ++ (encodeAll X fs ++ (e.header Y ++ rest)) := by
    rw [encodeAll_append, append_assoc]
  have hlen : (encodeAll X (es ++ fs)).length = sizeAll es + sizeAll fs := by simp
  have hheader : readOrEof (encodeAll X (es ++ fs) ++ (e.header Y ++ rest))
      (sizeAll es + sizeAll fs) ENTRY_HEADER_SIZE = .ok (e.header Y) :=
    readOrEof_append _ _ _ _ _ hlen.symm (Entry.length_header Y e).symm
  have hread := readEntryAtFile_cut X Y segmentId (encodeAll X (es ++ fs)) hv hrest
  rw [hlen] at hread
  have hend : scanEntries X segmentId (encodeAll X (es ++ fs) ++ (e.header Y ++ rest))
      (sizeAll es + sizeAll fs) = ⟨[], .error (.io .unexpectedEof)⟩ := by
    have hguard : sizeAll es + sizeAll fs + ENTRY_HEADER_SIZE ≤
        (encodeAll X (es ++ fs) ++ (e.header Y ++ rest)).length := by
      simp only [length_append, hlen, Entry.length_header]
      omega
    rw [scanEntries_eq, if_pos hguard, readEntryAt_eq_readEntryAtFile segmentId hheader, hread]
    rfl
  rw [length_encodeAll, ← hfile] at h
  rw [h, hend]

theorem torn_eq_header_append (X : Extern) {e : Entry} {t : Nat} (ht : ENTRY_HEADER_SIZE ≤ t)
    {torn : Bytes} (htorn : torn = (e.encode X).take t ∨ torn = e.encodeUnpatched.take t) :
    ∃ Y, torn = e.header Y ++ e.data.take (t - ENTRY_HEADER_SIZE) := by
  have hcut : ∀ Y : Extern, (e.encode Y).take t =
      e.header Y ++ e.data.take (t - ENTRY_HEADER_SIZE) := by
    intro Y
    rw [Entry.encode_eq_header_append, take_append, Entry.length_header,
      take_of_length_le (by rw [Entry.length_header]; exact ht)]
  rcases htorn with rfl | rfl
  · exact ⟨X, hcut X⟩
  · exact ⟨X.unpatched, hcut X.unpatched⟩

theorem length_torn {X : Extern} {e : Entry} {t : Nat} (ht : t < e.diskSize) {torn : Bytes}
    (htorn : torn = (e.encode X).take t ∨ torn = e.encodeUnpatched.take t) :
    torn.length = t := by
  rcases htorn with rfl | rfl
  · rw [length_take, Entry.length_encode]
    omega
  · rw [length_take, Entry.length_encodeUnpatched]
    omega

/-! ## Torn directories -/

/-- The directory with some bytes added at the end of a segment file. -/
def Disk.tear (id : Nat) (torn : Bytes) (d : Disk) : Disk :=
  match d.fs.inode? (.seg id) with
  | some i => { d with fs := d.fs.write i (d.fs.data i ++ torn) }
  | none => d

section

variable {X : Extern} {v : View} {d : Disk} {id : Nat} {es : List Entry} {torn : Bytes}

theorem OnDisk.tear (h : OnDisk X v d) (hes : v.layout id = some es) (torn : Bytes) :
    Described v (d.tear id torn) ∧
      HoldsTorn X v (Function.update (fun _ => []) id torn) (d.tear id torn).fs := by
  have hread := h.read id
  rw [hes] at hread
  cases hi : d.fs.inode? (.seg id) with
  | none =>
    rw [FileSystem.read?_eq_none_iff.mpr hi] at hread
    cases hread
  | some i =>
    rw [FileSystem.read?_eq_some hi] at hread
    have htear : d.tear id torn = { d with fs := d.fs.write i (d.fs.data i ++ torn) } := by
      rw [Disk.tear, hi]
    rw [htear]
    refine ⟨⟨h.valid, h.table, h.readable, h.marks, h.pos, h.top, h.metaTop, h.stats, h.fresh⟩,
      ?_⟩
    intro id'
    by_cases hid : id' = id
    · subst hid
      rw [FileSystem.read?_write_self hi, hes, Option.map_some, update_self,
        Option.some.inj hread]
    · rw [FileSystem.read?_write_ne hi _ (by simpa using hid), h.read id',
        update_of_ne hid]
      cases v.layout id' <;> simp

theorem open_of_short_tear {config : Config} (hconfig : config.validate = .ok ()) (h : OnDisk X v d)
    (hm : v.Marked) (hes : v.layout id = some es) (hshort : torn.length < ENTRY_HEADER_SIZE) :
    (∃ out, (openStore X config (d.tear id torn)).result = .ok out) ∧
      ∀ id', d.fs.read? (.seg id') ≠ none →
        (openStore X config (d.tear id torn)).state.fs.read? (.seg id') =
          d.fs.read? (.seg id') := by
  obtain ⟨hd, hfs⟩ := h.tear hes torn
  have hr : Recoverable v (update (fun _ => []) id torn) :=
    { valid := h.valid
      aligned := hm.aligned
      short := by
        intro id'
        by_cases hid : id' = id
        · rw [hid, update_self]
          exact hshort
        · rw [update_of_ne hid]
          decide
      behind := fun id' _ => (hm id').le_sizeAll }
  obtain ⟨out, hout, hmem, -⟩ := runs_openStore hconfig hd hfs hr
  refine ⟨⟨out, hout⟩, ?_⟩
  intro id' hne
  have hread := hmem.read id'
  have hsome : v.layout id' ≠ none := by
    intro hnone
    rw [h.read id', hnone] at hne
    exact hne rfl
  rw [View.layout_opened hsome, ← h.read id'] at hread
  exact hread

theorem scanSegment_cut (X Y : Extern) (activeId id : Nat) {stats : SegmentStats}
    (hes : ∀ f ∈ es, f.Valid) {e : Entry} (hv : e.Valid) {rest : Bytes}
    (hrest : rest.length < e.data.length) (hb : Boundary es stats.indexedUpToOffset)
    (f : SegmentScan) :
    scanSegment X false activeId id stats (encodeAll X es ++ (e.header Y ++ rest)) ≠ .ok f := by
  intro h
  obtain ⟨visited, hscans⟩ := scans_of_scanSegment h
  obtain ⟨before, after, rfl, hsize⟩ := hb
  have hstart : scanStart false stats.indexedUpToOffset
      (encodeAll X (before ++ after) ++ (e.header Y ++ rest)).length = sizeAll before := by
    rw [scanStart, if_neg Bool.false_ne_true, if_pos (by simp; omega), hsize]
  have hscan := hscans.scan
  have hafter : ∀ f ∈ after, f.Valid := fun f hf => hes f (by simp [hf])
  rw [hstart] at hscan
  cases (scanEntries_cut X Y id before hafter hv hrest).symm.trans (congrArg Scan.outcome hscan)

theorem not_open_of_cut_data {config : Config} (h : OnDisk X v d) (hm : v.Marked)
    (hes : v.layout id = some es) {e : Entry} (hv : e.Valid) {Y : Extern} {rest : Bytes}
    (hrest : rest.length < e.data.length) (out : GlobalMeta × SegmentWriter) :
    (openStore X config (d.tear id (e.header Y ++ rest))).result ≠ .ok out := by
  intro hout
  obtain ⟨hd, hfs⟩ := h.tear hes (e.header Y ++ rest)
  have hfile := hfs id
  rw [hes, Option.map_some, update_self] at hfile
  obtain ⟨-, found, hfound⟩ := finds_of_openStore hout
  have hscan := hfound id (mem_diskSegments.mpr (by rw [hfile]; exact Option.some_ne_none _))
  rw [scanOf, Disk.scanMeta, if_pos hd.readable, hd.readable, hfile] at hscan
  have hmark : ((discover (diskSegments (d.tear id (e.header Y ++ rest)).fs)
      ((d.tear id (e.header Y ++ rest)).metaBin.getD .new)).segments[id]?.getD
        (.new id)).indexedUpToOffset = v.marks id := by
    rw [GlobalMeta.indexedUpToOffset_getD, (discovered_of_described hd hfs).marks]
  have hb := hm id
  have hentries : v.entriesAt id = es := by simp [View.entriesAt, hes]
  rw [hentries, ← hmark] at hb
  rw [Bool.not_true, Option.getD_some] at hscan
  exact scanSegment_cut X Y _ id (h.valid hes) hv hrest hb _ hscan

end

/-- A torn entry is cut off again exactly if the cut lies inside its header: only
then the scan succeeds and sees all complete entries, and only then the store opens
with every file as it was. -/
theorem torn_tail_iff (X : Extern) {e : Entry} (he : e.Valid) {t : Nat} (ht : t < e.diskSize)
    {torn : Bytes} (htorn : torn = (e.encode X).take t ∨ torn = e.encodeUnpatched.take t)
    {es : List Entry} (hes : ∀ f ∈ es, f.Valid) :
    (∀ segmentId, scanEntries X segmentId (segmentBytes X es ++ torn) 0 =
        ⟨offsetsFrom 0 es, .ok (sizeAll es)⟩ ↔ t < ENTRY_HEADER_SIZE) ∧
      ∀ (config : Config) (v : View) (d : Disk) (id : Nat), config.validate = .ok () →
        OnDisk X v d → v.Marked → v.layout id = some es →
        (((∃ out, (openStore X config (d.tear id torn)).result = .ok out) ∧
            ∀ id', d.fs.read? (.seg id') ≠ none →
              (openStore X config (d.tear id torn)).state.fs.read? (.seg id') =
                d.fs.read? (.seg id')) ↔ t < ENTRY_HEADER_SIZE) := by
  have hlen := length_torn ht htorn
  have hcut : ¬ t < ENTRY_HEADER_SIZE → ∃ Y, torn = e.header Y ++
      e.data.take (t - ENTRY_HEADER_SIZE) ∧
      (e.data.take (t - ENTRY_HEADER_SIZE)).length < e.data.length := by
    intro hge
    obtain ⟨Y, hY⟩ := torn_eq_header_append X (Nat.le_of_not_lt hge) htorn
    refine ⟨Y, hY, ?_⟩
    simp only [Entry.diskSize] at ht
    rw [length_take]
    omega
  constructor
  · intro segmentId
    rw [segmentBytes_eq]
    constructor
    · intro hscan
      by_contra hge
      obtain ⟨Y, hY, hrest⟩ := hcut hge
      have herr := scanEntries_cut X Y segmentId [] hes he hrest
      rw [nil_append, sizeAll_nil, ← hY, hscan] at herr
      cases herr
    · intro hlt
      rw [← hlen] at hlt
      exact scanEntries_encodeAll X segmentId [] hes hlt
  · intro config v d id hconfig h hm hlayout
    constructor
    · rintro ⟨⟨out, hout⟩, -⟩
      by_contra hge
      obtain ⟨Y, hY, hrest⟩ := hcut hge
      rw [hY] at hout
      exact not_open_of_cut_data h hm hlayout he hrest out hout
    · intro hlt
      rw [← hlen] at hlt
      exact open_of_short_tear hconfig h hm hlayout hlt

def smallEntry : Entry := ⟨0, .none, Key.fill 2, 1, [5]⟩

theorem torn_tail_iff_small :
    (∀ segmentId, scanEntries reference segmentId
        (segmentBytes reference [Entry.tombstone (Key.fill 1)] ++
          smallEntry.encodeUnpatched.take 49) 0 =
        ⟨offsetsFrom 0 [Entry.tombstone (Key.fill 1)],
          .ok (sizeAll [Entry.tombstone (Key.fill 1)])⟩ ↔ 49 < ENTRY_HEADER_SIZE) ∧
      ∀ (config : Config) (v : View) (d : Disk) (id : Nat), config.validate = .ok () →
        OnDisk reference v d → v.Marked →
        v.layout id = some [Entry.tombstone (Key.fill 1)] →
        (((∃ out, (openStore reference config
              (d.tear id (smallEntry.encodeUnpatched.take 49))).result = .ok out) ∧
            ∀ id', d.fs.read? (.seg id') ≠ none →
              (openStore reference config
                (d.tear id (smallEntry.encodeUnpatched.take 49))).state.fs.read? (.seg id') =
                d.fs.read? (.seg id')) ↔ 49 < ENTRY_HEADER_SIZE) :=
  torn_tail_iff reference (by decide) (by decide) (.inr rfl) (by decide)

/-- A store with one value, whose next append was cut right behind the header: the
scan fails, and so does opening the store. -/
theorem torn_data_aborts_open :
    smallEntry.Valid ∧ 50 < smallEntry.diskSize ∧
      (scanEntries reference 1 ((smallEntry.encode reference).take 50) 0).outcome =
        .error (.io .unexpectedEof) ∧
      (startStore reference quarterConfig [.done (.put (Key.fill 1) [1] .none)]).toOption.map
        (fun s => (openStore reference quarterConfig
          (s.disk.tear 1 ((smallEntry.encode reference).take 50))).error?) =
        some (some (.io .unexpectedEof)) := by
  decide +kernel

end Bichon.Blob
