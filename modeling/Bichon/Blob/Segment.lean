import Bichon.Blob.Types
import Bichon.Lib.FileSystem

/-!
# Entries of a segment file

An entry is a fixed header of fifty bytes followed by its data. The writer puts
the fields down one after the other with a zero in the place of the checksum and
then seeks back to patch it in; `writeEntry_end` says that at the end of a file
the result is the file with `encode X entry` behind it. The two readers, one
through a sequential handle and one through positional reads, decode what was
encoded at any place of any file (`readEntryAt_encode`, `readEntryAtFile_encode`).
-/

namespace Bichon.Blob

open ByteFile List

/-- The files of the `segments` directory: segments by id and the temporary files
of a compaction by time stamp. -/
inductive FileName where
  | seg (id : Nat)
  | temp (timestamp : Nat)
  deriving DecidableEq

structure Entry where
  flags : UInt8
  codec : Codec
  key : Key
  rawSize : UInt32
  data : Bytes
  deriving DecidableEq

namespace Entry

def tombstone (key : Key) : Entry where
  flags := 1
  codec := .none
  key := key
  rawSize := 0
  data := []

def isTombstone (entry : Entry) : Bool := entry.flags == 1

def diskSize (entry : Entry) : Nat := ENTRY_HEADER_SIZE + entry.data.length

/-- `data.len() as u32`, the length field of the header. -/
def dataSize (entry : Entry) : UInt32 := UInt32.ofNat entry.data.length

/-- Everything behind the checksum field; this is what the checksum covers. -/
def body (entry : Entry) : Bytes :=
  [entry.flags] ++ ([entry.codec.toU8] ++ (entry.key.val ++
    (toLeBytes entry.rawSize ++ (toLeBytes entry.dataSize ++ entry.data))))

/-- The bytes of an entry once its checksum is patched in. -/
def encode (X : Extern) (entry : Entry) : Bytes :=
  toLeBytes ENTRY_MAGIC ++ (toLeBytes (X.crc32 entry.body) ++ entry.body)

/-- The fifty bytes in front of the data. -/
def header (X : Extern) (entry : Entry) : Bytes :=
  toLeBytes ENTRY_MAGIC ++ (toLeBytes (X.crc32 entry.body) ++ ([entry.flags] ++
    ([entry.codec.toU8] ++ (entry.key.val ++
      (toLeBytes entry.rawSize ++ toLeBytes entry.dataSize)))))

/-- The bytes of an entry while the checksum is still the zero placeholder. -/
def encodeUnpatched (entry : Entry) : Bytes := toLeBytes ENTRY_MAGIC ++ (toLeBytes 0 ++ entry.body)

/-- The length bound that `put` and `put_batch` check and every reader insists on. -/
def Valid (entry : Entry) : Prop := entry.data.length ≤ MAX_VALUE_SIZE

instance (entry : Entry) : Decidable entry.Valid := inferInstanceAs (Decidable (_ ≤ _))

@[simp] theorem length_body (entry : Entry) :
    entry.body.length = 42 + entry.data.length := by
  simp [body, entry.key.property]
  omega

section

variable (X : Extern) (entry : Entry)

@[simp] theorem length_header :
    (entry.header X).length = ENTRY_HEADER_SIZE := by
  simp [header, entry.key.property, ENTRY_HEADER_SIZE]

theorem encode_eq_header_append : entry.encode X = entry.header X ++ entry.data := by
  simp [encode, header, body]

@[simp] theorem length_encode :
    (entry.encode X).length = entry.diskSize := by
  simp [encode, diskSize, ENTRY_HEADER_SIZE]
  omega

end

@[simp] theorem length_encodeUnpatched (entry : Entry) :
    entry.encodeUnpatched.length = entry.diskSize := by
  simp [encodeUnpatched, diskSize, ENTRY_HEADER_SIZE]
  omega

theorem toNat_dataSize {entry : Entry} (h : entry.Valid) :
    entry.dataSize.toNat = entry.data.length := by
  have hlt : entry.data.length < 4294967296 := by
    have : entry.data.length ≤ 104857600 := h
    omega
  exact Nat.mod_eq_of_lt hlt

theorem valid_tombstone (key : Key) : (tombstone key).Valid := Nat.zero_le _

end Entry

/-- `copy_from_slice` into a key; the callers pass buffers of 32 bytes. -/
def Key.ofBytes (bs : Bytes) : Key :=
  if h : bs.length = 32 then ⟨bs, h⟩ else Key.fill 0

@[simp] theorem Key.ofBytes_val (key : Key) : Key.ofBytes key.val = key := by
  simp [Key.ofBytes, key.property]

/-! ## Writing -/

/-- Write one entry at the position of the handle. -/
def writeEntry (X : Extern) (entry : Entry) (file : Cursor) : Cursor :=
  let file := file.writeAll (toLeBytes ENTRY_MAGIC)
  -- the place of the checksum, which is only known once the data is written
  let crcPos := file.pos
  let file := file.writeAll (toLeBytes 0)
  let file := file.writeAll [entry.flags]
  let file := file.writeAll [entry.codec.toU8]
  let file := file.writeAll entry.key.val
  let file := file.writeAll (toLeBytes entry.rawSize)
  let file := file.writeAll (toLeBytes entry.dataSize)
  let file := file.writeAll entry.data
  let crc := X.crc32 entry.body
  let file := file.seekStart crcPos
  let file := file.writeAll (toLeBytes crc)
  file.seekEnd

theorem writeEntry_end (X : Extern) (entry : Entry) (content : Bytes) :
    writeEntry X entry ⟨content, content.length⟩ =
      ⟨content ++ entry.encode X, (content ++ entry.encode X).length⟩ := by
  have hpatch (crc : UInt32) := Cursor.writeAll_mid (content ++ toLeBytes ENTRY_MAGIC)
    (toLeBytes 0) entry.body (toLeBytes crc)
    (content ++ toLeBytes ENTRY_MAGIC).length rfl rfl
  simp only [Entry.body, append_assoc] at hpatch
  simp only [writeEntry, Cursor.writeAll_end, Cursor.seekStart, append_assoc]
  rw [hpatch]
  simp [Cursor.seekEnd, Entry.encode, Entry.body]

/-- An open segment file: the inode behind the handle, the position of the handle
and the count of bytes written that serves as the next offset. -/
structure SegmentWriter where
  file : Nat
  pos : Nat
  id : Nat
  bytesWritten : Nat
  deriving DecidableEq

namespace SegmentWriter

def isFull (writer : SegmentWriter) : Bool := SEGMENT_MAX_SIZE ≤ writer.bytesWritten

/-- The file system and the writer after appending an entry; the offset it was
written at is the old `bytesWritten`. -/
def append (X : Extern) (entry : Entry) (writer : SegmentWriter) (fs : FileSystem FileName) :
    SegmentWriter × FileSystem FileName :=
  let file := writeEntry X entry ⟨fs.data writer.file, writer.pos⟩
  ({ writer with pos := file.pos, bytesWritten := writer.bytesWritten + entry.diskSize },
    fs.write writer.file file.content)

theorem append_end (X : Extern) (entry : Entry) (writer : SegmentWriter)
    (fs : FileSystem FileName) (h : writer.pos = (fs.data writer.file).length) :
    writer.append X entry fs = ({ writer with
          pos := (fs.data writer.file ++ entry.encode X).length
          bytesWritten := writer.bytesWritten + entry.diskSize },
        fs.write writer.file (fs.data writer.file ++ entry.encode X)) := by
  simp only [append, h, writeEntry_end]

end SegmentWriter

/-! ## Reading -/

/-- `read_exact`: a short read is an `UnexpectedEof`. -/
def readOrEof (file : Bytes) (offset n : Nat) : Except Error Bytes :=
  match readExact file offset n with
  | some bs => .ok bs
  | none => .error (.io .unexpectedEof)

/-- Read one entry through a handle that moves from field to field. Returns the
entry and the offset of the next one. -/
def readEntryAt (X : Extern) (segmentId : Nat) (file : Bytes) (offset : Nat) :
    Except Error (Entry × Nat) := do
  let magicBuf ← readOrEof file offset 4
  let magic := fromLeBytes magicBuf
  if magic ≠ ENTRY_MAGIC then
    .error (.corruptEntry segmentId offset (.badMagic magic))
  else
    let crcBuf ← readOrEof file (offset + 4) 4
    let flagsBuf ← readOrEof file (offset + 8) 1
    let codecBuf ← readOrEof file (offset + 9) 1
    match Codec.fromU8 (codecBuf.headD 0) with
    | none => .error (.corruptEntry segmentId offset (.unknownCodec (codecBuf.headD 0)))
    | some codec =>
      let keyBuf ← readOrEof file (offset + 10) 32
      let rawSizeBuf ← readOrEof file (offset + 42) 4
      let dataSizeBuf ← readOrEof file (offset + 46) 4
      let dataSize := fromLeBytes dataSizeBuf
      if MAX_VALUE_SIZE < dataSize.toNat then
        .error (.corruptEntry segmentId offset (.dataSizeExceedsMax dataSize))
      else
        let data ← readOrEof file (offset + 50) dataSize.toNat
        let computedCrc := X.crc32 ([flagsBuf.headD 0] ++ ([codec.toU8] ++
          ((Key.ofBytes keyBuf).val ++ (toLeBytes (fromLeBytes rawSizeBuf) ++
            (toLeBytes dataSize ++ data)))))
        if fromLeBytes crcBuf ≠ computedCrc then
          .error (.crcMismatch segmentId offset)
        else
          .ok (⟨flagsBuf.headD 0, codec, Key.ofBytes keyBuf, fromLeBytes rawSizeBuf, data⟩,
            offset + ENTRY_HEADER_SIZE + dataSize.toNat)

def slice (header : Bytes) (pos n : Nat) : Bytes := (header.drop pos).take n

/-- Read one entry with positional reads: the whole header first, then the data. -/
def readEntryWith (X : Extern) (pread : Nat → Nat → Except Error Bytes) (segmentId offset : Nat) :
    Except Error (Entry × Nat) := do
  let header ← pread offset ENTRY_HEADER_SIZE
  let magic := fromLeBytes (slice header 0 4)
  if magic ≠ ENTRY_MAGIC then
    .error (.corruptEntry segmentId offset (.badMagic magic))
  else
    let storedCrc := fromLeBytes (slice header 4 4)
    let flags := header.getD 8 0
    match Codec.fromU8 (header.getD 9 0) with
    | none => .error (.corruptEntry segmentId offset (.unknownCodec (header.getD 9 0)))
    | some codec =>
      let key := Key.ofBytes (slice header 10 32)
      let rawSize := fromLeBytes (slice header 42 4)
      let dataSize := fromLeBytes (slice header 46 4)
      if MAX_VALUE_SIZE < dataSize.toNat then
        .error (.corruptEntry segmentId offset (.dataSizeExceedsMax dataSize))
      else
        let data ← pread (offset + ENTRY_HEADER_SIZE) dataSize.toNat
        let computedCrc := X.crc32 ([flags] ++ ([codec.toU8] ++ (key.val ++
          (toLeBytes rawSize ++ (toLeBytes dataSize ++ data)))))
        if storedCrc ≠ computedCrc then
          .error (.crcMismatch segmentId offset)
        else
          .ok (⟨flags, codec, key, rawSize, data⟩,
            offset + ENTRY_HEADER_SIZE + dataSize.toNat)

/-- `read_entry_at_file`, where a read reports a file that ends too early. -/
def readEntryAtFile (X : Extern) (segmentId : Nat) (file : Bytes) (offset : Nat) :
    Except Error (Entry × Nat) :=
  readEntryWith X (readOrEof file) segmentId offset

/-! ## Reading back -/

/-- The entry `e` stands at `offset` of the file. -/
def EntryAt (X : Extern) (file : Bytes) (offset : Nat) (e : Entry) : Prop :=
  ∃ before after, file = before ++ (e.encode X ++ after) ∧ before.length = offset

theorem readOrEof_append (before mid after : Bytes) (offset n : Nat)
    (ho : offset = before.length) (hn : n = mid.length) :
    readOrEof (before ++ (mid ++ after)) offset n = .ok mid := by
  simp [readOrEof, readExact_append before mid after offset n ho hn]

variable {bs file header : Bytes} {offset : Nat}

theorem readOrEof_eq_ok_iff {n : Nat} :
    readOrEof file offset n = .ok bs ↔ readExact file offset n = some bs := by
  unfold readOrEof
  cases readExact file offset n <;> simp

/-- Where the whole header can be read, every field can, and a field read is a
slice of the header. -/
theorem readOrEof_field (h : readOrEof file offset ENTRY_HEADER_SIZE = .ok header) (i n : Nat)
    (hin : i + n ≤ ENTRY_HEADER_SIZE) :
    readOrEof file (offset + i) n = .ok (slice header i n) := by
  obtain ⟨htake, hlen⟩ := readExact_eq_some_iff.mp (readOrEof_eq_ok_iff.mp h)
  rw [readOrEof_eq_ok_iff, readExact_eq_some_iff]
  subst htake
  have hslice : slice ((file.drop offset).take ENTRY_HEADER_SIZE) i n =
      (file.drop (offset + i)).take n := by
    rw [slice, drop_take, take_take, drop_drop, Nat.min_eq_left (by omega)]
  refine ⟨hslice.symm, ?_⟩
  rw [hslice]
  simp only [length_take, length_drop] at hlen ⊢
  omega

theorem headD_slice_one (header : Bytes) (i : Nat) :
    (slice header i 1).headD 0 = header.getD i 0 := by
  rw [slice, headD_eq_head?_getD, head?_take, if_neg Nat.one_ne_zero,
    head?_drop, getD_eq_getElem?_getD]

variable {X : Extern}

theorem readEntryAt_eq_readEntryAtFile
    (segmentId : Nat) (h : readOrEof file offset ENTRY_HEADER_SIZE = .ok header) :
    readEntryAt X segmentId file offset = readEntryAtFile X segmentId file offset := by
  have hmagic : readOrEof file offset 4 = .ok (slice header 0 4) :=
    readOrEof_field h 0 4 (by decide)
  have hcrc := readOrEof_field h 4 4 (by decide)
  have hflags := readOrEof_field h 8 1 (by decide)
  have hcodec := readOrEof_field h 9 1 (by decide)
  have hkey := readOrEof_field h 10 32 (by decide)
  have hraw := readOrEof_field h 42 4 (by decide)
  have hdata := readOrEof_field h 46 4 (by decide)
  simp only [readEntryAt, readEntryAtFile, readEntryWith, h, hmagic, hcrc, hflags, hcodec, hkey,
    hraw, hdata, headD_slice_one, ok_bind]
  rfl

section

variable (X : Extern) (e : Entry)

theorem slice_header_magic : slice (e.header X) 0 4 = toLeBytes ENTRY_MAGIC := rfl

theorem slice_header_crc : slice (e.header X) 4 4 = toLeBytes (X.crc32 e.body) := rfl

theorem getD_header_flags : (e.header X).getD 8 0 = e.flags := rfl

theorem getD_header_codec : (e.header X).getD 9 0 = e.codec.toU8 := rfl

theorem slice_header_key : slice (e.header X) 10 32 = e.key.val := by
  have h : (e.header X).drop 10 = e.key.val ++ (toLeBytes e.rawSize ++ toLeBytes e.dataSize) := rfl
  rw [slice, h, take_append_of_le_length (le_of_eq e.key.property.symm),
    take_of_length_le (le_of_eq e.key.property)]

theorem drop_header_key : (e.header X).drop 42 = toLeBytes e.rawSize ++ toLeBytes e.dataSize := by
  have h : (e.header X).drop 42 =
      (e.key.val ++ (toLeBytes e.rawSize ++ toLeBytes e.dataSize)).drop 32 := rfl
  rw [h, drop_left' e.key.property]

theorem slice_header_rawSize : slice (e.header X) 42 4 = toLeBytes e.rawSize := by
  rw [slice, drop_header_key]
  rfl

theorem slice_header_dataSize : slice (e.header X) 46 4 = toLeBytes e.dataSize := by
  have h : (e.header X).drop 46 = ((e.header X).drop 42).drop 4 := by
    rw [drop_drop]
  rw [slice, h, drop_header_key]
  rfl

end

variable {e : Entry}

theorem readOrEof_header (h : EntryAt X file offset e) :
    readOrEof file offset ENTRY_HEADER_SIZE = .ok (e.header X) := by
  obtain ⟨before, after, rfl, rfl⟩ := h
  rw [Entry.encode_eq_header_append, append_assoc]
  exact readOrEof_append _ _ _ _ _ rfl (Entry.length_header X e).symm

theorem readOrEof_data (h : EntryAt X file offset e) :
    readOrEof file (offset + ENTRY_HEADER_SIZE) e.data.length = .ok e.data := by
  obtain ⟨before, after, rfl, rfl⟩ := h
  rw [Entry.encode_eq_header_append, append_assoc, ← append_assoc before]
  exact readOrEof_append _ _ _ _ _ (by simp) rfl

theorem readEntryAtFile_encode (segmentId : Nat) (h : EntryAt X file offset e) (hv : e.Valid) :
    readEntryAtFile X segmentId file offset = .ok (e, offset + e.diskSize) := by
  have hsize : e.dataSize.toNat = e.data.length := Entry.toNat_dataSize hv
  have hmax : ¬ MAX_VALUE_SIZE < e.data.length := Nat.not_lt.mpr hv
  simp only [readEntryAtFile, readEntryWith, readOrEof_header h, ok_bind, slice_header_magic,
    slice_header_crc, getD_header_flags, getD_header_codec, slice_header_key,
    slice_header_rawSize, slice_header_dataSize, fromLeBytes_toLeBytes, Codec.fromU8_toU8,
    Key.ofBytes_val, hsize, hmax, readOrEof_data h, ne_eq, not_true_eq_false, if_false]
  have hbody : X.crc32 e.body = X.crc32 ([e.flags] ++ ([e.codec.toU8] ++ (e.key.val ++
      (toLeBytes e.rawSize ++ (toLeBytes e.dataSize ++ e.data))))) := rfl
  rw [if_neg (not_not.mpr hbody), Nat.add_assoc]
  rfl

theorem readEntryAt_encode (segmentId : Nat) (h : EntryAt X file offset e) (hv : e.Valid) :
    readEntryAt X segmentId file offset = .ok (e, offset + e.diskSize) := by
  rw [readEntryAt_eq_readEntryAtFile segmentId (readOrEof_header h)]
  exact readEntryAtFile_encode segmentId h hv

/-! ## What is accepted is an entry -/

theorem slice_append_drop (bs : Bytes) (i n : Nat) :
    slice bs i n ++ bs.drop (i + n) = bs.drop i := by
  rw [slice, ← drop_drop, take_append_drop]

theorem length_slice {i n : Nat} (h : i + n ≤ bs.length) : (slice bs i n).length = n := by
  simp only [slice, length_take, length_drop]
  omega

theorem slice_one {i : Nat} (h : i < bs.length) : slice bs i 1 = [bs.getD i 0] := by
  rw [slice, drop_eq_getElem_cons h, getD_eq_getElem?_getD,
    getElem?_eq_getElem h]
  rfl

theorem header_eq_fields (h : header.length = ENTRY_HEADER_SIZE) :
    header = slice header 0 4 ++ (slice header 4 4 ++ ([header.getD 8 0] ++
      ([header.getD 9 0] ++ (slice header 10 32 ++ (slice header 42 4 ++
        slice header 46 4))))) := by
  have hlen : header.length = 50 := h
  have hend : header.drop 50 = [] := drop_eq_nil_of_le (le_of_eq hlen)
  have hlast := slice_append_drop header 46 4
  rw [hend, append_nil] at hlast
  rw [← slice_one (by omega), ← slice_one (by omega), hlast,
    slice_append_drop header 42 4, slice_append_drop header 10 32,
    slice_append_drop header 9 1, slice_append_drop header 8 1,
    slice_append_drop header 4 4, slice_append_drop header 0 4, drop_zero]

theorem readEntryAtFile_eq_ok {segmentId : Nat} {next : Nat}
    (h : readEntryAtFile X segmentId file offset = .ok (e, next)) :
    ∃ header, readOrEof file offset ENTRY_HEADER_SIZE = .ok header ∧
      fromLeBytes (slice header 0 4) = ENTRY_MAGIC ∧
      Codec.fromU8 (header.getD 9 0) = some e.codec ∧
      (fromLeBytes (slice header 46 4)).toNat ≤ MAX_VALUE_SIZE ∧
      readOrEof file (offset + ENTRY_HEADER_SIZE)
        (fromLeBytes (slice header 46 4)).toNat = .ok e.data ∧
      fromLeBytes (slice header 4 4) = X.crc32 ([e.flags] ++ ([e.codec.toU8] ++
        (e.key.val ++ (toLeBytes e.rawSize ++
          (toLeBytes (fromLeBytes (slice header 46 4)) ++ e.data))))) ∧
      e.flags = header.getD 8 0 ∧ e.key = Key.ofBytes (slice header 10 32) ∧
      e.rawSize = fromLeBytes (slice header 42 4) ∧
      next = offset + ENTRY_HEADER_SIZE + (fromLeBytes (slice header 46 4)).toNat := by
  rw [readEntryAtFile, readEntryWith] at h
  cases hheader : readOrEof file offset ENTRY_HEADER_SIZE with
  | error err => simp [hheader] at h
  | ok header =>
    simp only [hheader, ok_bind] at h
    split at h
    · cases h
    · rename_i hmagic
      split at h
      · cases h
      · rename_i codec hcodec
        split at h
        · cases h
        · rename_i hmax
          cases hdata : readOrEof file (offset + ENTRY_HEADER_SIZE)
              (fromLeBytes (slice header 46 4)).toNat with
          | error err => simp [hdata] at h
          | ok data =>
            simp only [hdata, ok_bind] at h
            split at h
            · cases h
            · rename_i hcrc
              cases h
              exact ⟨header, rfl, not_not.mp hmagic, hcodec, Nat.not_lt.mp hmax, hdata,
                not_not.mp hcrc, rfl, rfl, rfl, rfl⟩

/-- What the positional reader accepts is the encoding of the entry it returns,
standing whole inside the file. -/
theorem entryAt_of_readEntryAtFile {segmentId : Nat} {next : Nat}
    (h : readEntryAtFile X segmentId file offset = .ok (e, next)) :
    EntryAt X file offset e ∧ e.Valid ∧ next = offset + e.diskSize := by
  obtain ⟨header, hheader, hmagic, hcodec, hmax, hdata, hcrc, hflags, hkey, hraw, hnext⟩ :=
    readEntryAtFile_eq_ok h
  obtain ⟨htake, hlen⟩ := readExact_eq_some_iff.mp (readOrEof_eq_ok_iff.mp hheader)
  obtain ⟨hdtake, hdlen⟩ := readExact_eq_some_iff.mp (readOrEof_eq_ok_iff.mp hdata)
  have hlen50 : header.length = 50 := hlen
  have hsize : e.dataSize = fromLeBytes (slice header 46 4) := by
    rw [Entry.dataSize, hdlen, UInt32.ofNat_toNat]
  have hkeyval : e.key.val = slice header 10 32 := by
    rw [hkey, Key.ofBytes, dif_pos (length_slice (by omega))]
  have hbody : fromLeBytes (slice header 4 4) = X.crc32 e.body := by
    rw [hcrc, ← hsize]
    rfl
  have hheaderEq : e.header X = header := by
    rw [header_eq_fields hlen, Entry.header, ← hmagic, ← hbody, hflags,
      Codec.toU8_of_fromU8 hcodec, hkeyval, hraw, hsize,
      toLeBytes_fromLeBytes (length_slice (by omega)),
      toLeBytes_fromLeBytes (length_slice (by omega)),
      toLeBytes_fromLeBytes (length_slice (by omega)),
      toLeBytes_fromLeBytes (length_slice (by omega))]
  have hoffset : offset ≤ file.length := by
    have := le_length_of_readExact (by decide) (readOrEof_eq_ok_iff.mp hheader)
    omega
  refine ⟨⟨file.take offset, file.drop (offset + e.diskSize), ?_, ?_⟩, ?_, ?_⟩
  · rw [Entry.encode_eq_header_append, hheaderEq, append_assoc]
    have hrest : e.data ++ file.drop (offset + e.diskSize) =
        file.drop (offset + ENTRY_HEADER_SIZE) := by
      rw [← hdtake, ← hdlen, Entry.diskSize, ← Nat.add_assoc,
        ← drop_drop (i := e.data.length), take_append_drop]
    rw [hrest, ← htake, ← drop_drop, take_append_drop, take_append_drop]
  · rw [length_take, Nat.min_eq_left hoffset]
  · rw [Entry.Valid, hdlen]
    exact hmax
  · rw [hnext, ← hdlen, Nat.add_assoc]
    rfl

end Bichon.Blob
