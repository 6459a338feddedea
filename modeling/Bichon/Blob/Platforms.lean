import Bichon.Blob.Append

/-!
# Positional reads on the platforms

`pread_exact` is `read_exact_at` on Unix, which reports a file that ends too early. On
Windows it is `seek_read`, which returns the number of bytes it has read; the number is
dropped, and the rest of the buffer keeps the zeros it was made with. A positional read
there is a read of the file with zeros behind it (`readEntryAtFileOn_windows`), so it
accepts an entry of which the file holds a part only, when what is missing are zeros.
Everywhere else the two readers agree on every content and every offset.
-/

namespace Bichon.Blob

open ByteFile List

inductive Platform where
  | unix
  | windows
  | other
  deriving DecidableEq, Repr

/-- `pread_exact`: fill a buffer of zeros from a place of the file. -/
def preadExact (platform : Platform) (file : Bytes) (offset n : Nat) : Except Error Bytes :=
  match platform with
  | .unix | .other => readOrEof file offset n
  | .windows =>
    let read := (file.drop offset).take n
    .ok (read ++ List.replicate (n - read.length) 0)

/-- `read_entry_at_file` on a platform; on Unix it is the reader of the other modules. -/
def readEntryAtFileOn (X : Extern) (platform : Platform) (segmentId : Nat) (file : Bytes)
    (offset : Nat) : Except Error (Entry × Nat) :=
  readEntryWith X (preadExact platform file) segmentId offset

/-- The file with as many zeros behind it as a read at the offset can reach. -/
def zeroExtended (file : Bytes) (offset : Nat) : Bytes :=
  file ++ List.replicate (offset + ENTRY_HEADER_SIZE + MAX_VALUE_SIZE) 0

theorem readEntryAtFileOn_of_ne_windows {platform : Platform} (h : platform ≠ .windows)
    (X : Extern) (segmentId : Nat) (file : Bytes) (offset : Nat) :
    readEntryAtFileOn X platform segmentId file offset =
      readEntryAtFile X segmentId file offset := by
  cases platform with
  | unix | other => rfl
  | windows => exact absurd rfl h

theorem preadExact_windows {file : Bytes} {offset n k : Nat} (h : offset + n ≤ k) :
    preadExact .windows file offset n = readOrEof (file ++ List.replicate k 0) offset n := by
  have hread : ((file ++ replicate k 0).drop offset).take n =
      (file.drop offset).take n ++
        replicate (n - ((file.drop offset).take n).length) (0 : UInt8) := by
    rw [drop_append, take_append, drop_replicate, take_replicate]
    congr 2
    simp only [length_take, length_drop]
    omega
  have hlen : (((file ++ replicate k 0).drop offset).take n).length = n := by
    simp only [length_take, length_drop, length_append, length_replicate]
    omega
  rw [readOrEof_eq_ok_iff.mpr (readExact_eq_some_iff.mpr ⟨hread, hread ▸ hlen⟩)]
  rfl

theorem readEntryAtFileOn_windows (X : Extern) (segmentId : Nat) (file : Bytes) (offset : Nat) :
    readEntryAtFileOn X .windows segmentId file offset =
      readEntryAtFile X segmentId (zeroExtended file offset) offset := by
  have hheader : preadExact .windows file offset ENTRY_HEADER_SIZE =
      readOrEof (zeroExtended file offset) offset ENTRY_HEADER_SIZE :=
    preadExact_windows (Nat.le_add_right _ _)
  have hdata {n : Nat} (hn : ¬ MAX_VALUE_SIZE < n) :
      preadExact .windows file (offset + ENTRY_HEADER_SIZE) n =
        readOrEof (zeroExtended file offset) (offset + ENTRY_HEADER_SIZE) n :=
    preadExact_windows (by omega)
  simp only [readEntryAtFileOn, readEntryAtFile, readEntryWith, hheader]
  cases readOrEof (zeroExtended file offset) offset ENTRY_HEADER_SIZE with
  | error e => rfl
  | ok header =>
    simp only [ok_bind]
    split
    · rfl
    · cases Codec.fromU8 (header.getD 9 0) with
      | none => rfl
      | some codec =>
        dsimp only
        split
        · rfl
        · rename_i hmax
          rw [hdata hmax]

/-! ## The two readers -/

/-- Both reads found the same entry and the same next offset, or both failed. -/
def SameRead : Except Error (Entry × Nat) → Except Error (Entry × Nat) → Prop
  | .ok r, .ok r' => r = r'
  | .error _, .error _ => True
  | _, _ => False

/-- An entry that the file with zeros behind it holds at the offset lies in the file. -/
def HoldsWhole (X : Extern) (file : Bytes) (offset : Nat) : Prop :=
  ∀ e : Entry, EntryAt X (zeroExtended file offset) offset e → e.Valid →
    offset + e.diskSize ≤ file.length

theorem length_le_of_readEntryAt {X : Extern} {segmentId : Nat} {file : Bytes} {offset : Nat}
    {r : Entry × Nat} (h : readEntryAt X segmentId file offset = .ok r) :
    offset + ENTRY_HEADER_SIZE ≤ file.length := by
  obtain ⟨magicBuf, -, h⟩ := bind_eq_ok h
  dsimp only at h
  split at h
  · cases h
  · obtain ⟨crcBuf, -, h⟩ := bind_eq_ok h
    obtain ⟨flagsBuf, -, h⟩ := bind_eq_ok h
    obtain ⟨codecBuf, -, h⟩ := bind_eq_ok h
    split at h
    · cases h
    · obtain ⟨keyBuf, -, h⟩ := bind_eq_ok h
      obtain ⟨rawSizeBuf, -, h⟩ := bind_eq_ok h
      obtain ⟨dataSizeBuf, hsize, -⟩ := bind_eq_ok h
      have := le_length_of_readExact (by decide) (readOrEof_eq_ok_iff.mp hsize)
      simp only [ENTRY_HEADER_SIZE]
      omega

section

variable {X : Extern} {segmentId : Nat} {file : Bytes} {offset : Nat}

theorem readEntryAt_eq_ok_iff {e : Entry} {next : Nat} :
    readEntryAt X segmentId file offset = .ok (e, next) ↔
      EntryAt X file offset e ∧ e.Valid ∧ next = offset + e.diskSize := by
  constructor
  · intro h
    exact entryAt_of_readEntryAt (length_le_of_readEntryAt h) h
  · rintro ⟨hat, hv, rfl⟩
    exact readEntryAt_encode segmentId hat hv

theorem readEntryAtFile_eq_ok_iff {e : Entry} {next : Nat} :
    readEntryAtFile X segmentId file offset = .ok (e, next) ↔
      EntryAt X file offset e ∧ e.Valid ∧ next = offset + e.diskSize := by
  constructor
  · exact entryAt_of_readEntryAtFile
  · rintro ⟨hat, hv, rfl⟩
    exact readEntryAtFile_encode segmentId hat hv

theorem sameRead_iff {r r' : Except Error (Entry × Nat)} :
    SameRead r r' ↔ ∀ e next, r = .ok (e, next) ↔ r' = .ok (e, next) := by
  cases r with
  | ok found =>
    cases r' with
    | ok found' =>
      constructor
      · rintro ⟨⟩
        exact fun _ _ => Iff.rfl
      · intro h
        exact (Except.ok.inj ((h found.1 found.2).mp rfl)).symm
    | error err => exact ⟨False.elim, fun h => nomatch (h found.1 found.2).mp rfl⟩
  | error err =>
    cases r' with
    | ok found' => exact ⟨False.elim, fun h => nomatch (h found'.1 found'.2).mpr rfl⟩
    | error err' => exact ⟨fun _ _ _ => ⟨nofun, nofun⟩, fun _ => trivial⟩

theorem EntryAt.append {e : Entry} (h : EntryAt X file offset e) (tail : Bytes) :
    EntryAt X (file ++ tail) offset e := by
  obtain ⟨before, after, rfl, rfl⟩ := h
  exact ⟨before, after ++ tail, by simp only [append_assoc], rfl⟩

theorem EntryAt.of_append {e : Entry} {tail : Bytes} (h : EntryAt X (file ++ tail) offset e)
    (hle : offset + e.diskSize ≤ file.length) : EntryAt X file offset e := by
  obtain ⟨before, after, hfile, rfl⟩ := h
  have hlen : (before ++ e.encode X).length = before.length + e.diskSize := by simp
  have htake : file.take (before.length + e.diskSize) = before ++ e.encode X := by
    have h := congrArg (List.take (before.length + e.diskSize)) hfile
    rw [List.take_append_of_le_length hle, ← List.append_assoc, ← hlen, List.take_left] at h
    rwa [← hlen]
  refine ⟨before, file.drop (before.length + e.diskSize), ?_, rfl⟩
  rw [← append_assoc, ← htake, take_append_drop]

theorem sameRead_windows_iff :
    SameRead (readEntryAt X segmentId file offset)
        (readEntryAtFileOn X .windows segmentId file offset) ↔ HoldsWhole X file offset := by
  rw [readEntryAtFileOn_windows, sameRead_iff]
  simp only [readEntryAt_eq_ok_iff, readEntryAtFile_eq_ok_iff]
  constructor
  · intro h e hat hv
    exact ((h e _).mpr ⟨hat, hv, rfl⟩).1.le_length
  · intro h e next
    constructor
    · rintro ⟨hat, hv, hnext⟩
      exact ⟨hat.append _, hv, hnext⟩
    · rintro ⟨hat, hv, hnext⟩
      exact ⟨hat.of_append (h e hat hv), hv, hnext⟩

theorem sameRead_readEntryAtFile :
    SameRead (readEntryAt X segmentId file offset) (readEntryAtFile X segmentId file offset) := by
  rw [sameRead_iff]
  intro e next
  rw [readEntryAt_eq_ok_iff, readEntryAtFile_eq_ok_iff]

theorem readEntryAtFileOn_encode {e : Entry} (platform : Platform) (h : EntryAt X file offset e)
    (hv : e.Valid) :
    readEntryAtFileOn X platform segmentId file offset = .ok (e, offset + e.diskSize) := by
  by_cases hp : platform = .windows
  · subst hp
    rw [readEntryAtFileOn_windows]
    exact readEntryAtFile_encode segmentId (h.append _) hv
  · rw [readEntryAtFileOn_of_ne_windows hp]
    exact readEntryAtFile_encode segmentId h hv

end

/-! ## Lists of entries -/

namespace SegmentWriter

/-- Append entries one after the other, with the offsets that are returned. -/
def appendAll (X : Extern) : List Entry → SegmentWriter → FileSystem FileName →
    List Nat × SegmentWriter × FileSystem FileName
  | [], writer, fs => ([], writer, fs)
  | e :: es, writer, fs =>
    let (writer', fs') := writer.append X e fs
    let (offsets, done) := appendAll X es writer' fs'
    (writer.bytesWritten :: offsets, done)

theorem appendAll_end (X : Extern) (es : List Entry) {writer : SegmentWriter}
    {fs : FileSystem FileName} {offsets : List Nat} {writer' : SegmentWriter}
    {fs' : FileSystem FileName} (hpos : writer.pos = (fs.data writer.file).length)
    (hbytes : writer.bytesWritten = (fs.data writer.file).length)
    (h : appendAll X es writer fs = (offsets, writer', fs')) :
    offsets = (offsetsFrom (fs.data writer.file).length es).map Prod.snd ∧
      writer'.bytesWritten = (fs.data writer.file).length + sizeAll es ∧
      fs'.data writer.file = fs.data writer.file ++ encodeAll X es := by
  induction es generalizing writer fs offsets with
  | nil =>
    cases h
    exact ⟨rfl, hbytes, (append_nil _).symm⟩
  | cons e es ih =>
    rw [appendAll, append_end X e writer fs hpos] at h
    dsimp only at h
    cases hrest : appendAll X es
        { writer with
          pos := (fs.data writer.file ++ e.encode X).length
          bytesWritten := writer.bytesWritten + e.diskSize }
        (fs.write writer.file (fs.data writer.file ++ e.encode X)) with
    | mk rest done =>
      rw [hrest] at h
      cases h
      have hdata : (fs.write writer.file (fs.data writer.file ++ e.encode X)).data writer.file =
          fs.data writer.file ++ e.encode X := by
        simp [FileSystem.write]
      obtain ⟨hoffsets, hwritten, hcontent⟩ := ih (by simp only [hdata])
        (by simp only [hdata, hbytes, length_append, Entry.length_encode]) hrest
      simp only [hdata, length_append, Entry.length_encode] at hoffsets hwritten hcontent
      refine ⟨?_, ?_, ?_⟩
      · rw [offsetsFrom, map_cons, ← hoffsets, hbytes]
      · rw [hwritten, sizeAll_cons, Nat.add_assoc]
      · rw [hcontent, encodeAll_cons, append_assoc]

end SegmentWriter

theorem length_offsetsFrom (n : Nat) (es : List Entry) : (offsetsFrom n es).length = es.length := by
  induction es generalizing n with
  | nil => rfl
  | cons e es ih => simp [offsetsFrom, ih]

theorem getElem?_offsetsFrom (n : Nat) (before after : List Entry) :
    ((offsetsFrom n (before ++ after)).map Prod.snd ++
      [n + sizeAll (before ++ after)])[before.length]? =
      some (n + sizeAll before) := by
  rw [offsetsFrom_append, map_append, append_assoc,
    getElem?_append_right (by simp [length_offsetsFrom])]
  simp only [length_map, length_offsetsFrom, Nat.sub_self]
  cases after with
  | nil | cons => simp [offsetsFrom]

/-- Each entry of the list is read back at its offset, and the next one begins where
it ends. -/
def ReadsBack (X : Extern) (platform : Platform) (id : Nat) (file : Bytes) (offsets : List Nat)
    (es : List Entry) : Prop :=
  ∀ i e, es[i]? = some e → ∃ offset next, offsets[i]? = some offset ∧
    offsets[i + 1]? = some next ∧ readEntryAt X id file offset = .ok (e, next) ∧
    readEntryAtFileOn X platform id file offset = .ok (e, next)

theorem readsBack_encodeAll {X : Extern} {es : List Entry} (hv : ∀ e ∈ es, e.Valid)
    (platform : Platform) (id : Nat) (content : Bytes) :
    ReadsBack X platform id (content ++ encodeAll X es)
      ((offsetsFrom content.length es).map Prod.snd ++ [content.length + sizeAll es]) es := by
  intro i e hi
  obtain ⟨hlt, rfl⟩ := List.getElem?_eq_some_iff.mp hi
  have hsplit : es = es.take i ++ es[i] :: es.drop (i + 1) := by
    rw [← drop_eq_getElem_cons hlt, take_append_drop]
  have hlen : (es.take i).length = i := length_take_of_le (Nat.le_of_lt hlt)
  generalize es[i] = e at hsplit hi
  generalize es.take i = before at hsplit hlen
  generalize es.drop (i + 1) = after at hsplit
  subst hsplit
  subst hlen
  have hat : EntryAt X (content ++ encodeAll X (before ++ e :: after))
      (content.length + sizeAll before) e :=
    ⟨content ++ encodeAll X before, encodeAll X after,
      by simp only [encodeAll_append, encodeAll_cons, append_assoc], by simp⟩
  have hvalid : e.Valid := hv e (by simp)
  have hnext := getElem?_offsetsFrom content.length (before ++ [e]) after
  simp only [append_assoc, singleton_append, length_append, length_singleton,
    sizeAll_append, sizeAll_cons, sizeAll_nil, Nat.add_zero, ← Nat.add_assoc] at hnext
  refine ⟨content.length + sizeAll before, content.length + sizeAll before + e.diskSize,
    getElem?_offsetsFrom _ _ _, ?_, readEntryAt_encode id hat hvalid,
    readEntryAtFileOn_encode platform hat hvalid⟩
  simpa only [sizeAll_append, sizeAll_cons, ← Nat.add_assoc] using hnext

/-- The readers agree on a file and an offset unless on Windows an entry of which the
file holds a part only is completed by zeros. A list of entries that was appended to a
file is read back by both, on every platform. -/
theorem readers_agree_iff (X : Extern) (platform : Platform) (id : Nat) :
    (∀ (file : Bytes) (offset : Nat),
      SameRead (readEntryAt X id file offset) (readEntryAtFileOn X platform id file offset) ↔
        (platform = .windows → HoldsWhole X file offset)) ∧
    ∀ (inode : Nat) (fs : FileSystem FileName) (es : List Entry), (∀ e ∈ es, e.Valid) →
      ∀ offsets writer fs',
        (SegmentWriter.openAppend inode id fs).appendAll X es fs = (offsets, writer, fs') →
        ReadsBack X platform id (fs'.data inode) (offsets ++ [writer.bytesWritten]) es := by
  constructor
  · intro file offset
    by_cases hp : platform = .windows
    · subst hp
      rw [sameRead_windows_iff]
      exact ⟨fun h _ => h, fun h => h rfl⟩
    · rw [readEntryAtFileOn_of_ne_windows hp]
      simp only [sameRead_readEntryAtFile, hp, false_imp_iff]
  · intro inode fs es hv offsets writer fs' hrun
    obtain ⟨hoffsets, hwritten, hcontent⟩ := SegmentWriter.appendAll_end X es rfl rfl hrun
    simp only [SegmentWriter.openAppend] at hoffsets hwritten hcontent
    rw [hoffsets, hwritten, hcontent]
    exact readsBack_encodeAll hv platform id _

/-- An entry whose only byte of data is a zero. -/
def zeroByte : Entry where
  flags := 0
  codec := .none
  key := Key.fill 1
  rawSize := 1
  data := [0]

/-- The last byte of the entry is missing: one reader finds the end of the file, the
other one returns the entry. -/
theorem windows_reads_missing_zero :
    let file := (zeroByte.encode reference).take 50
    readEntryAt reference 1 file 0 = .error (.io .unexpectedEof) ∧
      readEntryAtFileOn reference .windows 1 file 0 = .ok (zeroByte, 51) := by
  decide +kernel

/-- Two entries that are appended to a new file, on Windows. -/
theorem readers_agree_iff_two :
    let es := [zeroByte, .tombstone (Key.fill 1)]
    let (offsets, writer, fs) := (SegmentWriter.openAppend 0 1 .empty).appendAll reference es .empty
    offsets = [0, 51] ∧
      ReadsBack reference .windows 1 (fs.data 0) (offsets ++ [writer.bytesWritten]) es :=
  ⟨by decide +kernel,
    (readers_agree_iff reference .windows 1).2 0 .empty _ (by decide) _ _ _ rfl⟩

end Bichon.Blob
