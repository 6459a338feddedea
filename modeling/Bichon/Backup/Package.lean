import Mathlib.Data.List.Sort
import Bichon.Lib.BigEndian
import Bichon.Lib.PathName
import Bichon.Lib.Utf8

/-!
# Index packages

A search index goes into a backup as one stream: a header of twelve bytes and, for every
regular file in the order of the names, its name and its content with their lengths in
front. `unpackageStream` reads the records until the next length field is cut short, which
it takes for the end of the package. `unpackageDir` looks at the first bytes to tell this
format from the older one, a JSON object of base64 texts.

The functions that read a record are described by the bytes in front of the reader: what
they return when a record is there (`readHeader_record`, `copyContent_none`), and what was
there when they return (`readHeader_entry`, `copyContent_ok`).
-/

namespace Bichon
namespace Package

open ByteFile PathName BigEndian List

def idxPackageMagic : Bytes :=
  [0x42, 0x49, 0x43, 0x48, 0x4F, 0x4E, 0x2E, 0x49, 0x44, 0x58, 0x31, 0x0A]

def maxPackageNameLen : Nat := 4096

/-! ## Packing -/

/-- One entry of the directory; a file has fewer than 2^64 bytes. -/
structure DirEntry where
  name : List Char
  isFile : Bool
  content : Bytes
  fits : content.length < 256 ^ 8

/-- `skip_index_file`: tantivy's lock files. -/
def skipIndexFile (name : List Char) : Bool := ".lock".toList.isSuffixOf name

def DirEntry.packaged (entry : DirEntry) : Bool := entry.isFile && !skipIndexFile entry.name

/-- Names are compared by their bytes. -/
def DirEntry.le (entry other : DirEntry) : Bool :=
  decide (Utf8.encode entry.name ≤ Utf8.encode other.name)

def packagedFiles (entries : List DirEntry) : List DirEntry :=
  (entries.filter DirEntry.packaged).mergeSort DirEntry.le

def record (name : List Char) (content : Bytes) : Bytes :=
  encode 4 (Utf8.encode name).length ++ (Utf8.encode name ++ (encode 8 content.length ++ content))

inductive PackageError where
  | nameTooLong (name : List Char)
  deriving DecidableEq, Repr

def packageRecords : List DirEntry → Except PackageError Bytes
  | [] => .ok []
  | file :: rest =>
    if maxPackageNameLen < (Utf8.encode file.name).length then .error (.nameTooLong file.name)
    else (packageRecords rest).map (record file.name file.content ++ ·)

/-- `package_dir`, the stream before it is compressed. -/
def packageDir (entries : List DirEntry) : Except PackageError Bytes :=
  (packageRecords (packagedFiles entries)).map (idxPackageMagic ++ ·)

/-! ## Unpacking -/

inductive ErrorKind where
  | unexpectedEof
  | invalidData
  | other
  deriving DecidableEq, Repr

/-- What a reader still gives: these bytes, and then its end or an error. -/
structure Reader where
  bytes : Bytes
  ending : Option ErrorKind
  deriving DecidableEq, Repr

def Reader.readExact (dec : Reader) (n : Nat) : Except ErrorKind (Bytes × Reader) :=
  if n ≤ dec.bytes.length then .ok (dec.bytes.take n, { dec with bytes := dec.bytes.drop n })
  else .error (dec.ending.getD .unexpectedEof)

/-- Why a package counts as corrupt. -/
inductive Cause where
  | reading (kind : ErrorKind)
  | entryNameTooLong
  | nonUtf8Name
  | contentTruncated
  | writing
  | notAnObject
  deriving DecidableEq, Repr

inductive UnpackError where
  | cannotCreate
  | cannotRead
  | corruptPackage (cause : Cause)
  | unsafeEntry (name : List Char)
  | notAString (name : List Char)
  | notBase64 (name : List Char)
  | cannotWrite (path : Path)
  deriving DecidableEq, Repr

/-- The outcome, and the contents of the files created or overwritten until then. -/
structure Unpacked where
  result : Except UnpackError Unit
  writes : List (Path × Bytes)

def Unpacked.failed (e : UnpackError) : Unpacked := ⟨.error e, []⟩

def Unpacked.after (write : Path × Bytes) (rest : Unpacked) : Unpacked :=
  ⟨rest.result, write :: rest.writes⟩

/-- What can go wrong with one file: it is not created, or fails after some bytes. -/
inductive WriteFault where
  | create
  | write (written : Nat)
  deriving DecidableEq, Repr

/-- `check_unsafe_name` refuses the name. -/
def unsafeName (name : List Char) : Bool :=
  name.isEmpty || name == ['.'] || name == ['.', '.'] || ['.', '.'].isPrefixOf name
    || name.contains '/' || name.contains '\\' || name.contains ':'

inductive Header where
  | done
  | entry (name : List Char) (contentLen : Nat) (dec : Reader)
  deriving DecidableEq, Repr

/-- The part of a record in front of its content. -/
def readHeader (dec : Reader) : Except UnpackError Header :=
  match dec.readExact 4 with
  | .error .unexpectedEof => .ok .done
  | .error kind => .error (.corruptPackage (.reading kind))
  | .ok (nameLen, dec) =>
    if maxPackageNameLen < decode nameLen then
      .error (.corruptPackage .entryNameTooLong)
    else
      match dec.readExact (decode nameLen) with
      | .error kind => .error (.corruptPackage (.reading kind))
      | .ok (name, dec) =>
        match Utf8.decode name with
        | none => .error (.corruptPackage .nonUtf8Name)
        | some name =>
          if unsafeName name then .error (.unsafeEntry name)
          else
            match dec.readExact 8 with
            | .error kind => .error (.corruptPackage (.reading kind))
            | .ok (contentLen, dec) => .ok (.entry name (decode contentLen) dec)

/-- `io::copy` of the next `contentLen` bytes, with what reaches the file. -/
def copyContent (fault : Option WriteFault) (contentLen : Nat) (dec : Reader) :
    Bytes × Except UnpackError Reader :=
  let content := dec.bytes.take contentLen
  match fault with
  | some (.write written) =>
    if written < content.length then
      (content.take written, .error (.corruptPackage .writing))
    else (content, rest content)
  | _ => (content, rest content)
where
  rest (content : Bytes) : Except UnpackError Reader :=
    if content.length = contentLen then .ok { dec with bytes := dec.bytes.drop contentLen }
    else
      match dec.ending with
      | some kind => .error (.corruptPackage (.reading kind))
      | none => .error (.corruptPackage .contentTruncated)

section Unpackage

variable (style : Style) (faults : Nat → Option WriteFault) (dest : Path)

/-- The loop of `unpackage_stream`; every record takes bytes, so the fuel is not used up
when there is one more of it than bytes. -/
def unpackRecords : Nat → Nat → Reader → Unpacked
  | 0, _, _ => ⟨.ok (), []⟩
  | fuel + 1, i, dec =>
    match readHeader dec with
    | .error e => .failed e
    | .ok .done => ⟨.ok (), []⟩
    | .ok (.entry name contentLen dec) =>
      if faults i = some .create then .failed (.cannotWrite (dest.join style name))
      else
        match copyContent (faults i) contentLen dec with
        | (content, .error e) => ⟨.error e, [(dest.join style name, content)]⟩
        | (content, .ok dec) =>
          (unpackRecords fuel (i + 1) dec).after (dest.join style name, content)

/-- `unpackage_stream`: the header is read and not looked at again. -/
def unpackageStream (dec : Reader) : Unpacked :=
  match dec.readExact idxPackageMagic.length with
  | .error kind => .failed (.corruptPackage (.reading kind))
  | .ok (_, dec) => unpackRecords style faults dest (dec.bytes.length + 1) 0 dec

/-- The libraries the readers rest on: gzip, how much its first read gives, the entries of
a JSON object with those values that are texts, and base64. -/
structure Decoders where
  gunzip : Bytes → Reader
  firstRead : Bytes → Nat
  object : Bytes → Option (List (List Char × Option (List Char)))
  base64 : List Char → Option Bytes

variable (X : Decoders)

/-- The loop of `unpackage_legacy_json`. -/
def unpackEntries : Nat → List (List Char × Option (List Char)) → Unpacked
  | _, [] => ⟨.ok (), []⟩
  | i, (name, value) :: rest =>
    if unsafeName name then .failed (.unsafeEntry name)
    else
      match value with
      | none => .failed (.notAString name)
      | some text =>
        match X.base64 text with
        | none => .failed (.notBase64 name)
        | some data =>
          match faults i with
          | some .create => .failed (.cannotWrite (dest.join style name))
          | some (.write written) =>
            if written < data.length then
              ⟨.error (.cannotWrite (dest.join style name)),
                [(dest.join style name, data.take written)]⟩
            else (unpackEntries (i + 1) rest).after (dest.join style name, data)
          | none => (unpackEntries (i + 1) rest).after (dest.join style name, data)

def unpackageLegacyJson (dec : Reader) : Unpacked :=
  match dec.ending with
  | some kind => .failed (.corruptPackage (.reading kind))
  | none =>
    match X.object dec.bytes with
    | none => .failed (.corruptPackage .notAnObject)
    | some map => unpackEntries style faults dest X 0 map

/-- `fill_buf`: the first bytes, not taken from the reader. -/
def fillBuf (package : Bytes) : Except ErrorKind Bytes :=
  match (X.gunzip package).bytes, (X.gunzip package).ending with
  | [], some kind => .error kind
  | bytes, _ => .ok (bytes.take (X.firstRead package))

/-- `unpackage_dir`, of a package file that may not open. -/
def unpackageDir (created : Bool) (package : Option Bytes) : Unpacked :=
  if created then
    match package with
    | none => .failed .cannotRead
    | some package =>
      match fillBuf X package with
      | .error kind => .failed (.corruptPackage (.reading kind))
      | .ok head =>
        if idxPackageMagic.isPrefixOf head then
          unpackageStream style faults dest (X.gunzip package)
        else unpackageLegacyJson style faults dest X (X.gunzip package)
  else .failed .cannotCreate

end Unpackage

/-! ## The records -/

abbrev File := List Char × Bytes

def records (files : List File) : Bytes := files.flatMap fun file => record file.1 file.2

@[simp] theorem records_cons (file : File) (files : List File) :
    records (file :: files) = record file.1 file.2 ++ records files := rfl

/-- The lengths of a record fit its length fields. -/
structure Complete (file : File) : Prop where
  name_fits : (Utf8.encode file.1).length < 256 ^ 4
  content_fits : file.2.length < 256 ^ 8

/-- The records that are unpacked. -/
structure Acceptable (file : File) : Prop where
  name_safe : unsafeName file.1 = false
  name_len : (Utf8.encode file.1).length ≤ maxPackageNameLen
  content_fits : file.2.length < 256 ^ 8

theorem Acceptable.complete {file : File} (h : Acceptable file) : Complete file := by
  have hname := h.name_len
  refine ⟨?_, h.content_fits⟩
  rw [maxPackageNameLen] at hname
  omega

/-- The header and complete records behind it. -/
def WellFormed (bytes : Bytes) : Prop :=
  ∃ files : List File, (∀ file ∈ files, Complete file) ∧ bytes = idxPackageMagic ++ records files

/-- One way to read a stream: twelve bytes, records that are unpacked and a rest too short
for a length field. -/
structure Reading (bytes header : Bytes) (files : List File) (stray : Bytes) : Prop where
  header_len : header.length = idxPackageMagic.length
  acceptable : ∀ file ∈ files, Acceptable file
  stray_len : stray.length < 4
  eq : bytes = header ++ (records files ++ stray)

theorem twelve_le_length_record (name : List Char) (content : Bytes) :
    12 ≤ (record name content).length := by
  simp only [record, length_append, length_encode]
  omega

theorem length_le_length_records (files : List File) : files.length ≤ (records files).length := by
  induction files with
  | nil => exact Nat.le_refl _
  | cons file files ih =>
    have hrecord := twelve_le_length_record file.1 file.2
    rw [records_cons, length_cons, length_append]
    omega

theorem field_append_inj {width : Nat} {a b x y : Bytes} (ha : a.length < 256 ^ width)
    (hb : b.length < 256 ^ width)
    (h : encode width a.length ++ (a ++ x) = encode width b.length ++ (b ++ y)) :
    a = b ∧ x = y := by
  obtain ⟨hfield, hrest⟩ := append_inj h (by rw [length_encode,
    length_encode])
  have hlen : a.length = b.length := by
    rw [← decode_encode ha, ← decode_encode hb, hfield]
  exact append_inj hrest hlen

theorem record_append_inj {file other : File} {x y : Bytes} (hfile : Complete file)
    (hother : Complete other) (h : record file.1 file.2 ++ x = record other.1 other.2 ++ y) :
    file = other ∧ x = y := by
  simp only [record, append_assoc] at h
  obtain ⟨hname, hrest⟩ := field_append_inj hfile.name_fits hother.name_fits h
  obtain ⟨hcontent, hxy⟩ := field_append_inj hfile.content_fits hother.content_fits hrest
  have hname : file.1 = other.1 := by
    have hdecode := congrArg Utf8.decode hname
    rwa [Utf8.decode_encode, Utf8.decode_encode, Option.some_inj] at hdecode
  exact ⟨Prod.ext hname hcontent, hxy⟩

theorem records_append_eq {files others : List File} {stray : Bytes}
    (hfiles : ∀ file ∈ files, Complete file) (hothers : ∀ file ∈ others, Complete file)
    (hstray : stray.length < 4) (h : records files ++ stray = records others) :
    stray = [] := by
  induction files generalizing others with
  | nil =>
    cases others with
    | nil => exact h
    | cons other others =>
      have hlen := congrArg length h
      have hrecord := twelve_le_length_record other.1 other.2
      simp only [records, flatMap_nil, nil_append, flatMap_cons,
        length_append] at hlen
      omega
  | cons file files ih =>
    cases others with
    | nil =>
      have hlen := congrArg length h
      have hrecord := twelve_le_length_record file.1 file.2
      simp only [records, flatMap_nil, flatMap_cons, length_append,
        length_nil] at hlen
      omega
    | cons other others =>
      rw [forall_mem_cons] at hfiles hothers
      rw [records_cons, records_cons, append_assoc] at h
      exact ih hfiles.2 hothers.2 (record_append_inj hfiles.1 hothers.1 h).2

/-! ## What is read -/

theorem readExact_append {bs : Bytes} {n : Nat} (h : bs.length = n) (rest : Bytes)
    (ending : Option ErrorKind) :
    Reader.readExact ⟨bs ++ rest, ending⟩ n = .ok (bs, ⟨rest, ending⟩) := by
  subst h
  simp [Reader.readExact]

theorem readExact_ok {dec dec' : Reader} {n : Nat} {bs : Bytes}
    (h : dec.readExact n = .ok (bs, dec')) :
    bs.length = n ∧ dec = ⟨bs ++ dec'.bytes, dec'.ending⟩ := by
  unfold Reader.readExact at h
  split at h
  next hn =>
    cases h
    exact ⟨length_take_of_le hn, by simp⟩
  next => cases h

theorem readHeader_record {file : File} (hfile : Acceptable file) (rest : Bytes)
    (ending : Option ErrorKind) :
    readHeader ⟨record file.1 file.2 ++ rest, ending⟩
      = .ok (.entry file.1 file.2.length ⟨file.2 ++ rest, ending⟩) := by
  have hname : decode (encode 4 (Utf8.encode file.1).length)
      = (Utf8.encode file.1).length := decode_encode hfile.complete.name_fits
  have hcontent : decode (encode 8 file.2.length) = file.2.length :=
    decode_encode hfile.content_fits
  simp only [readHeader, record, append_assoc,
    readExact_append (length_encode 4 _), readExact_append (length_encode 8 _),
    hname, hcontent, if_neg (Nat.not_lt.mpr hfile.name_len), readExact_append rfl,
    Utf8.decode_encode, hfile.name_safe]
  rfl

theorem readHeader_short {bytes : Bytes} (h : bytes.length < 4) :
    readHeader ⟨bytes, none⟩ = .ok .done := by
  have hread : Reader.readExact ⟨bytes, none⟩ 4 = .error .unexpectedEof := if_neg (Nat.not_le.mpr h)
  rw [readHeader, hread]

theorem readHeader_done {dec : Reader} (h : readHeader dec = .ok .done) : dec.bytes.length < 4 := by
  by_contra hlen
  have hread : dec.readExact 4 = .ok (dec.bytes.take 4, { dec with bytes := dec.bytes.drop 4 }) :=
    if_pos (Nat.not_lt.mp hlen)
  simp only [readHeader, hread] at h
  repeat' split at h
  all_goals cases h

theorem readHeader_entry {dec dec' : Reader} {name : List Char} {contentLen : Nat}
    (h : readHeader dec = .ok (.entry name contentLen dec')) :
    unsafeName name = false ∧ (Utf8.encode name).length ≤ maxPackageNameLen
      ∧ contentLen < 256 ^ 8
      ∧ dec = ⟨encode 4 (Utf8.encode name).length ++ (Utf8.encode name ++
          (encode 8 contentLen ++ dec'.bytes)), dec'.ending⟩ := by
  unfold readHeader at h
  split at h
  · cases h
  · cases h
  next nameLen dec₁ hread₁ =>
    split at h
    · cases h
    next hlen =>
      split at h
      · cases h
      next nameBytes dec₂ hread₂ =>
        split at h
        · cases h
        next text hdecode =>
          split at h
          · cases h
          next hsafe =>
            split at h
            · cases h
            next lenBytes dec₃ hread₃ =>
              cases h
              obtain ⟨hlen₁, rfl⟩ := readExact_ok hread₁
              obtain ⟨hlen₂, rfl⟩ := readExact_ok hread₂
              obtain ⟨hlen₃, rfl⟩ := readExact_ok hread₃
              rw [Utf8.decode_eq_some_iff] at hdecode
              subst hdecode
              have hfirst : encode 4 (decode nameLen) = nameLen := by
                rw [← hlen₁]
                exact encode_decode nameLen
              have hlast : encode 8 (decode lenBytes) = lenBytes := by
                rw [← hlen₃]
                exact encode_decode lenBytes
              refine ⟨Bool.eq_false_iff.mpr hsafe, ?_, ?_, ?_⟩
              · rw [hlen₂]
                exact Nat.not_lt.mp hlen
              · rw [← hlen₃]
                exact decode_lt lenBytes
              · rw [hlen₂, hfirst, hlast]

theorem copyContent_none (content rest : Bytes) (ending : Option ErrorKind) :
    copyContent none content.length ⟨content ++ rest, ending⟩ = (content, .ok ⟨rest, ending⟩) := by
  simp [copyContent, copyContent.rest]

theorem copyContent_ok {fault : Option WriteFault} {contentLen : Nat} {dec dec' : Reader}
    {content : Bytes} (h : copyContent fault contentLen dec = (content, .ok dec')) :
    content.length = contentLen ∧ dec = ⟨content ++ dec'.bytes, dec'.ending⟩ := by
  have hrest : content = dec.bytes.take contentLen
      ∧ copyContent.rest contentLen dec content = .ok dec' := by
    unfold copyContent at h
    simp only at h
    split at h
    · split at h
      · cases h
      · exact ⟨(Prod.mk.inj h).1.symm, by rw [← (Prod.mk.inj h).1]; exact (Prod.mk.inj h).2⟩
    · exact ⟨(Prod.mk.inj h).1.symm, by rw [← (Prod.mk.inj h).1]; exact (Prod.mk.inj h).2⟩
  obtain ⟨rfl, hrest⟩ := hrest
  unfold copyContent.rest at hrest
  split at hrest
  next hlen =>
    cases hrest
    exact ⟨hlen, by simp⟩
  next => split at hrest <;> cases hrest

end Package

end Bichon
