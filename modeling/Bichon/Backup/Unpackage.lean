import Bichon.Backup.Package

/-!
# What unpacking an index package does

A run of `unpackageStream` that succeeds has read its bytes as a `Reading`: any twelve bytes,
records, and up to three bytes behind them, and every `Reading` is unpacked to its files. So
a package brings the directory back, but a stray byte behind it goes unnoticed.

The files written are one for each record, at the name joined to the destination, and the
check of the names lets only those through that are one component; what is written before
an error is below the destination as well.
-/

namespace Bichon
namespace Package

open ByteFile PathName List

/-! ## What a stream unpacks to -/

def noFaults : Nat → Option WriteFault := fun _ => none

section Stream

variable (style : Style) (dest : Path)

def filesAt (files : List File) : List (Path × Bytes) :=
  files.map fun file => (dest.join style file.1, file.2)

theorem unpackRecords_records {files : List File} {stray : Bytes} {fuel : Nat} (i : Nat)
    (hfiles : ∀ file ∈ files, Acceptable file) (hstray : stray.length < 4)
    (hfuel : files.length < fuel) :
    unpackRecords style noFaults dest fuel i ⟨records files ++ stray, none⟩
      = ⟨.ok (), filesAt style dest files⟩ := by
  induction files generalizing fuel i with
  | nil =>
    cases fuel with
    | zero => exact absurd hfuel (Nat.not_lt_zero _)
    | succ fuel =>
      rw [unpackRecords]
      have hheader : readHeader ⟨records [] ++ stray, none⟩ = .ok .done := readHeader_short hstray
      rw [hheader]
      rfl
  | cons file files ih =>
    cases fuel with
    | zero => exact absurd hfuel (Nat.not_lt_zero _)
    | succ fuel =>
      rw [forall_mem_cons] at hfiles
      rw [unpackRecords, records_cons, append_assoc, readHeader_record hfiles.1]
      have hnone : noFaults i = none := rfl
      simp only [hnone, reduceCtorEq, if_false, copyContent_none]
      rw [ih (i + 1) hfiles.2 (Nat.lt_of_succ_lt_succ hfuel)]
      rfl

theorem exists_records_of_ok {faults : Nat → Option WriteFault} {fuel i : Nat} {dec : Reader}
    (hfuel : dec.bytes.length < fuel)
    (h : (unpackRecords style faults dest fuel i dec).result = .ok ()) :
    ∃ (files : List File) (stray : Bytes), (∀ file ∈ files, Acceptable file)
      ∧ stray.length < 4 ∧ dec.bytes = records files ++ stray := by
  induction fuel generalizing i dec with
  | zero => exact absurd hfuel (Nat.not_lt_zero _)
  | succ fuel ih =>
    rw [unpackRecords] at h
    split at h
    · cases h
    next hheader => exact ⟨[], dec.bytes, by simp, readHeader_done hheader, rfl⟩
    next name contentLen dec₁ hheader =>
      split at h
      · cases h
      · split at h
        · cases h
        next content dec₂ hcopy =>
          obtain ⟨hsafe, hname, hcontent, rfl⟩ := readHeader_entry hheader
          obtain ⟨rfl, rfl⟩ := copyContent_ok hcopy
          have hshorter : dec₂.bytes.length < fuel := by
            simp only [length_append, BigEndian.length_encode] at hfuel
            omega
          obtain ⟨files, stray, hfiles, hstray, heq⟩ := ih hshorter h
          refine ⟨(name, content) :: files, stray, ?_, hstray, ?_⟩
          · exact forall_mem_cons.mpr ⟨⟨hsafe, hname, hcontent⟩, hfiles⟩
          · simp only [records_cons, record, append_assoc, heq]

theorem unpackageStream_reading {bytes header stray : Bytes} {files : List File}
    (h : Reading bytes header files stray) :
    unpackageStream style noFaults dest ⟨bytes, none⟩ = ⟨.ok (), filesAt style dest files⟩ := by
  have hfuel : files.length < (records files ++ stray).length + 1 := by
    have hlen := length_le_length_records files
    rw [length_append]
    omega
  rw [unpackageStream, h.eq, readExact_append h.header_len]
  exact unpackRecords_records style dest 0 h.acceptable h.stray_len hfuel

theorem exists_reading_of_ok {faults : Nat → Option WriteFault} {dec : Reader}
    (h : (unpackageStream style faults dest dec).result = .ok ()) :
    ∃ header files stray, Reading dec.bytes header files stray := by
  rw [unpackageStream] at h
  split at h
  · cases h
  next header dec₁ hread =>
    obtain ⟨hheader, rfl⟩ := readExact_ok hread
    obtain ⟨files, stray, hfiles, hstray, heq⟩ :=
      exists_records_of_ok style dest (Nat.lt_succ_self _) h
    exact ⟨header, files, stray, hheader, hfiles, hstray, by rw [heq]⟩

end Stream

/-! ## The round trip and the accepted streams -/

theorem packageRecords_ok {files : List DirEntry} {bytes : Bytes}
    (h : packageRecords files = .ok bytes) :
    bytes = records (files.map fun file => (file.name, file.content))
      ∧ ∀ file ∈ files, (Utf8.encode file.name).length ≤ maxPackageNameLen := by
  induction files generalizing bytes with
  | nil =>
    cases h
    exact ⟨rfl, by simp⟩
  | cons file files ih =>
    rw [packageRecords] at h
    split at h
    · cases h
    next hlen =>
      obtain ⟨rest, hrest, h⟩ := ByteFile.bind_eq_ok h
      cases h
      obtain ⟨rfl, hnames⟩ := ih hrest
      exact ⟨rfl, forall_mem_cons.mpr ⟨Nat.not_lt.mp hlen, hnames⟩⟩

theorem packageRecords_of_short {files : List DirEntry}
    (h : ∀ file ∈ files, (Utf8.encode file.name).length ≤ maxPackageNameLen) :
    ∃ bytes, packageRecords files = .ok bytes := by
  induction files with
  | nil => exact ⟨[], rfl⟩
  | cons file files ih =>
    rw [forall_mem_cons] at h
    obtain ⟨rest, hrest⟩ := ih h.2
    exact ⟨record file.name file.content ++ rest, by
      rw [packageRecords, if_neg (Nat.not_lt.mpr h.1), hrest]
      rfl⟩

def DirEntry.file (entry : DirEntry) : File := (entry.name, entry.content)

theorem perm_packagedFiles (entries : List DirEntry) :
    (packagedFiles entries).Perm (entries.filter DirEntry.packaged) :=
  mergeSort_perm _ _

theorem packageDir_ok {entries : List DirEntry} {stream : Bytes}
    (h : packageDir entries = .ok stream) :
    stream = idxPackageMagic ++ records ((packagedFiles entries).map DirEntry.file)
      ∧ ∀ entry ∈ packagedFiles entries,
          (Utf8.encode entry.name).length ≤ maxPackageNameLen := by
  obtain ⟨bytes, hrecords, h⟩ := ByteFile.bind_eq_ok h
  cases h
  obtain ⟨rfl, hnames⟩ := packageRecords_ok hrecords
  exact ⟨rfl, hnames⟩

theorem reading_packageDir {entries : List DirEntry} {stream : Bytes}
    (hsafe : ∀ entry ∈ entries, entry.packaged = true → unsafeName entry.name = false)
    (h : packageDir entries = .ok stream) :
    Reading stream idxPackageMagic ((packagedFiles entries).map DirEntry.file) [] := by
  obtain ⟨heq, hnames⟩ := packageDir_ok h
  refine ⟨rfl, ?_, by decide, by rw [heq, append_nil]⟩
  intro file hfile
  obtain ⟨entry, hentry, rfl⟩ := mem_map.mp hfile
  have hmem := mem_filter.mp ((perm_packagedFiles entries).mem_iff.mp hentry)
  exact ⟨hsafe entry hmem.1 hmem.2, hnames entry hentry, entry.fits⟩

/-- A directory comes back from its package as it was. A stream that is unpacked without an
error is the header and complete records, exactly when it is not some other twelve bytes in
front of records that are unpacked, nor followed by one to three bytes more. -/
theorem package_round_trip_and_strict_iff (style : Style) (dest : Path) :
    (∀ entries : List DirEntry,
      (∀ entry ∈ entries, entry.packaged = true → unsafeName entry.name = false) →
      ((∀ entry ∈ entries, entry.packaged = true →
          (Utf8.encode entry.name).length ≤ maxPackageNameLen) →
        ∃ stream, packageDir entries = .ok stream)
      ∧ ∀ stream, packageDir entries = .ok stream →
        ∃ files : List File, files.Perm ((entries.filter DirEntry.packaged).map DirEntry.file)
          ∧ unpackageStream style noFaults dest ⟨stream, none⟩ = ⟨.ok (), filesAt style dest files⟩)
    ∧ ∀ bytes : Bytes,
      ((unpackageStream style noFaults dest ⟨bytes, none⟩).result = .ok () → WellFormed bytes)
        ↔ ∀ header files stray, Reading bytes header files stray →
          header = idxPackageMagic ∧ stray = [] := by
  refine ⟨fun entries hsafe => ⟨?_, ?_⟩, fun bytes => ⟨?_, ?_⟩⟩
  · intro hnames
    have hfiles : ∀ file ∈ packagedFiles entries,
        (Utf8.encode file.name).length ≤ maxPackageNameLen := by
      intro file hfile
      have hmem := mem_filter.mp ((perm_packagedFiles entries).mem_iff.mp hfile)
      exact hnames file hmem.1 hmem.2
    obtain ⟨bytes, hbytes⟩ := packageRecords_of_short hfiles
    exact ⟨idxPackageMagic ++ bytes, by rw [packageDir, hbytes]; rfl⟩
  · intro stream hstream
    exact ⟨_, (perm_packagedFiles entries).map _,
      unpackageStream_reading style dest (reading_packageDir hsafe hstream)⟩
  · intro hstrict header files stray hreading
    have hok : (unpackageStream style noFaults dest ⟨bytes, none⟩).result = .ok () := by
      rw [unpackageStream_reading style dest hreading]
    obtain ⟨others, hothers, heq⟩ := hstrict hok
    rw [hreading.eq] at heq
    obtain ⟨hheader, hrest⟩ := append_inj heq hreading.header_len
    exact ⟨hheader, records_append_eq (fun file hfile => (hreading.acceptable file hfile).complete)
      hothers hreading.stray_len hrest⟩
  · intro hreadings hok
    obtain ⟨header, files, stray, hreading⟩ := exists_reading_of_ok style dest hok
    obtain ⟨rfl, rfl⟩ := hreadings header files stray hreading
    refine ⟨files, fun file hfile => (hreading.acceptable file hfile).complete, ?_⟩
    have heq := hreading.eq
    rwa [append_nil] at heq

def sampleDir : List DirEntry :=
  [⟨".tantivy-meta.lock".toList, true, [], by decide⟩, ⟨['d'], false, [], by decide⟩,
    ⟨['a'], true, [1, 2], by decide⟩]

theorem package_round_trip_sample :
    ∃ stream, packageDir sampleDir = .ok stream
      ∧ (unpackageStream .unix noFaults ⟨none, true, [['r']]⟩ ⟨stream, none⟩).result = .ok ()
      ∧ WellFormed stream := by
  obtain ⟨hround, hstrict⟩ := package_round_trip_and_strict_iff .unix ⟨none, true, [['r']]⟩
  obtain ⟨hpackage, hunpack⟩ := hround sampleDir (by decide)
  obtain ⟨stream, hstream⟩ := hpackage (by decide +kernel)
  obtain ⟨files, -, heq⟩ := hunpack stream hstream
  have hok : (unpackageStream .unix noFaults ⟨none, true, [['r']]⟩ ⟨stream, none⟩).result
      = .ok () := by rw [heq]
  obtain ⟨hbytes, -⟩ := packageDir_ok hstream
  refine ⟨stream, hstream, hok, (hstrict stream).mpr ?_ hok⟩
  intro header others stray hreading
  have hmine := hreading.eq
  rw [hbytes] at hmine
  obtain ⟨hheader, hrest⟩ := append_inj hmine hreading.header_len.symm
  refine ⟨hheader.symm, records_append_eq
    (fun file hfile => (hreading.acceptable file hfile).complete) ?_ hreading.stray_len hrest.symm⟩
  have hmem := (reading_packageDir (by decide) hstream).acceptable
  exact fun file hfile => (hmem file hfile).complete

/-- A package of one file followed by a stray byte is unpacked without an error. -/
theorem stray_byte_accepted :
    (unpackageStream .unix noFaults ⟨none, true, [['r']]⟩
        ⟨idxPackageMagic ++ (record ['a'] [1] ++ [0]), none⟩).result = .ok ()
      ∧ ¬ WellFormed (idxPackageMagic ++ (record ['a'] [1] ++ [0])) := by
  have hacceptable : Acceptable (['a'], [1]) := ⟨by decide, by decide +kernel, by decide⟩
  have hreading : Reading (idxPackageMagic ++ (record ['a'] [1] ++ [0])) idxPackageMagic
      [(['a'], [1])] [0] :=
    ⟨rfl, by simpa using hacceptable, by decide, by simp [records]⟩
  refine ⟨by rw [unpackageStream_reading _ _ hreading], ?_⟩
  rintro ⟨files, hfiles, heq⟩
  have hrest := append_cancel_left heq
  have hone : ∀ file ∈ [((['a'], [1]) : File)], Complete file := by
    simpa using hacceptable.complete
  cases records_append_eq hone hfiles hreading.stray_len (by simpa [records] using hrest)

/-! ## Where the files go -/

theorem plain_of_not_escaping {name : List Char} (h : unsafeName name = false) : Plain name := by
  simp only [unsafeName, Bool.or_eq_false_iff, isEmpty_eq_false_iff, beq_eq_false_iff_ne,
    contains_eq_mem, decide_eq_false_iff_not] at h
  obtain ⟨⟨⟨⟨⟨⟨hnil, hdot⟩, hup⟩, -⟩, hslash⟩, hback⟩, hcolon⟩ := h
  exact ⟨hnil, hdot, hup, hslash, hback, hcolon⟩

/-- Every file written so far is below the destination. -/
def Contained (dest : Path) (unpacked : Unpacked) : Prop :=
  ∀ write ∈ unpacked.writes, write.1.Inside dest

section Contained

variable {style : Style} {dest : Path}

theorem contained_failed (e : UnpackError) : Contained dest (.failed e) := by
  intro write hwrite
  cases hwrite

theorem contained_single {name : List Char} (hname : unsafeName name = false) (content : Bytes)
    (result : Except UnpackError Unit) :
    Contained dest ⟨result, [(dest.join style name, content)]⟩ := by
  intro write hwrite
  rw [mem_singleton] at hwrite
  subst hwrite
  exact inside_join (plain_of_not_escaping hname) style dest

theorem Contained.after {name : List Char} (hname : unsafeName name = false) (content : Bytes)
    {rest : Unpacked} (h : Contained dest rest) :
    Contained dest (rest.after (dest.join style name, content)) := by
  intro write hwrite
  rcases mem_cons.mp hwrite with rfl | hwrite
  · exact inside_join (plain_of_not_escaping hname) style dest
  · exact h write hwrite

variable (style dest) (faults : Nat → Option WriteFault)

theorem contained_unpackRecords (fuel i : Nat) (dec : Reader) :
    Contained dest (unpackRecords style faults dest fuel i dec) := by
  induction fuel generalizing i dec with
  | zero =>
    intro write hwrite
    cases hwrite
  | succ fuel ih =>
    rw [unpackRecords]
    split
    · exact contained_failed _
    · intro write hwrite
      cases hwrite
    next name contentLen dec₁ hheader =>
      have hname : unsafeName name = false := (readHeader_entry hheader).1
      split
      · exact contained_failed _
      · split
        · exact contained_single hname _ _
        · exact (ih _ _).after hname _

theorem contained_unpackEntries (X : Decoders) (i : Nat)
    (entries : List (List Char × Option (List Char))) :
    Contained dest (unpackEntries style faults dest X i entries) := by
  induction entries generalizing i with
  | nil =>
    intro write hwrite
    cases hwrite
  | cons entry entries ih =>
    obtain ⟨name, value⟩ := entry
    unfold unpackEntries
    split
    · exact contained_failed _
    next hunsafe =>
      have hname : unsafeName name = false := Bool.eq_false_iff.mpr hunsafe
      split
      · exact contained_failed _
      · split
        · exact contained_failed _
        · split
          · exact contained_failed _
          · split
            · exact contained_single hname _ _
            · exact (ih _).after hname _
          · exact (ih _).after hname _

/-- Whatever the package holds and wherever unpacking it stops, only files below the
destination have been written. -/
theorem unpackageDir_contained (X : Decoders) (created : Bool) (package : Option Bytes) :
    ∀ write ∈ (unpackageDir style faults dest X created package).writes,
      write.1.Inside dest := by
  unfold unpackageDir
  split
  · split
    · exact contained_failed _
    · split
      · exact contained_failed _
      · split
        · unfold unpackageStream
          split
          · exact contained_failed _
          · exact contained_unpackRecords style dest faults _ _ _
        · unfold unpackageLegacyJson
          split
          · exact contained_failed _
          · split
            · exact contained_failed _
            · exact contained_unpackEntries style dest faults X _ _
  · exact contained_failed _

/-- Readers that take everything as it is given. -/
def plainDecoders : Decoders where
  gunzip := fun bytes => ⟨bytes, none⟩
  firstRead := List.length
  object := fun _ => none
  base64 := fun _ => none

theorem unpackageDir_contained_one :
    (⟨none, true, [['r'], ['a']]⟩ : Path).Inside ⟨none, true, [['r']]⟩ :=
  unpackageDir_contained .windows ⟨none, true, [['r']]⟩ noFaults plainDecoders true
    (some (idxPackageMagic ++ (record ['a'] [1] ++ record ['b', ':'] [])))
    (⟨none, true, [['r'], ['a']]⟩, [1]) (by decide +kernel)

end Contained

end Package

end Bichon
