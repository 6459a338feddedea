import Bichon.Blob.Reference
import Bichon.Lib.FaultyFile

/-!
# Appends that fail

`write_entry` issues twelve operations on its handle, two of them seeks for the
checksum, and any of them can fail. Its error path returns at once: the handle
stays where the failing operation left it, and `bytes_written`, which the next
append hands out as its offset, is only advanced after the last operation. So a
failed append is harmless exactly when it failed before its first byte
(`append_offsets_iff`).
-/

namespace Bichon.Blob

open ByteFile FileM List

/-- `write_entry` on a handle whose operations fail as `faults` says. -/
def tryWriteEntry (X : Extern) (faults : Faults) (entry : Entry) : FileM Unit := do
  .writeAll faults (toLeBytes ENTRY_MAGIC)
  let crcPos ← .streamPosition faults
  .writeAll faults (toLeBytes 0)
  .writeAll faults [entry.flags]
  .writeAll faults [entry.codec.toU8]
  .writeAll faults entry.key.val
  .writeAll faults (toLeBytes entry.rawSize)
  .writeAll faults (toLeBytes entry.dataSize)
  .writeAll faults entry.data
  .seek faults (Cursor.seekStart crcPos)
  .writeAll faults (toLeBytes (X.crc32 entry.body))
  .seek faults Cursor.seekEnd

section

variable (X : Extern) (faults : Faults) (entry : Entry)

include X faults entry

theorem performs_tryWriteEntry :
    FileM.Performs faults (tryWriteEntry X faults entry) 12 (writeEntry X entry) (fun _ => ()) :=
  (performs_writeAll faults _).bind fun _ =>
    (performs_streamPosition faults).bind fun _ =>
    (performs_writeAll faults _).bind fun _ =>
    (performs_writeAll faults _).bind fun _ =>
    (performs_writeAll faults _).bind fun _ =>
    (performs_writeAll faults _).bind fun _ =>
    (performs_writeAll faults _).bind fun _ =>
    (performs_writeAll faults _).bind fun _ =>
    (performs_writeAll faults _).bind fun _ =>
    (performs_seek faults _).bind fun _ =>
    (performs_writeAll faults _).bind fun _ =>
    performs_seek faults _

theorem lt_pos_tryWriteEntry (c : Cursor) (h : faults 0 ≠ some 0) :
    c.pos < (tryWriteEntry X faults entry ⟨c, 0⟩).2.cursor.pos := by
  cases hfirst : faults 0 with
  | some n =>
    have hn : n ≠ 0 := by
      rintro rfl
      exact h hfirst
    have hrun : writeAll faults (toLeBytes ENTRY_MAGIC) ⟨c, 0⟩ =
        (none, ⟨c.writeAll ((toLeBytes ENTRY_MAGIC).take n), 1⟩) := by
      simp only [writeAll, hfirst]
    rw [tryWriteEntry, bind_of_eq_none hrun]
    simp only [Cursor.writeAll, length_take, length_toLeBytes]
    omega
  | none =>
    have hrun : writeAll faults (toLeBytes ENTRY_MAGIC) ⟨c, 0⟩ =
        (some (), ⟨c.writeAll (toLeBytes ENTRY_MAGIC), 1⟩) := by
      simp only [writeAll, hfirst]
    rw [tryWriteEntry, bind_of_eq_some hrun]
    have hpast : FileM.Past (c.pos + 1) (c.writeAll (toLeBytes ENTRY_MAGIC)) :=
      past_writeAll _ (by simp)
    refine (show FileM.Keeps (FileM.Past (c.pos + 1)) _ (fun _ => True) from ?_) _ hpast |>.1.1
    exact (keeps_past_streamPosition faults _).bind fun _ hcrc =>
      (keeps_past_writeAll faults _ _).bind fun _ _ =>
      (keeps_past_writeAll faults _ _).bind fun _ _ =>
      (keeps_past_writeAll faults _ _).bind fun _ _ =>
      (keeps_past_writeAll faults _ _).bind fun _ _ =>
      (keeps_past_writeAll faults _ _).bind fun _ _ =>
      (keeps_past_writeAll faults _ _).bind fun _ _ =>
      (keeps_past_writeAll faults _ _).bind fun _ _ =>
      (keeps_past_seek faults _ (past_seekStart hcrc)).bind fun _ _ =>
      (keeps_past_writeAll faults _ _).bind fun _ _ =>
      keeps_past_seek faults _ past_seekEnd

theorem tryWriteEntry_untouched (c : Cursor) (h : faults 0 = some 0) :
    tryWriteEntry X faults entry ⟨c, 0⟩ = (none, ⟨c.writeAll [], 1⟩) := by
  have hrun : writeAll faults (toLeBytes ENTRY_MAGIC) ⟨c, 0⟩ = (none, ⟨c.writeAll [], 1⟩) := by
    simp only [writeAll, h, take_zero]
  rw [tryWriteEntry, bind_of_eq_none hrun]

end

namespace SegmentWriter

/-- The writer on an existing file: `create` on one it has just emptied,
`open_append` on one that holds entries. -/
def openAppend (file id : Nat) (fs : FileSystem FileName) : SegmentWriter where
  file := file
  pos := (fs.data file).length
  id := id
  bytesWritten := (fs.data file).length

/-- `append` with its error path. The reason of an input or output error is not
told apart. -/
def tryAppend (X : Extern) (faults : Faults) (entry : Entry) (writer : SegmentWriter)
    (fs : FileSystem FileName) : Except Error Nat × SegmentWriter × FileSystem FileName :=
  let offset := writer.bytesWritten
  match tryWriteEntry X faults entry ⟨⟨fs.data writer.file, writer.pos⟩, 0⟩ with
  | (some (), handle) =>
    (.ok offset,
      { writer with
          pos := handle.cursor.pos
          bytesWritten := writer.bytesWritten + entry.diskSize },
      fs.write writer.file handle.cursor.content)
  | (none, handle) =>
    (.error (.io .other), { writer with pos := handle.cursor.pos },
      fs.write writer.file handle.cursor.content)

section

variable (X : Extern) (entry : Entry) (writer : SegmentWriter) (fs : FileSystem FileName)

theorem tryAppend_of_forall_eq_none {faults : Faults} (h : ∀ i < 12, faults i = none) :
    writer.tryAppend X faults entry fs = (.ok writer.bytesWritten, writer.append X entry fs) := by
  have hrun := (performs_tryWriteEntry X faults entry).ok
    ⟨⟨fs.data writer.file, writer.pos⟩, 0⟩ (by simpa only [Nat.zero_add] using h)
  simp only [tryAppend, hrun, append]

theorem tryAppend_of_not_forall {faults : Faults} (h : ¬ ∀ i < 12, faults i = none) :
    ∃ c : Cursor, writer.tryAppend X faults entry fs =
        (.error (.io .other), { writer with pos := c.pos }, fs.write writer.file c.content) ∧
      (faults 0 = some 0 →
        c = Cursor.writeAll [] ⟨fs.data writer.file, writer.pos⟩) ∧
      (faults 0 ≠ some 0 → writer.pos < c.pos) := by
  have hfails := (performs_tryWriteEntry X faults entry).fails
    ⟨⟨fs.data writer.file, writer.pos⟩, 0⟩ (by simpa only [Nat.zero_add] using h)
  have hmoved := lt_pos_tryWriteEntry X faults entry ⟨fs.data writer.file, writer.pos⟩
  have hstays := tryWriteEntry_untouched X faults entry ⟨fs.data writer.file, writer.pos⟩
  cases hrun : tryWriteEntry X faults entry ⟨⟨fs.data writer.file, writer.pos⟩, 0⟩ with
  | mk result handle =>
    rw [hrun] at hfails hmoved hstays
    cases hfails
    refine ⟨handle.cursor, by simp only [tryAppend, hrun], ?_, hmoved⟩
    intro h0
    cases hstays h0
    rfl

end

end SegmentWriter

/-! ## Sequences of appends -/

/-- One call of `append` and what the outside does to its operations. -/
structure Attempt where
  entry : Entry
  faults : Faults

/-- The entry is one a reader accepts and nothing fails, or the append fails
before its first byte. -/
def Attempt.Clean (attempt : Attempt) : Prop :=
  (attempt.entry.Valid ∧ ∀ i < 12, attempt.faults i = none) ∨ attempt.faults 0 = some 0

/-- A writer, its files, and the appends that returned an offset. -/
structure Appends where
  writer : SegmentWriter
  fs : FileSystem FileName
  log : List (Nat × Entry)

namespace Appends

def step (X : Extern) (s : Appends) (attempt : Attempt) : Appends :=
  match s.writer.tryAppend X attempt.faults attempt.entry s.fs with
  | (.ok offset, writer, fs) => ⟨writer, fs, s.log ++ [(offset, attempt.entry)]⟩
  | (.error _, writer, fs) => ⟨writer, fs, s.log⟩

def run (X : Extern) (s : Appends) (attempts : List Attempt) : Appends := attempts.foldl (step X) s

def content (s : Appends) : Bytes := s.fs.data s.writer.file

/-- Every offset handed out leads back to its entry, and the next entry goes to
`bytesWritten`. -/
def Faithful (X : Extern) (s : Appends) : Prop :=
  s.writer.bytesWritten = s.writer.pos ∧
    ∀ r ∈ s.log, ∃ next, readEntryAt X s.writer.id s.content r.1 = .ok (r.2, next)

/-- What carries through clean appends: the writer stands at the end of its file
and the logged entries stand in it. -/
structure Sound (X : Extern) (s : Appends) : Prop where
  pos_eq : s.writer.pos = s.content.length
  bytesWritten_eq : s.writer.bytesWritten = s.content.length
  entryAt : ∀ r ∈ s.log, EntryAt X s.content r.1 r.2 ∧ r.2.Valid

variable {X : Extern} {s : Appends} {attempt : Attempt}

section

variable (h : Sound X s)

include h

theorem Sound.faithful : Faithful X s := by
  refine ⟨h.bytesWritten_eq.trans h.pos_eq.symm, ?_⟩
  intro r hr
  obtain ⟨hat, hvalid⟩ := h.entryAt r hr
  exact ⟨_, readEntryAt_encode s.writer.id hat hvalid⟩

theorem step_of_forall_eq_none (hnone : ∀ i < 12, attempt.faults i = none) :
    ∃ s', s.step X attempt = s' ∧ s'.content = s.content ++ attempt.entry.encode X ∧
      s'.writer.pos = s'.content.length ∧ s'.writer.bytesWritten = s'.content.length ∧
      s'.log = s.log ++ [(s.content.length, attempt.entry)] := by
  refine ⟨_, rfl, ?_⟩
  have hpos := h.pos_eq
  have hwritten := h.bytesWritten_eq
  unfold content at hpos hwritten ⊢
  simp only [step, SegmentWriter.tryAppend_of_forall_eq_none X attempt.entry s.writer s.fs hnone,
    SegmentWriter.append_end X attempt.entry s.writer s.fs hpos, FileSystem.write,
    Function.update_self, length_append, Entry.length_encode, hwritten, and_self]

/-- A step that fails leaves the log alone, and the file and the position when it
fails before its first byte. -/
theorem step_of_not_forall (hsome : ¬ ∀ i < 12, attempt.faults i = none) :
    ∃ s', s.step X attempt = s' ∧ s'.log = s.log ∧
      s'.writer.bytesWritten = s.writer.bytesWritten ∧
      (attempt.faults 0 = some 0 → s'.content = s.content ∧ s'.writer.pos = s.writer.pos) ∧
      (attempt.faults 0 ≠ some 0 → s.writer.pos < s'.writer.pos) := by
  obtain ⟨c, hrun, hstays, hmoved⟩ :=
    SegmentWriter.tryAppend_of_not_forall X attempt.entry s.writer s.fs hsome
  refine ⟨⟨{ s.writer with pos := c.pos }, s.fs.write s.writer.file c.content, s.log⟩,
    by simp only [step, hrun], rfl, rfl, ?_, hmoved⟩
  intro h0
  have hpos := h.pos_eq
  have hc := hstays h0
  unfold content at hpos ⊢
  rw [hpos, Cursor.writeAll_end, append_nil] at hc
  simp only [FileSystem.write, Function.update_self, hc, hpos, and_self]

theorem Sound.step (hclean : attempt.Clean) : Sound X (s.step X attempt) := by
  by_cases hnone : ∀ i < 12, attempt.faults i = none
  · have hvalid : attempt.entry.Valid := by
      rcases hclean with hclean | h0
      · exact hclean.1
      · rw [hnone 0 (by decide)] at h0
        cases h0
    obtain ⟨s', hs', hcontent, hpos, hwritten, hlog⟩ := step_of_forall_eq_none h hnone
    rw [hs']
    refine ⟨hpos, hwritten, ?_⟩
    intro r hr
    rw [hlog, mem_append, mem_singleton] at hr
    rw [hcontent]
    rcases hr with hr | rfl
    · obtain ⟨⟨before, after, heq, hlen⟩, hv⟩ := h.entryAt r hr
      refine ⟨⟨before, after ++ attempt.entry.encode X, ?_, hlen⟩, hv⟩
      rw [heq, append_assoc, append_assoc]
    · exact ⟨⟨s.content, [], by rw [append_nil], rfl⟩, hvalid⟩
  · have h0 : attempt.faults 0 = some 0 := by
      rcases hclean with hclean | h0
      · exact absurd hclean.2 hnone
      · exact h0
    obtain ⟨s', hs', hlog, hwritten, hstays, _⟩ := step_of_not_forall h hnone
    obtain ⟨hcontent, hpos⟩ := hstays h0
    rw [hs']
    refine ⟨?_, ?_, ?_⟩
    · rw [hpos, hcontent, h.pos_eq]
    · rw [hwritten, hcontent, h.bytesWritten_eq]
    · rw [hlog, hcontent]
      exact h.entryAt

/-- A reader returns valid entries only, so an append that returned the offset of
an entry too long for a reader is seen, as is a handle that has moved. -/
theorem clean_of_faithful_step (hfaithful : Faithful X (s.step X attempt)) : attempt.Clean := by
  by_cases hnone : ∀ i < 12, attempt.faults i = none
  · left
    refine ⟨?_, hnone⟩
    obtain ⟨s', hs', hcontent, _, _, hlog⟩ := step_of_forall_eq_none h hnone
    rw [hs'] at hfaithful
    obtain ⟨next, hread⟩ := hfaithful.2 (s.content.length, attempt.entry) (by simp [hlog])
    have hheader : s.content.length + ENTRY_HEADER_SIZE ≤ s'.content.length := by
      rw [hcontent, length_append, Entry.length_encode, Entry.diskSize]
      omega
    exact (entryAt_of_readEntryAt hheader hread).2.1
  · right
    by_contra h0
    obtain ⟨s', hs', _, hwritten, _, hmoved⟩ := step_of_not_forall h hnone
    rw [hs'] at hfaithful
    have heq := hfaithful.1
    have hlt := hmoved h0
    rw [hwritten, h.bytesWritten_eq, ← h.pos_eq] at heq
    omega

theorem faithful_run_iff (attempts : List Attempt) :
    (∀ done, done <+: attempts → Faithful X (s.run X done)) ↔
      ∀ attempt ∈ attempts, attempt.Clean := by
  induction attempts generalizing s with
  | nil =>
    constructor
    · intro _ attempt hmem
      cases hmem
    · intro _ done hdone
      rw [prefix_nil.mp hdone]
      exact h.faithful
  | cons attempt rest ih =>
    rw [forall_mem_cons]
    constructor
    · intro hall
      have hclean : attempt.Clean := clean_of_faithful_step h (hall [attempt] (by simp))
      refine ⟨hclean, (ih (h.step hclean)).mp ?_⟩
      intro done hdone
      exact hall (attempt :: done) (cons_prefix_cons.mpr ⟨rfl, hdone⟩)
    · rintro ⟨hclean, hrest⟩ done hdone
      cases done with
      | nil => exact h.faithful
      | cons first done =>
        obtain ⟨rfl, htail⟩ := cons_prefix_cons.mp hdone
        exact (ih (h.step hclean)).mpr hrest done htail

end

/-- At every moment of a sequence of appends to a file the offsets returned so far
lead to their entries and `bytes_written` is the position of the next entry, if
and only if the entries are short enough for a reader and each append that fails
does so before its first byte. -/
theorem append_offsets_iff (X : Extern) (file id : Nat) (fs : FileSystem FileName)
    (attempts : List Attempt) :
    (∀ done, done <+: attempts →
        Faithful X (run X ⟨SegmentWriter.openAppend file id fs, fs, []⟩ done)) ↔
      ∀ attempt ∈ attempts, attempt.Clean := by
  apply faithful_run_iff
  exact ⟨rfl, rfl, by simp⟩

/-- The disk is full behind the magic of the first entry. The second append is
told offset zero, where its entry does not stand. -/
theorem offset_after_failed_append :
    let first : Attempt := ⟨.tombstone (Key.fill 1), fun i => if i = 2 then some 0 else none⟩
    let second : Attempt := ⟨.tombstone (Key.fill 2), fun _ => none⟩
    let s := run Blob.reference ⟨SegmentWriter.openAppend 0 1 .empty, .empty, []⟩ [first, second]
    s.log = [(0, .tombstone (Key.fill 2))] ∧ s.writer.bytesWritten = 50 ∧ s.writer.pos = 54 ∧
      readEntryAt Blob.reference 1 s.content 0 = .error (.corruptEntry 1 0 (.unknownCodec 38)) := by
  decide +kernel

end Appends

end Bichon.Blob
