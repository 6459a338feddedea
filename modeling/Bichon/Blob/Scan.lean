import Mathlib.Algebra.GroupWithZero.Nat
import Bichon.Blob.Segment

/-!
# Scanning a segment file

`scanEntries` walks a file from an offset and hands every entry to its caller. It
is modelled by what the caller gets to see: the entries with their offsets, in
order, and the way the scan ended. The loop is bounded by the length of the file,
and `scanEntries_eq` is its unbounded form, so nothing below mentions the bound.

A file made of whole entries is read to its end (`scanEntries_entries`), whatever
stands behind the entries only decides how the scan ends, and cutting a file at
the place where a scan stopped does not change what the scan sees
(`scanEntries_take`).
-/

namespace Bichon.Blob

open ByteFile List

/-- The errors a scan takes for the end of a torn file when they come close
enough to its end. -/
def Error.isCorruption : Error → Bool
  | .crcMismatch .. => true
  | .corruptEntry .. => true
  | _ => false

structure Scan where
  visited : List (Entry × Nat)
  outcome : Except Error Nat

/-- The scan of a file that stopped at `offset` without another entry. -/
def Scan.stop (offset : Nat) : Scan := ⟨[], .ok offset⟩

def Scan.cons (entry : Entry) (offset : Nat) (rest : Scan) : Scan :=
  ⟨(entry, offset) :: rest.visited, rest.outcome⟩

/-- What a scan does with an entry it cannot read. -/
def scanError (segmentId : Nat) (file : Bytes) (offset : Nat) (err : Error) : Scan :=
  if err.isCorruption then
    -- within one maximal entry of the end: likely a partial write, stop here
    if file.length - offset < ENTRY_HEADER_SIZE + 100 * 1024 * 1024 then
      .stop offset
    else
      ⟨[], .error (.corruptEntry segmentId offset .midFileCorruption)⟩
  else
    ⟨[], .error err⟩

def scanLoop (X : Extern) (segmentId : Nat) (file : Bytes) : Nat → Nat → Scan
  | 0, offset => .stop offset
  | fuel + 1, offset =>
    if offset + ENTRY_HEADER_SIZE ≤ file.length then
      match readEntryAt X segmentId file offset with
      | .ok (entry, next) => .cons entry offset (scanLoop X segmentId file fuel next)
      | .error err => scanError segmentId file offset err
    else
      .stop offset

/-- Every round moves on by at least one header, so the length of the file bounds
the number of rounds. -/
def scanEntries (X : Extern) (segmentId : Nat) (file : Bytes) (startOffset : Nat) : Scan :=
  scanLoop X segmentId file (file.length + 1) startOffset

/-! ## The loop without its bound -/

variable {X : Extern} {offset point segmentId : Nat} {file : Bytes} {e : Entry}

theorem entryAt_of_readEntryAt {next : Nat} (hoffset : offset + ENTRY_HEADER_SIZE ≤ file.length)
    (h : readEntryAt X segmentId file offset = .ok (e, next)) :
    EntryAt X file offset e ∧ e.Valid ∧ next = offset + e.diskSize := by
  cases hheader : readOrEof file offset ENTRY_HEADER_SIZE with
  | ok header =>
    rw [readEntryAt_eq_readEntryAtFile segmentId hheader] at h
    exact entryAt_of_readEntryAtFile h
  | error err =>
    have hlen : ((file.drop offset).take ENTRY_HEADER_SIZE).length = ENTRY_HEADER_SIZE := by
      simp only [length_take, length_drop]
      omega
    rw [readOrEof, readExact, if_pos hlen] at hheader
    cases hheader

theorem scanLoop_succ (X : Extern) (segmentId : Nat) (file : Bytes) :
    ∀ fuel offset, file.length < offset + fuel →
      scanLoop X segmentId file (fuel + 1) offset = scanLoop X segmentId file fuel offset
  | 0, offset, h => by
    have hguard : ¬ offset + ENTRY_HEADER_SIZE ≤ file.length := by omega
    simp [scanLoop, hguard]
  | fuel + 1, offset, h => by
    rw [scanLoop, scanLoop]
    by_cases hguard : offset + ENTRY_HEADER_SIZE ≤ file.length
    · cases hread : readEntryAt X segmentId file offset with
      | error err => rfl
      | ok found =>
        obtain ⟨e, next⟩ := found
        have hnext := (entryAt_of_readEntryAt hguard hread).2.2
        have hlt : file.length < next + fuel := by
          simp only [Entry.diskSize, ENTRY_HEADER_SIZE] at hnext
          omega
        simp only [scanLoop_succ X segmentId file fuel next hlt]
    · rw [if_neg hguard, if_neg hguard]

theorem scanEntries_eq (X : Extern) (segmentId : Nat) (file : Bytes) (offset : Nat) :
    scanEntries X segmentId file offset =
      if offset + ENTRY_HEADER_SIZE ≤ file.length then
        match readEntryAt X segmentId file offset with
        | .ok (entry, next) => .cons entry offset (scanEntries X segmentId file next)
        | .error err => scanError segmentId file offset err
      else
        .stop offset := by
  rw [scanEntries, scanLoop]
  by_cases hguard : offset + ENTRY_HEADER_SIZE ≤ file.length
  · cases hread : readEntryAt X segmentId file offset with
    | error err => rfl
    | ok found =>
      obtain ⟨e, next⟩ := found
      have hnext := (entryAt_of_readEntryAt hguard hread).2.2
      have hlt : file.length < next + file.length := by
        simp only [Entry.diskSize, ENTRY_HEADER_SIZE] at hnext
        omega
      simp only [scanEntries, scanLoop_succ X segmentId file file.length next hlt]
  · rw [if_neg hguard, if_neg hguard]

theorem scanEntries_of_short (h : file.length < offset + ENTRY_HEADER_SIZE) :
    scanEntries X segmentId file offset = .stop offset := by
  rw [scanEntries_eq, if_neg (by omega)]

theorem scanEntries_of_entryAt (segmentId : Nat) (h : EntryAt X file offset e) (hv : e.Valid) :
    scanEntries X segmentId file offset =
      .cons e offset (scanEntries X segmentId file (offset + e.diskSize)) := by
  have hguard : offset + ENTRY_HEADER_SIZE ≤ file.length := by
    obtain ⟨before, after, rfl, rfl⟩ := h
    simp only [length_append, Entry.length_encode, Entry.diskSize]
    omega
  rw [scanEntries_eq, if_pos hguard, readEntryAt_encode segmentId h hv]

/-! ## Files made of entries -/

def encodeAll (X : Extern) (es : List Entry) : Bytes := es.flatMap (·.encode X)

/-- The entries together with the offsets they stand at, the first one at `offset`. -/
def offsetsFrom : Nat → List Entry → List (Entry × Nat)
  | _, [] => []
  | offset, e :: es => (e, offset) :: offsetsFrom (offset + e.diskSize) es

def sizeAll (es : List Entry) : Nat := (es.map Entry.diskSize).sum

@[simp] theorem encodeAll_nil (X : Extern) : encodeAll X [] = [] := rfl

theorem encodeAll_cons (X : Extern) (e : Entry) (es : List Entry) :
    encodeAll X (e :: es) = e.encode X ++ encodeAll X es := by
  simp [encodeAll]

theorem encodeAll_append (X : Extern) (es fs : List Entry) :
    encodeAll X (es ++ fs) = encodeAll X es ++ encodeAll X fs := by
  simp [encodeAll]

@[simp] theorem sizeAll_nil : sizeAll [] = 0 := rfl

@[simp] theorem sizeAll_cons (e : Entry) (es : List Entry) :
    sizeAll (e :: es) = e.diskSize + sizeAll es := by
  simp [sizeAll]

@[simp] theorem sizeAll_append (es fs : List Entry) :
    sizeAll (es ++ fs) = sizeAll es + sizeAll fs := by
  simp [sizeAll]

@[simp] theorem length_encodeAll (X : Extern) (es : List Entry) :
    (encodeAll X es).length = sizeAll es := by
  induction es with
  | nil => rfl
  | cons e es ih => simp [encodeAll_cons, ih]

theorem offsetsFrom_append (offset : Nat) (es fs : List Entry) :
    offsetsFrom offset (es ++ fs) =
      offsetsFrom offset es ++ offsetsFrom (offset + sizeAll es) fs := by
  induction es generalizing offset with
  | nil => simp [offsetsFrom]
  | cons e es ih => simp [offsetsFrom, ih, Nat.add_assoc]

variable {es : List Entry}

theorem mem_offsetsFrom {base : Nat} :
    (e, offset) ∈ offsetsFrom base es ↔
      ∃ before after, es = before ++ e :: after ∧ offset = base + sizeAll before := by
  induction es generalizing base with
  | nil => simp [offsetsFrom]
  | cons f es ih =>
    rw [offsetsFrom, mem_cons, ih]
    constructor
    · rintro (h | ⟨before, after, rfl, rfl⟩)
      · cases h
        exact ⟨[], es, rfl, by simp⟩
      · exact ⟨f :: before, after, rfl, by simp [Nat.add_assoc]⟩
    · rintro ⟨before, after, h, rfl⟩
      cases before with
      | nil =>
        obtain ⟨rfl, rfl⟩ := h
        exact .inl (by simp)
      | cons g before =>
        obtain ⟨rfl, rfl⟩ := h
        exact .inr ⟨before, after, rfl, by simp [Nat.add_assoc]⟩

theorem entryAt_of_mem_offsetsFrom (front : Bytes) (h : (e, offset) ∈ offsetsFrom front.length es)
    (tail : Bytes) : EntryAt X (front ++ (encodeAll X es ++ tail)) offset e := by
  obtain ⟨before, after, rfl, rfl⟩ := mem_offsetsFrom.mp h
  refine ⟨front ++ encodeAll X before, encodeAll X after ++ tail, ?_, by simp⟩
  simp [encodeAll_append, encodeAll_cons]

section

variable (X : Extern) (segmentId : Nat)

theorem scanEntries_entries (before after : Bytes) (hv : ∀ e ∈ es, e.Valid) :
    scanEntries X segmentId (before ++ (encodeAll X es ++ after)) before.length =
      ⟨offsetsFrom before.length es ++ (scanEntries X segmentId
          (before ++ (encodeAll X es ++ after)) (before.length + sizeAll es)).visited,
        (scanEntries X segmentId (before ++ (encodeAll X es ++ after))
          (before.length + sizeAll es)).outcome⟩ := by
  induction es generalizing before with
  | nil => simp [offsetsFrom]
  | cons e es ih =>
    have hfile : before ++ (encodeAll X (e :: es) ++ after) =
        (before ++ e.encode X) ++ (encodeAll X es ++ after) := by
      simp [encodeAll_cons]
    have hat : EntryAt X (before ++ (encodeAll X (e :: es) ++ after)) before.length e :=
      ⟨before, encodeAll X es ++ after, by simp [encodeAll_cons], rfl⟩
    have ih' := ih (before ++ e.encode X) fun f hf => hv f (mem_cons_of_mem _ hf)
    rw [scanEntries_of_entryAt segmentId hat (hv e mem_cons_self), hfile]
    simp only [length_append, Entry.length_encode] at ih'
    rw [ih']
    simp [Scan.cons, offsetsFrom, Nat.add_assoc]

/-- A scan of whole entries that starts between two of them; less than a header
behind the last one is not even looked at. -/
theorem scanEntries_encodeAll (es : List Entry) {fs : List Entry} {tail : Bytes}
    (hv : ∀ e ∈ fs, e.Valid) (htail : tail.length < ENTRY_HEADER_SIZE) :
    scanEntries X segmentId (encodeAll X (es ++ fs) ++ tail) (sizeAll es) =
      ⟨offsetsFrom (sizeAll es) fs, .ok (sizeAll (es ++ fs))⟩ := by
  have h := scanEntries_entries X segmentId (encodeAll X es) tail hv
  have hend : scanEntries X segmentId (encodeAll X es ++ (encodeAll X fs ++ tail))
      (sizeAll es + sizeAll fs) = .stop (sizeAll es + sizeAll fs) := by
    apply scanEntries_of_short
    simp only [length_append, length_encodeAll]
    omega
  simp only [length_encodeAll, hend] at h
  rw [encodeAll_append, append_assoc, h]
  simp [Scan.stop]

theorem scanEntries_whole (hv : ∀ e ∈ es, e.Valid) :
    scanEntries X segmentId (encodeAll X es) 0 = ⟨offsetsFrom 0 es, .ok (sizeAll es)⟩ := by
  have htail : ([] : Bytes).length < ENTRY_HEADER_SIZE := by decide
  have h := scanEntries_encodeAll X segmentId [] hv htail
  rwa [nil_append, append_nil, sizeAll_nil] at h

end

/-! ## Cutting off what was not read -/

theorem EntryAt.le_length (h : EntryAt X file offset e) : offset + e.diskSize ≤ file.length := by
  obtain ⟨before, after, rfl, rfl⟩ := h
  simp only [length_append, Entry.length_encode]
  omega

theorem EntryAt.take
    (h : EntryAt X file offset e) {size : Nat} (hsize : offset + e.diskSize ≤ size) :
    EntryAt X (file.take size) offset e := by
  obtain ⟨before, after, rfl, rfl⟩ := h
  refine ⟨before, after.take (size - (before ++ e.encode X).length), ?_, rfl⟩
  have hle : (before ++ e.encode X).length ≤ size := by
    simpa only [length_append, Entry.length_encode] using hsize
  rw [← append_assoc, take_append, take_of_length_le hle, append_assoc]

variable {visited : List (Entry × Nat)}

theorem scanEntries_cases (h : scanEntries X segmentId file offset = ⟨visited, .ok point⟩) :
    (visited = [] ∧ point = offset) ∨
      ∃ e rest, visited = (e, offset) :: rest ∧ EntryAt X file offset e ∧ e.Valid ∧
        scanEntries X segmentId file (offset + e.diskSize) = ⟨rest, .ok point⟩ := by
  rw [scanEntries_eq] at h
  by_cases hguard : offset + ENTRY_HEADER_SIZE ≤ file.length
  · rw [if_pos hguard] at h
    cases hread : readEntryAt X segmentId file offset with
    | error err =>
      rw [hread] at h
      dsimp only [scanError] at h
      split at h
      · split at h
        · cases h
          exact .inl ⟨rfl, rfl⟩
        · cases h
      · cases h
    | ok found =>
      obtain ⟨e, next⟩ := found
      obtain ⟨hat, hvalid, rfl⟩ := entryAt_of_readEntryAt hguard hread
      rw [hread] at h
      obtain ⟨hvisited, houtcome⟩ := Scan.mk.inj h
      refine .inr ⟨e, _, hvisited.symm, hat, hvalid, ?_⟩
      rw [← houtcome]
  · rw [if_neg hguard] at h
    cases h
    exact .inl ⟨rfl, rfl⟩

theorem scanEntries_take (hoffset : offset ≤ file.length)
    (h : scanEntries X segmentId file offset = ⟨visited, .ok point⟩) :
    offset ≤ point ∧ point ≤ file.length ∧
      scanEntries X segmentId (file.take point) offset = ⟨visited, .ok point⟩ := by
  induction visited generalizing offset with
  | nil =>
    rcases scanEntries_cases h with ⟨-, rfl⟩ | ⟨e, rest, hcons, -⟩
    · refine ⟨le_refl _, hoffset, scanEntries_of_short ?_⟩
      rw [length_take, Nat.min_eq_left hoffset, ENTRY_HEADER_SIZE]
      omega
    · cases hcons
  | cons found rest ih =>
    rcases scanEntries_cases h with ⟨hnil, -⟩ | ⟨e, rest', hcons, hat, hvalid, hrest⟩
    · cases hnil
    · cases hcons
      obtain ⟨hle, hpoint, htake⟩ := ih hat.le_length hrest
      refine ⟨(Nat.le_add_right _ _).trans hle, hpoint, ?_⟩
      rw [scanEntries_of_entryAt segmentId (hat.take hle) hvalid, htake]
      rfl

end Bichon.Blob
