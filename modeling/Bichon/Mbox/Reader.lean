import Bichon.Lib.Frames
import Bichon.Lib.Lines

/-!
# Reading an mbox file

`MboxReader` looks at the file byte by byte. A line that begins with `From ` separates two
messages, and the bytes between two separators are an entry; what comes before the first one
is skipped. `yields_mails` says what the iterator yields, in terms of the lines of the file,
and `reader_lossless` where in the file the entries are.
-/

namespace Bichon.Mbox

open ByteFile Lines Frames List

def fromMark : Bytes := [70, 114, 111, 109, 32]

structure Entry where
  offset : Nat
  data : Bytes
  deriving DecidableEq

structure MboxReader where
  data : Bytes
  scanPos : Nat
  bodyStart : Option Nat
  deriving DecidableEq

def MboxReader.new (data : Bytes) : MboxReader := ⟨data, 0, none⟩

def isFromLine (data : Bytes) (i : Nat) : Bool :=
  if data.length < i + 5 then false
  else if i = 0 then data.take 5 == fromMark
  else data[i - 1]? == some newline && (data.drop i).take 5 == fromMark

/-- The length of the first line, with its line feed. -/
def lineLength : Bytes → Nat
  | [] => 0
  | b :: bs => if b = newline then 1 else lineLength bs + 1

def skipFromLine (data : Bytes) (i : Nat) : Nat := i + lineLength (data.drop i)

theorem lt_skipFromLine {data : Bytes} {i : Nat} (h : i < data.length) :
    i < skipFromLine data i := by
  rw [skipFromLine, drop_eq_getElem_cons h, lineLength]
  split <;> omega

/-- The loop of `MboxReader::next`, from a position and with the start of the body. -/
def scan (data : Bytes) (pos : Nat) (start : Option Nat) : Option (Entry × MboxReader) :=
  if h : pos < data.length then
    if isFromLine data pos then
      let bodyPos := skipFromLine data pos
      match start with
      | some start => some (⟨start, (data.take pos).drop start⟩, ⟨data, bodyPos, some bodyPos⟩)
      | none =>
        have := lt_skipFromLine h
        scan data bodyPos (some bodyPos)
    else scan data (pos + 1) start
  else start.map fun start => (⟨start, data.drop start⟩, ⟨data, pos, none⟩)
termination_by data.length - pos

def MboxReader.next (r : MboxReader) : Option (Entry × MboxReader) :=
  scan r.data r.scanPos r.bodyStart

/-- The iterator yields the entries and ends. -/
inductive Yields : MboxReader → List Entry → Prop
  | done {r : MboxReader} (h : r.next = none) : Yields r []
  | entry {r r' : MboxReader} {e : Entry} {es : List Entry} (h : r.next = some (e, r'))
      (hrest : Yields r' es) : Yields r (e :: es)

theorem Yields.unique {r : MboxReader} {es es' : List Entry} (h : Yields r es)
    (h' : Yields r es') : es = es' := by
  induction h generalizing es' with
  | done h =>
    cases h' with
    | done => rfl
    | entry h' => rw [h] at h'; cases h'
  | entry h hrest ih =>
    cases h' with
    | done h' => rw [h] at h'; cases h'
    | entry h' hrest' =>
      rw [h] at h'
      cases h'
      rw [ih hrest']

theorem Yields.congr {r r' : MboxReader} {es : List Entry} (hnext : r.next = r'.next)
    (h : Yields r' es) : Yields r es := by
  cases h with
  | done h => exact .done (hnext.trans h)
  | entry h hrest => exact .entry (hnext.trans h) hrest

/-! ## Separators among the lines -/

def separates (line : Bytes) : Bool := fromMark.isPrefixOf line

theorem separates_iff {line : Bytes} : separates line = true ↔ fromMark <+: line :=
  isPrefixOf_iff_prefix

theorem newline_notMem_fromMark : newline ∉ fromMark := by decide

theorem lineLength_append {line rest : Bytes} (h : IsLine line rest) :
    lineLength (line ++ rest) = line.length := by
  obtain ⟨hne, hinside, hfinished⟩ := h
  induction line with
  | nil => exact absurd rfl hne
  | cons b line ih =>
    cases line with
    | nil =>
      rcases hfinished with rfl | hlast
      · simp [lineLength]
      · rw [singleton_append, lineLength, if_pos (by simpa using hlast)]
        rfl
    | cons c line =>
      rw [dropLast_cons_cons, mem_cons, not_or] at hinside
      rw [cons_append, lineLength, if_neg (Ne.symm hinside.1),
        ih (cons_ne_nil c line) hinside.2 hfinished]
      rfl

section

variable {before line rest : Bytes} {start : Option Nat}

theorem getElem?_length_sub_one (h : before ≠ []) :
    (before ++ rest)[before.length - 1]? = before.getLast? := by
  have hpos := length_pos_of_ne_nil h
  rw [getElem?_append_left (by omega), getLast?_eq_getElem?]

theorem isFromLine_length_iff :
    isFromLine (before ++ rest) before.length = true ↔ AtLineStart before ∧ fromMark <+: rest := by
  have htake : rest.take 5 = fromMark ↔ fromMark <+: rest := by
    rw [prefix_iff_eq_take, eq_comm]
    rfl
  unfold isFromLine
  by_cases hlen : (before ++ rest).length < before.length + 5
  · rw [if_pos hlen]
    rw [length_append] at hlen
    have hshort : ¬ fromMark <+: rest := fun h => by
      have := h.length_le
      simp only [fromMark, length_cons, length_nil] at this
      omega
    simp [hshort]
  · rw [if_neg hlen]
    cases before with
    | nil => simp [AtLineStart, htake]
    | cons b before =>
      rw [if_neg (by simp), getElem?_length_sub_one (cons_ne_nil b before)]
      simp [AtLineStart, htake]

/-- A line that does not begin with the mark is passed over, byte by byte: behind its first
byte a separator cannot begin. -/
theorem scan_inside (hline : newline ∉ line.dropLast)
    (hfrom : ¬ (AtLineStart before ∧ fromMark <+: line ++ rest)) :
    scan (before ++ (line ++ rest)) before.length start =
      scan (before ++ (line ++ rest)) (before.length + line.length) start := by
  induction line generalizing before with
  | nil => rfl
  | cons b line ih =>
    have hlt : before.length < (before ++ (b :: line ++ rest)).length := by simp
    rw [← isFromLine_length_iff] at hfrom
    rw [scan, dif_pos hlt, if_neg hfrom]
    cases line with
    | nil => rfl
    | cons c line =>
      rw [dropLast_cons_cons, mem_cons, not_or] at hline
      have hbefore : ¬ AtLineStart (before ++ [b]) := by
        simp [AtLineStart, Ne.symm hline.1]
      have hstep := ih hline.2 fun h => hbefore h.1
      rw [append_assoc before, singleton_append, length_append,
        length_singleton, Nat.add_assoc, Nat.add_comm 1] at hstep
      exact hstep

section

variable (hline : IsLine line rest)

include hline

theorem scan_line (hsep : ¬ separates line = true) :
    scan (before ++ (line ++ rest)) before.length start =
      scan (before ++ (line ++ rest)) (before.length + line.length) start := by
  refine scan_inside hline.inside fun h => hsep ?_
  rw [separates_iff, ← hline.isPrefix_iff newline_notMem_fromMark]
  exact h.2

theorem skipFromLine_length :
    skipFromLine (before ++ (line ++ rest)) before.length = before.length + line.length := by
  rw [skipFromLine, drop_left, lineLength_append hline]

theorem isFromLine_of_separates (hbefore : AtLineStart before) (hsep : separates line = true) :
    before.length < (before ++ (line ++ rest)).length ∧
      isFromLine (before ++ (line ++ rest)) before.length = true := by
  have hpos := length_pos_of_ne_nil hline.ne_nil
  rw [isFromLine_length_iff, hline.isPrefix_iff newline_notMem_fromMark, length_append,
    length_append]
  exact ⟨by omega, hbefore, separates_iff.mp hsep⟩

theorem scan_separator_none (hbefore : AtLineStart before) (hsep : separates line = true) :
    scan (before ++ (line ++ rest)) before.length none =
      scan (before ++ (line ++ rest)) (before.length + line.length)
        (some (before.length + line.length)) := by
  have hfrom := isFromLine_of_separates hline hbefore hsep
  rw [scan, dif_pos hfrom.1, if_pos hfrom.2]
  simp only [skipFromLine_length hline]

theorem scan_separator_some (hbefore : AtLineStart before)
    (hsep : separates line = true) (n : Nat) :
    scan (before ++ (line ++ rest)) before.length (some n) =
      some (⟨n, before.drop n⟩, ⟨before ++ (line ++ rest), before.length + line.length,
        some (before.length + line.length)⟩) := by
  have hfrom := isFromLine_of_separates hline hbefore hsep
  rw [scan, dif_pos hfrom.1, if_pos hfrom.2]
  simp only [skipFromLine_length hline, take_left]

end

theorem scan_end (data : Bytes) (start : Option Nat) :
    scan data data.length start =
      start.map fun n => (⟨n, data.drop n⟩, ⟨data, data.length, none⟩) := by
  rw [scan, dif_neg (Nat.lt_irrefl _)]

end

/-! ## The entries of a file -/

/-- The messages of a file: the lines between the separators. -/
def mails (file : Bytes) : List Bytes := (frames separates (cut file)).map List.flatten

/-- The entry that ends at the end of the bytes. -/
def pending (before : Bytes) (start : Option Nat) : List Entry :=
  (start.map fun n => ⟨n, before.drop n⟩).toList

/-- What is found in the lines behind the bytes. -/
def found (before : Bytes) (start : Option Nat) : List Bytes → List Entry
  | [] => pending before start
  | line :: lines =>
    if separates line then
      pending before start ++ found (before ++ line) (some (before ++ line).length) lines
    else found (before ++ line) start lines

theorem yields_found (before rest : Bytes) (start : Option Nat)
    (h : rest = [] ∨ AtLineStart before) :
    Yields ⟨before ++ rest, before.length, start⟩ (found before start (cut rest)) := by
  induction rest using lineInduction generalizing before start with
  | nil =>
    rw [append_nil]
    cases start with
    | none => exact .done (scan_end _ _)
    | some n => exact .entry (scan_end _ _) (.done (scan_end _ _))
  | line line rest hline ih =>
    have hstart := h.resolve_left (by simp [hline.ne_nil])
    have hnext : rest = [] ∨ AtLineStart (before ++ line) :=
      hline.finished.imp_right fun hlast => .inr (by rw [getLast?_append, hlast]; rfl)
    rw [hline.cut_append, found]
    by_cases hsep : separates line = true
    · have hrest := ih (before ++ line) (some (before ++ line).length) hnext
      rw [append_assoc, length_append] at hrest
      rw [if_pos hsep, length_append]
      cases start with
      | none =>
        refine hrest.congr ?_
        exact scan_separator_none hline hstart hsep
      | some n => exact .entry (scan_separator_some hline hstart hsep n) hrest
    · have hrest := ih (before ++ line) start hnext
      rw [append_assoc, length_append] at hrest
      rw [if_neg hsep]
      refine hrest.congr ?_
      exact scan_line hline hsep

/-- The entries that stand behind their separators from the position on, without a gap. -/
def entriesAt (pos : Nat) : List (Bytes × List Bytes) → List Entry
  | [] => []
  | (line, body) :: bs =>
    ⟨pos + line.length, body.flatten⟩ :: entriesAt (pos + line.length + body.flatten.length) bs

theorem map_data_entriesAt (pos : Nat) (bs : List (Bytes × List Bytes)) :
    (entriesAt pos bs).map Entry.data = bs.map fun b => b.2.flatten := by
  induction bs generalizing pos with
  | nil => rfl
  | cons b bs ih => rw [entriesAt, map_cons, ih, map_cons]

section

variable {before : Bytes} {start : Option Nat} {front : List Bytes}

theorem found_append (hfront : ∀ line ∈ front, separates line = false) (lines : List Bytes) :
    found before start (front ++ lines) = found (before ++ front.flatten) start lines := by
  induction front generalizing before with
  | nil => rw [flatten_nil, append_nil, nil_append]
  | cons line front ih =>
    rw [forall_mem_cons] at hfront
    rw [cons_append, found, if_neg (by simp [hfront.1]), ih hfront.2, flatten_cons, append_assoc]

theorem found_flatMap {bs : List (Bytes × List Bytes)} (hsep : ∀ b ∈ bs, separates b.1 = true)
    (hbody : ∀ b ∈ bs, ∀ line ∈ b.2, separates line = false) :
    found before start (bs.flatMap written) =
      pending before start ++ entriesAt before.length bs := by
  induction bs generalizing before start with
  | nil => exact (append_nil _).symm
  | cons b bs ih =>
    rw [forall_mem_cons] at hsep hbody
    rw [flatMap_cons, written, cons_append, found, if_pos hsep.1, found_append hbody.1,
      ih hsep.2 hbody.2]
    simp [pending, entriesAt, Nat.add_assoc]

end

theorem exists_yields (file : Bytes) :
    ∃ front bs, cut file = front ++ flatMap written bs ∧ Delimited separates front bs ∧
      Yields (.new file) (entriesAt front.flatten.length bs) := by
  obtain ⟨front, bs, hfile, h⟩ := exists_delimited separates (cut file)
  have hyields := yields_found [] file none (.inr (.inl rfl))
  rw [hfile, found_append h.front, found_flatMap h.mark h.body] at hyields
  exact ⟨front, bs, hfile, h, hyields⟩

theorem yields_mails (file : Bytes) :
    ∃ es, Yields (.new file) es ∧ es.map Entry.data = mails file := by
  obtain ⟨front, bs, hfile, h, hyields⟩ := exists_yields file
  refine ⟨_, hyields, ?_⟩
  rw [map_data_entriesAt, mails, frames, hfile, h.splitOnP_eq, tail_cons, map_map]
  rfl

/-! ## Writing and reading back -/

/-- The file with each body behind a `From ` line. -/
def mboxOf (ms : List (Bytes × Bytes)) : Bytes :=
  ms.flatMap fun m => fromMark ++ m.1 ++ newline :: m.2

theorem cut_mboxOf {ms : List (Bytes × Bytes)} (hline : ∀ m ∈ ms, newline ∉ m.1)
    (hend : ∀ m ∈ ms, m.2.getLast? = some newline) :
    cut (mboxOf ms) =
      (ms.map fun m => (fromMark ++ m.1 ++ [newline], cut m.2)).flatMap written := by
  induction ms with
  | nil => rfl
  | cons m ms ih =>
    rw [forall_mem_cons] at hline hend
    have hfrom : newline ∉ fromMark ++ m.1 := by simp [newline_notMem_fromMark, hline.1]
    rw [mboxOf, flatMap_cons, append_assoc, cons_append, cut_append_newline hfrom,
      cut_append (.inr hend.1), map_cons, flatMap_cons, ← ih hline.2 hend.2]
    rfl

/-- The lines of every file are some without a separator, and then in turn a separator and
the lines of an entry; the entries are yielded in order, each where it stands in the file. So
bodies of whole lines without a separator are read back as they were written. -/
theorem reader_lossless :
    (∀ file, ∃ front bs, cut file = front ++ flatMap written bs ∧ Delimited separates front bs ∧
      Yields (.new file) (entriesAt front.flatten.length bs)) ∧
    ∀ ms : List (Bytes × Bytes), (∀ m ∈ ms, newline ∉ m.1) →
      (∀ m ∈ ms, m.2.getLast? = some newline) →
      (∀ m ∈ ms, ∀ line ∈ cut m.2, separates line = false) →
      ∃ es, Yields (.new (mboxOf ms)) es ∧ es.map Entry.data = ms.map Prod.snd := by
  refine ⟨exists_yields, fun ms hline hend hbody => ?_⟩
  obtain ⟨es, hes, hdata⟩ := yields_mails (mboxOf ms)
  refine ⟨es, hes, ?_⟩
  rw [hdata, mails, cut_mboxOf hline hend, frames_flatMap, map_map, map_map]
  · simp [Function.comp_def, flatten_cut]
  · intro b hb
    obtain ⟨m, -, rfl⟩ := mem_map.mp hb
    exact separates_iff.mpr ⟨m.1 ++ [newline], (append_assoc _ _ _).symm⟩
  · intro b hb
    obtain ⟨m, hm, rfl⟩ := mem_map.mp hb
    exact hbody m hm

theorem reader_lossless_twoMails :
    let mails : List (Bytes × Bytes) := [([97], [98, newline]), ([], [newline, 99, newline])]
    ∃ es, Yields (.new (mboxOf mails)) es ∧ es.map Entry.data = mails.map Prod.snd :=
  reader_lossless.2 _ (by decide) (by decide) (by decide)

end Bichon.Mbox
