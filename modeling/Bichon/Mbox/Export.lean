import Bichon.Envelope.Detach
import Bichon.Mbox.Reader

/-!
# Exporting messages to an mbox file

`run_export_inner` pages through a search and appends one entry per message to the artifact:
a `From ` line, a metadata header, the raw message and two line feeds. A message that cannot
be read, or that has lost an attachment, is counted as failed and leaves no entry.

The sender is written into the `From ` line and the message below it as they are. So the
artifact is read back as it was written exactly when no line of a message begins with `From `
and no sender holds a line feed (`framing_iff`).
-/

namespace Bichon.Mbox

open ByteFile Lines Frames List
open Envelope (Failure asBytes asBytes_append detachPlaceholderPrefix)

/-! ## The pieces of an entry -/

/-- The alphabet of the engine `STANDARD`. -/
def base64Char (n : Nat) : UInt8 :=
  if n < 26 then UInt8.ofNat (65 + n)
  else if n < 52 then UInt8.ofNat (97 + (n - 26))
  else if n < 62 then UInt8.ofNat (48 + (n - 52))
  else if n = 62 then 43
  else 47

def base64Encode : Bytes → Bytes
  | [] => []
  | [a] => [base64Char (a.toNat / 4), base64Char (a.toNat % 4 * 16), 61, 61]
  | [a, b] =>
    [base64Char (a.toNat / 4), base64Char (a.toNat % 4 * 16 + b.toNat / 16),
      base64Char (b.toNat % 16 * 4), 61]
  | a :: b :: c :: rest =>
    base64Char (a.toNat / 4) :: base64Char (a.toNat % 4 * 16 + b.toNat / 16) ::
      base64Char (b.toNat % 16 * 4 + c.toNat / 64) :: base64Char (c.toNat % 64) :: base64Encode rest

structure BichonMetadata where
  accountEmail : Option String
  mailboxName : Option String
  tags : Option (List String)
  deriving DecidableEq

structure Envelope where
  id : String
  messageId : String
  accountId : Nat
  accountEmail : Option String
  mailboxId : Nat
  mailboxName : Option String
  uid : Nat
  subject : String
  fromAddr : String
  date : Int
  size : Nat
  contentHash : String
  tags : Option (List String)
  deriving DecidableEq

/-- What the exporter takes from other libraries: the text of a time in seconds, if it is one,
and the JSON of the metadata and of a line of the manifest. -/
structure Format where
  date : Int → Option String
  metadata : BichonMetadata → String
  manifestLine : Envelope → Bytes
  date_oneLine : ∀ t d, date t = some d → newline ∉ asBytes d

def Envelope.metadata (e : Envelope) : BichonMetadata := ⟨e.accountEmail, e.mailboxName, e.tags⟩

def fromLine (e : Envelope) (dateStr : String) : Bytes :=
  asBytes ("From " ++ e.fromAddr ++ " " ++ dateStr ++ "\n")

def header (F : Format) (e : Envelope) : Bytes :=
  asBytes "X-Bichon-Metadata: " ++ base64Encode (asBytes (F.metadata e.metadata)) ++ asBytes "\r\n"

def containsDetachPlaceholder (raw : Bytes) : Bool :=
  raw.tails.any (asBytes detachPlaceholderPrefix).isPrefixOf

/-! ## The run -/

/-- A message that was exported, with the content that was read and the date that was
written for it. -/
structure Copy where
  envelope : Envelope
  raw : Bytes
  dateStr : String
  deriving DecidableEq

/-- The files, the counters of the job, and how often the cancel flag was looked at and a file
was written to. The source has no `copies`: they record what was exported. -/
structure ExportState where
  mbox : Bytes := []
  manifest : Bytes := []
  processed : Nat := 0
  exported : Nat := 0
  failed : Nat := 0
  checks : Nat := 0
  writes : Nat := 0
  copies : List Copy := []
  deriving DecidableEq

/-- What the run meets: the answers of the archive and of the search, the looks at the cancel
flag that find it set, and the writes that fail, each after so many bytes. -/
structure World where
  reader : Nat → Envelope → Except BichonError Bytes
  search : Nat → Except BichonError (List Envelope × Option Nat)
  cancelled : Nat → Bool
  fault : Nat → Option (Nat × String)

abbrev Export := ExceptT Failure (StateM ExportState)

def writeMbox (W : World) (data : Bytes) (what : String) : Export Unit := fun s =>
  match W.fault s.writes with
  | none => (.ok (), { s with mbox := s.mbox ++ data, writes := s.writes + 1 })
  | some (n, e) =>
    (.error (.error ⟨"Failed to " ++ what ++ ": " ++ e, .internalError⟩),
      { s with mbox := s.mbox ++ data.take n, writes := s.writes + 1 })

def writeManifest (W : World) (data : Bytes) : Export Unit := fun s =>
  match W.fault s.writes with
  | none => (.ok (), { s with manifest := s.manifest ++ data, writes := s.writes + 1 })
  | some (n, e) =>
    (.error (.error ⟨"Failed to write manifest line: " ++ e, .internalError⟩),
      { s with manifest := s.manifest ++ data.take n, writes := s.writes + 1 })

def readMessage (W : World) (e : Envelope) : Export Bytes := fun s =>
  match W.reader s.processed e with
  | .ok raw => (.ok raw, s)
  | .error err => (.error (.error err), s)

def dateText (F : Format) (e : Envelope) : Export String :=
  match F.date (e.date.tdiv 1000) with
  | some d => pure d
  | none => throw .panic

def exportOne (F : Format) (W : World) (e : Envelope) : Export Unit := do
  let raw ← readMessage W e
  if containsDetachPlaceholder raw then
    throw (.error ⟨"Message " ++ e.id ++ " is missing attachment content in the archive; " ++
      "refusing to export a degraded copy.", .internalError⟩)
  let dateStr ← dateText F e
  writeMbox W (fromLine e dateStr) "write mbox entry"
  writeMbox W (header F e) "write mbox header"
  writeMbox W raw "write message body"
  writeMbox W [newline, newline] "finalize mbox entry"
  writeManifest W (F.manifestLine e ++ [newline])
  modify fun s => { s with copies := s.copies ++ [⟨e, raw, dateStr⟩] }

inductive Ending
  | finished
  | cancelled
  | failed (e : BichonError)
  | panicked
  deriving DecidableEq

/-- The messages of one page. -/
def exportItems (F : Format) (W : World) : List Envelope → ExportState → Option Ending × ExportState
  | [], s => (none, s)
  | e :: es, s =>
    if W.cancelled s.checks then (some .cancelled, { s with checks := s.checks + 1 })
    else
      match exportOne F W e { s with checks := s.checks + 1 } with
      | (.ok (), s) =>
        exportItems F W es { s with processed := s.processed + 1, exported := s.exported + 1 }
      | (.error (.error _), s) =>
        exportItems F W es { s with processed := s.processed + 1, failed := s.failed + 1 }
      | (.error .panic, s) => (some .panicked, s)

/-- The loop over the pages, for at most so many of them: every answer of the search says anew
how many pages there are. -/
def exportPages (F : Format) (W : World) : Nat → Nat → ExportState → Option (Ending × ExportState)
  | 0, _, _ => none
  | fuel + 1, page, s =>
    if W.cancelled s.checks then some (.cancelled, { s with checks := s.checks + 1 })
    else
      match W.search page with
      | .error e => some (.failed e, { s with checks := s.checks + 1 })
      | .ok (items, totalPages) =>
        match exportItems F W items { s with checks := s.checks + 1 } with
        | (some ending, s) => some (ending, s)
        | (none, s) =>
          if max (totalPages.getD 1) 1 ≤ page then some (.finished, s)
          else exportPages F W fuel (page + 1) s

def runExportInner (F : Format) (W : World) (fuel : Nat) : Option (Ending × ExportState) :=
  exportPages F W fuel 1 {}

/-! ## What is written -/

/-- What the artifact should hold of a message: the metadata header, the raw message and the
two line feeds. -/
def entryBytes (F : Format) (c : Copy) : Bytes := header F c.envelope ++ c.raw ++ [newline, newline]

/-- The artifact holds the exported messages, each behind its `From ` line, and nothing else. -/
def Written (F : Format) (s : ExportState) : Prop :=
  (s.mbox = s.copies.flatMap fun c => fromLine c.envelope c.dateStr ++ entryBytes F c) ∧
    (∀ c ∈ s.copies, newline ∉ asBytes c.dateStr) ∧ s.exported = s.copies.length

section

variable {F : Format} {W : World} {s s' : ExportState}

theorem bind_ok {α β : Type} {x : Export α} {f : α → Export β} {a : α}
    (h : x s = (.ok a, s')) : (x >>= f) s = f a s' := by
  show (match x s with | (r, s') => ExceptT.bindCont f r s') = f a s'
  rw [h]
  rfl

theorem bind_error {α β : Type} {x : Export α} {f : α → Export β} {failure : Failure}
    (h : x s = (.error failure, s')) : (x >>= f) s = (.error failure, s') := by
  show (match x s with | (r, s') => ExceptT.bindCont f r s') = (.error failure, s')
  rw [h]
  rfl

theorem writeMbox_ok (hio : ∀ n, W.fault n = none) (data : Bytes) (what : String) :
    writeMbox W data what s =
      (.ok (), { s with mbox := s.mbox ++ data, writes := s.writes + 1 }) := by
  rw [writeMbox, hio]

theorem writeManifest_ok (hio : ∀ n, W.fault n = none) (data : Bytes) :
    writeManifest W data s =
      (.ok (), { s with manifest := s.manifest ++ data, writes := s.writes + 1 }) := by
  rw [writeManifest, hio]

theorem exportOne_cases (hio : ∀ n, W.fault n = none) (e : Envelope) :
    (∃ raw dateStr, newline ∉ asBytes dateStr ∧
      exportOne F W e s = (.ok (), { s with
        mbox := s.mbox ++ (fromLine e dateStr ++ entryBytes F ⟨e, raw, dateStr⟩)
        manifest := s.manifest ++ (F.manifestLine e ++ [newline])
        writes := s.writes + 5
        copies := s.copies ++ [⟨e, raw, dateStr⟩] })) ∨
      ∃ failure, exportOne F W e s = (.error failure, s) := by
  unfold exportOne
  cases hreader : W.reader s.processed e with
  | error err =>
    have hread : readMessage W e s = (.error (.error err), s) := by rw [readMessage, hreader]
    exact .inr ⟨_, bind_error hread⟩
  | ok raw =>
    have hread : readMessage W e s = (.ok raw, s) := by rw [readMessage, hreader]
    rw [bind_ok hread]
    by_cases hdetached : containsDetachPlaceholder raw = true
    · rw [if_pos hdetached]
      exact .inr ⟨_, bind_error rfl⟩
    · simp only [hdetached, if_false, Bool.false_eq_true]
      cases hd : F.date (e.date.tdiv 1000) with
      | none =>
        have hdate : dateText F e s = (.error .panic, s) := by rw [dateText, hd]; rfl
        exact .inr ⟨_, bind_error hdate⟩
      | some dateStr =>
        have hdate : dateText F e s = (.ok dateStr, s) := by rw [dateText, hd]; rfl
        refine .inl ⟨raw, dateStr, F.date_oneLine _ _ hd, ?_⟩
        rw [bind_ok hdate, bind_ok (writeMbox_ok hio _ _), bind_ok (writeMbox_ok hio _ _),
          bind_ok (writeMbox_ok hio _ _), bind_ok (writeMbox_ok hio _ _),
          bind_ok (writeManifest_ok hio _), entryBytes]
        simp only [append_assoc]
        rfl

theorem Written.exportOne_ok (h : Written F s) {e : Envelope} {raw : Bytes} {dateStr : String}
    (hdate : newline ∉ asBytes dateStr)
    (hmbox : s'.mbox = s.mbox ++ (fromLine e dateStr ++ entryBytes F ⟨e, raw, dateStr⟩))
    (hcopies : s'.copies = s.copies ++ [⟨e, raw, dateStr⟩])
    (hexported : s'.exported = s.exported + 1) : Written F s' := by
  obtain ⟨hmbox', hdates, hexported'⟩ := h
  rw [Written, hmbox, hcopies, hexported, hmbox', hexported']
  refine ⟨by simp, fun c hc => ?_, by simp⟩
  rcases mem_append.mp hc with hc | hc
  · exact hdates c hc
  · rw [mem_singleton.mp hc]
    exact hdate

theorem Written.exportItems (hio : ∀ n, W.fault n = none) (h : Written F s) (es : List Envelope) :
    Written F (exportItems F W es s).2 := by
  induction es generalizing s with
  | nil => exact h
  | cons e es ih =>
    rw [Mbox.exportItems]
    split
    · exact h
    · rcases exportOne_cases (F := F) (s := { s with checks := s.checks + 1 }) hio e with
        ⟨raw, dateStr, hdate, hone⟩ | ⟨failure, hone⟩
      · rw [hone]
        exact ih (h.exportOne_ok hdate rfl rfl rfl)
      · rw [hone]
        cases failure with
        | panic => exact h
        | error err => exact ih h

theorem Written.exportPages (hio : ∀ n, W.fault n = none) {fuel page : Nat} {ending : Ending}
    (h : Written F s) (hrun : exportPages F W fuel page s = some (ending, s')) : Written F s' := by
  induction fuel generalizing page s with
  | zero => cases hrun
  | succ fuel ih =>
    have hcheck : Written F { s with checks := s.checks + 1 } := h
    rw [Mbox.exportPages] at hrun
    split at hrun
    · cases hrun
      exact hcheck
    · cases hsearch : W.search page with
      | error err =>
        rw [hsearch] at hrun
        cases hrun
        exact hcheck
      | ok found =>
        obtain ⟨items, totalPages⟩ := found
        rw [hsearch] at hrun
        have hitems := hcheck.exportItems hio items
        cases hpage : Mbox.exportItems F W items { s with checks := s.checks + 1 } with
        | mk flow s₁ =>
          rw [hpage] at hitems
          simp only [hpage] at hrun
          cases flow with
          | some ending =>
            cases hrun
            exact hitems
          | none =>
            simp only at hrun
            split at hrun
            · cases hrun
              exact hitems
            · exact ih hitems hrun

theorem written_run (hio : ∀ n, W.fault n = none) {fuel : Nat} {ending : Ending}
    (hrun : runExportInner F W fuel = some (ending, s)) : Written F s :=
  Written.exportPages hio ⟨rfl, by simp, rfl⟩ hrun

theorem isSome_exportPages {bound : Nat}
    (hbound : ∀ page items n, W.search page = .ok (items, some n) → n ≤ bound) {fuel page : Nat}
    (hfuel : bound < fuel + page) (hpage : 1 ≤ page) (hpos : 0 < fuel) :
    (exportPages F W fuel page s).isSome = true := by
  fun_induction exportPages F W fuel page s with
  | case1 => exact absurd hpos (lt_irrefl 0)
  | case2 | case3 | case4 | case5 => rfl
  | case6 fuel page s _ items totalPages hsearch _ _ hlast ih =>
    have hle : totalPages.getD 1 ≤ max bound 1 := by
      cases totalPages with
      | none => exact Nat.le_max_right _ _
      | some n => exact Nat.le_trans (hbound page items n hsearch) (Nat.le_max_left _ _)
    exact ih (by omega) (by omega) (by omega)

/-- An export ends, one page past those that the search speaks of at the latest. -/
theorem runExportInner_ends {bound : Nat}
    (hbound : ∀ page items n, W.search page = .ok (items, some n) → n ≤ bound) :
    (runExportInner F W (bound + 1)).isSome = true :=
  isSome_exportPages hbound (by omega) le_rfl (by omega)

end

/-! ## The artifact line by line -/

theorem base64Char_ne_newline (n : Nat) : base64Char n ≠ newline := by
  have hupper : ∀ n < 26, UInt8.ofNat (65 + n) ≠ newline := by decide
  have hlower : ∀ n < 26, UInt8.ofNat (97 + n) ≠ newline := by decide
  have hdigit : ∀ n < 10, UInt8.ofNat (48 + n) ≠ newline := by decide
  unfold base64Char
  split
  · exact hupper n ‹_›
  · split
    · exact hlower (n - 26) (by omega)
    · split
      · exact hdigit (n - 52) (by omega)
      · split <;> decide

theorem newline_notMem_base64Encode (data : Bytes) : newline ∉ base64Encode data := by
  have hchar := fun n => Ne.symm (base64Char_ne_newline n)
  have hpad : newline ≠ 61 := by decide
  induction data using base64Encode.induct with
  | case1 => simp [base64Encode]
  | case2 | case3 => simp [base64Encode, hchar, hpad]
  | case4 a b c rest ih => simp [base64Encode, hchar, ih]

section

variable {F : Format} {e : Envelope} {d : String} {c : Copy} {raw : Bytes}

theorem header_isLine : IsLine (header F e) [] where
  ne_nil := by
    have hne : asBytes "\r\n" ≠ [] := by decide +kernel
    simp [header, hne]
  inside := by
    have hend : asBytes "\r\n" = [13] ++ [newline] := by decide +kernel
    have hname : newline ∉ asBytes "X-Bichon-Metadata: " := by decide +kernel
    have hcr : newline ≠ 13 := by decide
    rw [header, hend, ← append_assoc, dropLast_concat]
    simp [hname, hcr, newline_notMem_base64Encode]
  finished := .inl rfl

theorem header_atLineStart : AtLineStart (header F e) := by
  have hend : asBytes "\r\n" = [13] ++ [newline] := by decide +kernel
  right
  rw [header, hend, ← append_assoc, getLast?_concat]

theorem separates_header : separates (header F e) = false := rfl

theorem fromLine_eq :
    fromLine e d = fromMark ++ (asBytes e.fromAddr ++ asBytes " " ++ asBytes d) ++ [newline] := by
  have hmark : asBytes "From " = fromMark := by decide +kernel
  have hend : asBytes "\n" = [newline] := by decide +kernel
  simp [fromLine, asBytes_append, hmark, hend]

theorem fromLine_atLineStart : AtLineStart (fromLine e d) := by
  right
  rw [fromLine_eq, getLast?_concat]

theorem fromLine_isLine_iff (hd : newline ∉ asBytes d) :
    IsLine (fromLine e d) [] ↔ newline ∉ asBytes e.fromAddr := by
  have hspace : newline ∉ asBytes " " := by decide +kernel
  have hinside : newline ∉ (fromLine e d).dropLast ↔ newline ∉ asBytes e.fromAddr := by
    rw [fromLine_eq, dropLast_concat]
    simp [newline_notMem_fromMark, hspace, hd]
  rw [← hinside]
  exact ⟨fun h => h.inside, fun h => ⟨by simp [fromLine_eq], h, .inl rfl⟩⟩

theorem forall_cut_append_newline :
    (∀ line ∈ cut (raw ++ [newline]), separates line = false) ↔
      ∀ line ∈ cut raw, separates line = false := by
  induction raw using lineInduction with
  | nil => decide
  | line line rest hline ih =>
    rw [append_assoc, hline.cut_append, forall_mem_cons]
    by_cases hlast : line.getLast? = some newline
    · have hline' : IsLine line (rest ++ [newline]) := ⟨hline.ne_nil, hline.inside, .inr hlast⟩
      rw [hline'.cut_append, forall_mem_cons, ih]
    · -- only the last line may be unfinished, and the mark has no line feed
      obtain rfl := hline.finished.resolve_right hlast
      have hmark : fromMark ≠ line ++ [newline] := fun h =>
        newline_notMem_fromMark (h ▸ mem_concat_self)
      have hcut : cut (line ++ [newline]) = [line ++ [newline]] :=
        cut_append_newline (hline.notMem hlast) []
      simp [hcut, ← Bool.not_eq_true, separates_iff, prefix_concat_iff, hmark]

theorem forall_cut_entryBytes :
    (∀ line ∈ cut (entryBytes F c), separates line = false) ↔
      ∀ line ∈ cut c.raw, separates line = false := by
  have hheader : cut (header F c.envelope) = [header F c.envelope] := by
    simpa using header_isLine.cut_append
  have htail : [newline, newline] = [newline] ++ [newline] := rfl
  rw [entryBytes, append_assoc, cut_append header_atLineStart, hheader, singleton_append,
    forall_mem_cons, and_iff_right separates_header, htail, ← append_assoc,
    forall_cut_append_newline, forall_cut_append_newline]

/-- The lines of an entry: the one that separates it, and those of its body. -/
def block (F : Format) (c : Copy) : Bytes × List Bytes :=
  ((cut (fromLine c.envelope c.dateStr)).headD [],
    (cut (fromLine c.envelope c.dateStr)).tail ++ cut (entryBytes F c))

theorem exists_cut_fromLine :
    ∃ first more, cut (fromLine e d) = first :: more ∧ separates first = true ∧
      newline ∉ first.dropLast := by
  have hne : fromLine e d ≠ [] := by simp [fromLine_eq]
  obtain ⟨first, rest, hfile, hline⟩ := exists_isLine hne
  refine ⟨first, cut rest, by rw [hfile, hline.cut_append], ?_, hline.inside⟩
  rw [separates_iff, ← hline.isPrefix_iff newline_notMem_fromMark, ← hfile, fromLine_eq,
    append_assoc]
  exact prefix_append _ _

theorem separates_block : separates (block F c).1 = true := by
  obtain ⟨first, more, hcut, hsep, -⟩ := exists_cut_fromLine (e := c.envelope) (d := c.dateStr)
  rwa [block, hcut, headD_cons]

theorem written_block :
    written (block F c) = cut (fromLine c.envelope c.dateStr ++ entryBytes F c) := by
  obtain ⟨first, more, hcut, -, -⟩ := exists_cut_fromLine (e := c.envelope) (d := c.dateStr)
  rw [cut_append fromLine_atLineStart, written, block, hcut]
  rfl

theorem cut_flatMap (copies : List Copy) :
    cut (copies.flatMap fun c => fromLine c.envelope c.dateStr ++ entryBytes F c) =
      (copies.map (block F)).flatMap written := by
  induction copies with
  | nil => rfl
  | cons c copies ih =>
    have hend : AtLineStart (fromLine c.envelope c.dateStr ++ entryBytes F c) := by
      right
      simp [entryBytes]
    rw [flatMap_cons, cut_append hend, ih, map_cons, flatMap_cons, written_block]

/-- The message stays one entry: no line of it is a separator, and neither the sender nor the
date ends the `From ` line. -/
def Framed (c : Copy) : Prop :=
  newline ∉ asBytes c.envelope.fromAddr ∧ ∀ line ∈ cut c.raw, separates line = false

instance (c : Copy) : Decidable (Framed c) := inferInstanceAs (Decidable (_ ∧ _))

theorem block_of_framed (hd : newline ∉ asBytes c.dateStr) (h : Framed c) :
    (block F c).2 = cut (entryBytes F c) := by
  have hline := ((fromLine_isLine_iff hd).mpr h.1).cut_append
  rw [append_nil, cut_nil] at hline
  rw [block, hline]
  rfl

theorem framed_of_block (hd : newline ∉ asBytes c.dateStr)
    (hbody : ∀ line ∈ (block F c).2, separates line = false)
    (hflat : (block F c).2.flatten = entryBytes F c) : Framed c := by
  obtain ⟨first, more, hcut, -, hinside⟩ := exists_cut_fromLine (e := c.envelope) (d := c.dateStr)
  rw [block, hcut, tail_cons] at hbody hflat
  rw [flatten_append, flatten_cut, append_left_eq_self] at hflat
  have hfirst : fromLine c.envelope c.dateStr = first := by
    rw [← flatten_cut (fromLine _ _), hcut, flatten_cons, hflat, append_nil]
  refine ⟨(fromLine_isLine_iff hd).mp ⟨by simp [fromLine_eq], hfirst ▸ hinside, .inl rfl⟩, ?_⟩
  exact forall_cut_entryBytes.mp fun line hline => hbody line (mem_append_right _ hline)

theorem mails_iff {copies : List Copy} (hdate : ∀ c ∈ copies, newline ∉ asBytes c.dateStr) :
    mails (copies.flatMap fun c => fromLine c.envelope c.dateStr ++ entryBytes F c) =
        copies.map (entryBytes F) ↔ ∀ c ∈ copies, Framed c := by
  have hsep : ∀ b ∈ copies.map (block F), separates b.1 = true := by
    intro b hb
    obtain ⟨c, -, rfl⟩ := mem_map.mp hb
    exact separates_block
  rw [mails, cut_flatMap]
  constructor
  · intro hmails
    have hlen := congrArg length hmails
    rw [length_map, length_map, ← length_map (block F)] at hlen
    have hbody := forall_of_length_frames hsep hlen
    rw [frames_flatMap hsep hbody, map_map, map_map, map_inj_left] at hmails
    exact fun c hc => framed_of_block (hdate c hc) (hbody _ (mem_map_of_mem hc)) (hmails c hc)
  · intro hframed
    have hblock : ∀ c ∈ copies, (block F c).2 = cut (entryBytes F c) := fun c hc =>
      block_of_framed (hdate c hc) (hframed c hc)
    have hbody : ∀ b ∈ copies.map (block F), ∀ line ∈ b.2, separates line = false := by
      intro b hb
      obtain ⟨c, hc, rfl⟩ := mem_map.mp hb
      rw [hblock c hc]
      exact forall_cut_entryBytes.mpr (hframed c hc).2
    rw [frames_flatMap hsep hbody, map_map, map_map, map_inj_left]
    intro c hc
    show (block F c).2.flatten = entryBytes F c
    rw [hblock c hc, flatten_cut]

end

/-- The artifact is read back as it was written: one entry per exported message, in their
order, with the metadata and the message as they were. -/
def ReadBack (F : Format) (s : ExportState) : Prop :=
  ∃ es, Yields (.new s.mbox) es ∧ es.length = s.exported ∧
    es.map Entry.data = s.copies.map fun c => header F c.envelope ++ c.raw ++ [newline, newline]

/-- The artifact of a run is read back exactly when every exported message is framed. -/
theorem framing_iff (F : Format) (W : World) (fuel : Nat) (ending : Ending) (s : ExportState)
    (hio : ∀ n, W.fault n = none) (hrun : runExportInner F W fuel = some (ending, s)) :
    ReadBack F s ↔ ∀ c ∈ s.copies, Framed c := by
  obtain ⟨hmbox, hdate, hexported⟩ := written_run hio hrun
  obtain ⟨es, hes, hdata⟩ := yields_mails s.mbox
  rw [hmbox] at hdata
  rw [← mails_iff hdate (F := F), ← hdata]
  constructor
  · rintro ⟨es', hes', -, hdata'⟩
    rw [hes.unique hes', hdata']
    rfl
  · intro h
    refine ⟨es, hes, ?_, h⟩
    rw [hexported, ← length_map Entry.data, h, length_map]

/-! ## One exported message -/

def sampleFormat : Format where
  date _ := some "Thu Jan  1 00:00:00 1970"
  metadata _ := "\x7b\x7d"
  manifestLine _ := []
  date_oneLine := by
    rintro t d h
    cases h
    decide +kernel

def sampleEnvelope : Envelope where
  id := "7"
  messageId := "m7"
  accountId := 1
  accountEmail := some "a@example.org"
  mailboxId := 2
  mailboxName := some "INBOX"
  uid := 3
  subject := "hi"
  fromAddr := "b@example.org"
  date := 0
  size := 20
  contentHash := "c7"
  tags := none

/-- A search that finds one message with the given text. -/
def sampleWorld (text : String) : World where
  reader _ _ := .ok (asBytes text)
  search _ := .ok ([sampleEnvelope], some 1)
  cancelled _ := false
  fault _ := none

theorem framing_iff_quoted : ∃ s,
    runExportInner sampleFormat (sampleWorld "Subject: hi\n\n>From here on\n") 1 =
        some (.finished, s) ∧ s.exported = 1 ∧ ReadBack sampleFormat s := by
  obtain ⟨⟨_, s⟩, hrun, rfl, hexported, hframed⟩ :
      ∃ p ∈ runExportInner sampleFormat (sampleWorld "Subject: hi\n\n>From here on\n") 1,
        p.1 = .finished ∧ p.2.exported = 1 ∧ ∀ c ∈ p.2.copies, Framed c := by decide +kernel
  exact ⟨s, hrun, hexported, (framing_iff _ _ 1 _ s (fun _ => rfl) hrun).mpr hframed⟩

/-- A message of which a line begins with `From ` comes back as two entries. -/
theorem from_line_splits_message : ∃ s es,
    runExportInner sampleFormat (sampleWorld "Subject: hi\n\nFrom here on\n") 1 =
        some (.finished, s) ∧ s.exported = 1 ∧ Yields (.new s.mbox) es ∧ es.length = 2 ∧
      ¬ ReadBack sampleFormat s := by
  obtain ⟨⟨_, s⟩, hrun, rfl, hexported, hmails⟩ :
      ∃ p ∈ runExportInner sampleFormat (sampleWorld "Subject: hi\n\nFrom here on\n") 1,
        p.1 = .finished ∧ p.2.exported = 1 ∧ (mails p.2.mbox).length = 2 := by decide +kernel
  change s.exported = 1 at hexported
  obtain ⟨es, hes, hdata⟩ := yields_mails s.mbox
  have hlen : es.length = 2 := by rw [← length_map Entry.data, hdata, hmails]
  refine ⟨s, es, hrun, hexported, hes, hlen, ?_⟩
  rintro ⟨es', hes', hlen', -⟩
  rw [hes'.unique hes] at hlen'
  omega

end Bichon.Mbox
