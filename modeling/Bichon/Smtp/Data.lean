import Bichon.Lib.Lists
import Bichon.Smtp.Server

/-!
# The message behind `DATA`

A client sends a message line by line, with a dot more in front of a line that begins with
one, and a line with a single dot behind it. `read_data` cuts what it reads at line feeds,
takes a line for the last one when nothing but white space is around its dot, takes the end
of the stream for the end of the message, and gives up at a line that is not UTF-8 and when
it has read too much.

`readData_eq_ok_iff` says which messages arrive as they were sent. A message that does not may
leave lines of it in the stream, for the reader of the commands (`in_step_iff`).
-/

namespace Bichon.Smtp

open Account ByteFile Lines Texts Utf8 List Lists

/-! ## What a client sends -/

def dot : UInt8 := 46

def crlf : Bytes := [13, newline]

/-- A line as it is sent. -/
def stuff (line : Bytes) : Bytes := if line.head? = some dot then dot :: line else line

def message (lines : List Bytes) : Bytes := lines.flatMap (· ++ crlf)

/-- The message as it is sent, without its terminator. -/
def stuffed (lines : List Bytes) : Bytes := message (lines.map stuff)

def terminator : Bytes := dot :: crlf

/-! ## What the server reads -/

def isUtf8 (bytes : Bytes) : Bool := (decode bytes).isSome

/-- The line ends the message. -/
def readsAsDot (bytes : Bytes) : Bool := (decode bytes).any fun line => trim line = ['.']

/-- The line begins with two dots. -/
def TwoDots (bytes : Bytes) : Prop := [dot, dot] <+: bytes

instance : DecidablePred TwoDots := fun bytes => inferInstanceAs (Decidable (_ <+: bytes))

/-- The data of a line that does not end the message. -/
def dropDot (bytes : Bytes) : Bytes := if TwoDots bytes then bytes.tail else bytes

/-- Why a line is not read. -/
def readError (ends : StreamEnd) (bytes : Bytes) : Option IoError :=
  (if bytes.getLast? = some newline then none else ends.error? dataTimeout).or
    (if isUtf8 bytes then none else some notUtf8)

theorem encodeChar_dot : String.utf8EncodeChar '.' = [dot] := rfl

theorem twoDots_encode_iff {line : Text} : TwoDots (encode line) ↔ "..".toList <+: line := by
  have htext : "..".toList = ['.', '.'] := rfl
  constructor
  · rintro ⟨rest, hrest⟩
    have hdecode := decode_encode line
    rw [← hrest, cons_append, singleton_append, ← singleton_append,
      ← encodeChar_dot, decode_encodeChar_append] at hdecode
    obtain ⟨text, htext, rfl⟩ := Option.map_eq_some_iff.mp hdecode
    rw [← singleton_append, ← encodeChar_dot, decode_encodeChar_append] at htext
    obtain ⟨text', -, rfl⟩ := Option.map_eq_some_iff.mp htext
    exact ⟨text', rfl⟩
  · rintro ⟨rest, rfl⟩
    exact ⟨encode rest, rfl⟩

theorem encode_unstuff {bytes : Bytes} {line : Text} (h : decode bytes = some line) :
    encode (unstuff line) = dropDot bytes := by
  rw [decode_eq_some_iff] at h
  subst h
  rw [unstuff, dropDot]
  by_cases hdots : "..".toList <+: line
  · obtain ⟨rest, rfl⟩ := hdots
    rfl
  · rw [if_neg hdots, if_neg (mt twoDots_encode_iff.mp hdots)]

theorem readDataFrom_cons (ends : StreamEnd) (bytes : Bytes) (rest : List Bytes) (total : Nat)
    (data : Bytes) :
    readDataFrom ends (bytes :: rest) total data =
      match readError ends bytes with
      | some e => (.error e, ⟨rest, ends⟩)
      | none =>
        if maxMailSize < total + bytes.length then (.error tooLarge, ⟨rest, ends⟩)
        else if readsAsDot bytes then (.ok data, ⟨rest, ends⟩)
        else readDataFrom ends rest (total + bytes.length) (data ++ dropDot bytes) := by
  rw [readDataFrom, readError, lineText]
  cases hread : if bytes.getLast? = some newline then none else ends.error? dataTimeout with
  | some e => rfl
  | none =>
    cases hline : decode bytes with
    | none => simp [isUtf8, hline]
    | some line => simp [isUtf8, readsAsDot, hline, encode_unstuff hline]

theorem readError_of_finished {bytes : Bytes} (ends : StreamEnd)
    (h : bytes.getLast? = some newline) :
    readError ends bytes = if isUtf8 bytes then none else some notUtf8 := by
  rw [readError, if_pos h, Option.none_or]

theorem readDataFrom_terminator (ends : StreamEnd) (rest : List Bytes) (total : Nat)
    (data : Bytes) :
    readDataFrom ends (terminator :: rest) total data =
      if maxMailSize < total + terminator.length then (.error tooLarge, ⟨rest, ends⟩)
      else (.ok data, ⟨rest, ends⟩) := by
  rfl

/-! ## Messages that arrive as they were sent -/

theorem more_ne_rest (lines rest : List Bytes) (ends : StreamEnd) :
    (⟨lines ++ terminator :: rest, ends⟩ : Input) ≠ ⟨rest, ends⟩ := by
  intro h
  have hlen := congrArg length (Input.mk.inj h).1
  rw [length_append, length_cons] at hlen
  omega

theorem readDataFrom_eq_ok_iff {lines rest : List Bytes} {ends : StreamEnd} {total : Nat}
    {data out : Bytes} (hfinished : ∀ l ∈ lines, l.getLast? = some newline) :
    readDataFrom ends (lines ++ terminator :: rest) total data = (.ok out, ⟨rest, ends⟩) ↔
      (∀ l ∈ lines, isUtf8 l = true ∧ readsAsDot l = false) ∧
        total + lines.flatten.length + terminator.length ≤ maxMailSize ∧
          out = data ++ lines.flatMap dropDot := by
  induction lines generalizing total data with
  | nil =>
    rw [nil_append, readDataFrom_terminator]
    split
    · simp only [Prod.mk.injEq, reduceCtorEq, false_and, flatten_nil, length_nil,
        Nat.add_zero, false_iff]
      rintro ⟨-, hle, -⟩
      omega
    · simp only [Prod.mk.injEq, Except.ok.injEq, and_true, not_mem_nil, false_implies,
        implies_true, flatten_nil, length_nil, Nat.add_zero, flatMap_nil,
        append_nil, true_and]
      exact ⟨fun h => ⟨by omega, h.symm⟩, fun h => h.2.symm⟩
  | cons l lines ih =>
    rw [forall_mem_cons] at hfinished
    rw [cons_append, readDataFrom_cons, readError_of_finished ends hfinished.1,
      forall_mem_cons]
    have hmore := more_ne_rest lines rest ends
    by_cases hutf8 : isUtf8 l = true
    · rw [if_pos hutf8]
      dsimp only
      split
      · simp only [Prod.mk.injEq, reduceCtorEq, false_and, flatten_cons, length_append,
          false_iff]
        rintro ⟨-, hle, -⟩
        omega
      · split
        next hdot =>
          simp only [Prod.mk.injEq, hmore, and_false, hdot, Bool.true_eq_false, false_and]
        next hdot =>
          rw [ih hfinished.2, flatten_cons, length_append, flatMap_cons,
            append_assoc]
          simp only [hutf8, Bool.not_eq_true] at hdot ⊢
          simp only [hdot, true_and, Nat.add_assoc, and_self]
    · rw [if_neg hutf8]
      simp only [Prod.mk.injEq, reduceCtorEq, false_and, hutf8]

theorem atLineStart_message (lines : List Bytes) : AtLineStart (message lines) := by
  induction lines using reverseRecOn with
  | nil => exact .inl rfl
  | append_singleton lines l ih =>
    refine .inr ?_
    simp [message, crlf]

theorem cut_message (lines : List Bytes) :
    cut (message lines) = lines.flatMap fun l => cut (l ++ crlf) := by
  induction lines with
  | nil => rfl
  | cons l lines ih =>
    have hstart : AtLineStart (l ++ crlf) := by
      refine .inr ?_
      simp [crlf]
    rw [message, flatMap_cons, cut_append hstart, flatMap_cons, ← ih]
    rfl

theorem ofBytes_stuffed (lines : List Bytes) (rest : Bytes) (ends : StreamEnd) :
    Input.ofBytes (stuffed lines ++ terminator ++ rest) ends =
      ⟨cut (stuffed lines) ++ terminator :: cut rest, ends⟩ := by
  have hstart : AtLineStart (stuffed lines) := atLineStart_message _
  rw [Input.ofBytes, append_assoc, cut_append hstart, cut_append (.inr rfl)]
  rfl

theorem length_dropDot_le (bytes : Bytes) : (dropDot bytes).length ≤ bytes.length := by
  rw [dropDot]
  split
  · rw [length_tail]
    exact Nat.sub_le _ _
  · exact Nat.le_refl _

theorem dropDot_eq_self_iff {bytes : Bytes} : dropDot bytes = bytes ↔ ¬ TwoDots bytes := by
  rw [dropDot]
  constructor
  · rintro h ⟨rest, rfl⟩
    exact absurd (congrArg length h) (Nat.ne_of_lt (Nat.lt_succ_self _))
  · intro h
    rw [if_neg h]

theorem exists_cut_crlf (line : Bytes) : ∃ first others, cut (line ++ crlf) = first :: others ∧
    first ++ others.flatten = line ++ crlf ∧ (first.head? = (line ++ crlf).head?) := by
  have hflat := flatten_cut (line ++ crlf)
  cases hcut : cut (line ++ crlf) with
  | nil =>
    rw [hcut] at hflat
    simp [crlf] at hflat
  | cons first others =>
    rw [hcut, flatten_cons] at hflat
    refine ⟨first, others, rfl, hflat, ?_⟩
    cases first with
    | nil =>
      have hmem : ([] : Bytes) ∈ cut (line ++ crlf) := by rw [hcut]; exact mem_cons_self
      have hlast := getLast?_of_mem_cut (.inr (by simp [crlf])) hmem
      simp at hlast
    | cons b first => rw [← hflat]; rfl

theorem flatMap_dropDot_stuff {line first : Bytes} {others : List Bytes}
    (hcut : cut (line ++ crlf) = first :: others) (hhead : first.head? = (line ++ crlf).head?) :
    (cut (stuff line ++ crlf)).flatMap dropDot = first ++ others.flatMap dropDot := by
  rw [stuff]
  split
  next hdot =>
    have hstuffed : cut (dot :: (line ++ crlf)) = (dot :: first) :: others := by
      rw [cut, if_neg (by decide), hcut]
    rw [head?_append, hdot, Option.some_or] at hhead
    obtain ⟨first', rfl⟩ := head?_eq_some_iff.mp hhead
    rw [cons_append, hstuffed, flatMap_cons, dropDot, if_pos ⟨first', rfl⟩,
      tail_cons]
  next hdot =>
    have hplain : ¬ TwoDots first := by
      rintro ⟨rest, rfl⟩
      cases line with
      | nil => exact absurd (Option.some.inj hhead) (by decide)
      | cons b line => exact hdot hhead.symm
    rw [hcut, flatMap_cons, dropDot_eq_self_iff.mpr hplain]

/-- The data of one line of the message. The line feeds inside of it begin lines that the
client has not stuffed. -/
theorem flatMap_dropDot_stuff_eq_iff (line : Bytes) :
    (cut (stuff line ++ crlf)).flatMap dropDot = line ++ crlf ↔
      ∀ l ∈ (cut (line ++ crlf)).tail, ¬ TwoDots l := by
  obtain ⟨first, others, hcut, hflat, hhead⟩ := exists_cut_crlf line
  have hothers := flatMap_eq_flatMap_iff (f := dropDot) (g := id) (l := others) fun l _ =>
    length_dropDot_le l
  rw [flatMap_dropDot_stuff hcut hhead, hcut, tail_cons, ← hflat, append_cancel_left_eq,
    ← flatMap_id, hothers]
  exact forall₂_congr fun l _ => dropDot_eq_self_iff

theorem length_flatMap_dropDot_stuff_le (line : Bytes) :
    ((cut (stuff line ++ crlf)).flatMap dropDot).length ≤ (line ++ crlf).length := by
  obtain ⟨first, others, hcut, hflat, hhead⟩ := exists_cut_crlf line
  rw [flatMap_dropDot_stuff hcut hhead, ← hflat, length_append, length_append,
    length_flatMap, length_flatten]
  exact Nat.add_le_add_left (sum_le_sum fun l _ => length_dropDot_le l) _

theorem flatMap_dropDot_stuffed_eq_iff (lines : List Bytes) :
    (cut (stuffed lines)).flatMap dropDot = message lines ↔
      ∀ line ∈ lines, ∀ l ∈ (cut (line ++ crlf)).tail, ¬ TwoDots l := by
  have hlines := flatMap_eq_flatMap_iff
    (f := fun line => (cut (stuff line ++ crlf)).flatMap dropDot) (g := (· ++ crlf)) (l := lines)
    fun line _ => length_flatMap_dropDot_stuff_le line
  rw [stuffed, cut_message, flatMap_map, flatMap_assoc, message, hlines]
  exact forall₂_congr fun line _ => flatMap_dropDot_stuff_eq_iff line

/-- The messages that arrive as they were sent. A line is UTF-8 and does not read as a single
dot, also where the message has a line feed inside of a line, and the terminator fits into the
limit. -/
structure Carried (lines : List Bytes) : Prop where
  size : (stuffed lines).length + terminator.length ≤ maxMailSize
  text : ∀ l ∈ cut (stuffed lines), isUtf8 l = true ∧ readsAsDot l = false
  inner : ∀ line ∈ lines, ∀ l ∈ (cut (line ++ crlf)).tail, ¬ TwoDots l

theorem readData_eq_ok_iff (lines : List Bytes) (rest : Bytes) (ends : StreamEnd) :
    readData (.ofBytes (stuffed lines ++ terminator ++ rest) ends) =
        (.ok (message lines), .ofBytes rest ends) ↔ Carried lines := by
  have hfinished : ∀ l ∈ cut (stuffed lines), l.getLast? = some newline := fun l hl =>
    getLast?_of_mem_cut (atLineStart_message _) hl
  rw [ofBytes_stuffed, readData, Input.ofBytes, readDataFrom_eq_ok_iff hfinished, flatten_cut,
    Nat.zero_add, nil_append, eq_comm (a := message lines), flatMap_dropDot_stuffed_eq_iff]
  exact ⟨fun ⟨htext, hsize, hinner⟩ => ⟨hsize, htext, hinner⟩,
    fun h => ⟨h.text, h.size, h.inner⟩⟩

/-! ## Messages that are cut off -/

/-- Behind `total` bytes, the stream ends or a line reads as a single dot, and up to there
all is well. -/
def Complete (ends : StreamEnd) (total : Nat) (lines : List Bytes) : Prop :=
  ∃ body others, lines = body ++ others ∧
    (∀ l ∈ body, readError ends l = none ∧ readsAsDot l = false) ∧
      ((others = [] ∧ ends = .eof ∧ total + body.flatten.length ≤ maxMailSize) ∨
        ∃ last rest, others = last :: rest ∧ readError ends last = none ∧ readsAsDot last = true ∧
          total + body.flatten.length + last.length ≤ maxMailSize)

theorem complete_nil_iff {ends : StreamEnd} {total : Nat} (htotal : total ≤ maxMailSize) :
    Complete ends total [] ↔ ends = .eof := by
  constructor
  · rintro ⟨body, others, hlines, -, ⟨-, hends, -⟩ | ⟨last, rest, rfl, -⟩⟩
    · exact hends
    · exact absurd hlines.symm (by simp)
  · rintro rfl
    exact ⟨[], [], rfl, by simp, .inl ⟨rfl, rfl, htotal⟩⟩

theorem complete_cons_iff {ends : StreamEnd} {total : Nat} {l : Bytes} {lines : List Bytes} :
    Complete ends total (l :: lines) ↔ readError ends l = none ∧ total + l.length ≤ maxMailSize ∧
      (readsAsDot l = true ∨ Complete ends (total + l.length) lines) := by
  constructor
  · rintro ⟨body, others, hlines, hbody, hend⟩
    cases body with
    | nil =>
      rcases hend with ⟨rfl, -⟩ | ⟨last, rest, rfl, hread, hdot, hsize⟩
      · exact absurd hlines (by simp)
      · rw [nil_append, cons.injEq] at hlines
        rw [hlines.1]
        exact ⟨hread, hsize, .inl hdot⟩
    | cons l' body =>
      obtain ⟨rfl, rfl⟩ := hlines
      rw [forall_mem_cons] at hbody
      rw [flatten_cons, length_append, ← Nat.add_assoc] at hend
      refine ⟨hbody.1.1, ?_, .inr ⟨body, others, rfl, hbody.2, hend⟩⟩
      rcases hend with ⟨-, -, hsize⟩ | ⟨last, rest, -, -, -, hsize⟩ <;> omega
  · rintro ⟨hread, hsize, hdot | ⟨body, others, rfl, hbody, hend⟩⟩
    · exact ⟨[], l :: lines, rfl, by simp, .inr ⟨l, lines, rfl, hread, hdot, hsize⟩⟩
    · by_cases hdot : readsAsDot l = true
      · exact ⟨[], l :: (body ++ others), rfl, by simp, .inr ⟨l, _, rfl, hread, hdot, hsize⟩⟩
      · refine ⟨l :: body, others, rfl, ?_, ?_⟩
        · rw [forall_mem_cons]
          exact ⟨⟨hread, by simpa using hdot⟩, hbody⟩
        · rwa [flatten_cons, length_append, ← Nat.add_assoc]

theorem readDataFrom_ok_iff {ends : StreamEnd} {lines : List Bytes} {total : Nat} {data : Bytes}
    (htotal : total ≤ maxMailSize) :
    (∃ out rest, readDataFrom ends lines total data = (.ok out, rest)) ↔
      Complete ends total lines := by
  induction lines generalizing total data with
  | nil =>
    rw [complete_nil_iff htotal, readDataFrom]
    cases ends <;> simp [StreamEnd.error?]
  | cons l lines ih =>
    rw [complete_cons_iff, readDataFrom_cons]
    cases hread : readError ends l with
    | some e => simp
    | none =>
      dsimp only
      split
      next hsize =>
        have hnot : ¬ total + l.length ≤ maxMailSize := by omega
        simp [hnot]
      next hsize =>
        have hle : total + l.length ≤ maxMailSize := by omega
        split
        next hdot => simp [hdot, hle]
        next hdot => rw [ih hle]; simp [hdot, hle]

/-- A message is handed to the archive. -/
def Event.handsOver : Event → Bool
  | .delivered _ _ _ | .ingested _ => true
  | _ => false

theorem not_handsOver_of_error {W : World} {session : Session} {input rest : Input} {e : IoError}
    (h : readData input = (.error e, rest)) :
    ∀ event ∈ (receiveMessage W session input).1.events, event.handsOver = false := by
  rw [receiveMessage, h]
  dsimp only
  split
  · simp [Session.answer, Event.handsOver]
  · simp

theorem ingested_of_ok {W : World} {session : Session} {input rest : Input} {data : Bytes}
    (hjournal : session.journal = true) (h : readData input = (.ok data, rest)) :
    Event.ingested data ∈ (receiveMessage W session input).1.events := by
  rw [receiveMessage, h]
  dsimp only
  rw [archive, if_pos hjournal]
  cases W.journalIngest data <;> simp

/-- A journal delivery, for the samples. -/
def journalSession : Session where
  mailFrom := some []
  authRequired := false
  tlsActive := false
  peerIp := none
  journal := true

/-- `DATA` is exact for the messages of `Carried` and for no others, and an input is handed to
the archive unless it is not `Complete`. -/
theorem data_exact_iff (lines : List Bytes) (rest bytes : Bytes) (ends : StreamEnd) :
    (readData (.ofBytes (stuffed lines ++ terminator ++ rest) ends) =
        (.ok (message lines), .ofBytes rest ends) ↔ Carried lines) ∧
      ((∀ W session, ∀ event ∈ (receiveMessage W session (.ofBytes bytes ends)).1.events,
        event.handsOver = false) ↔ ¬ Complete ends 0 (cut bytes)) := by
  refine ⟨readData_eq_ok_iff lines rest ends, ?_⟩
  rw [← @readDataFrom_ok_iff ends (cut bytes) 0 [] (Nat.zero_le _)]
  constructor
  · rintro h ⟨data, rest, hread⟩
    have hok : readData (.ofBytes bytes ends) = (.ok data, rest) := hread
    have hjournal : .ingested data ∈
        (receiveMessage emptyWorld journalSession (.ofBytes bytes ends)).1.events :=
      ingested_of_ok rfl hok
    exact absurd (h _ _ _ hjournal) (by simp [Event.handsOver])
  · intro h W session
    cases hread : readData (.ofBytes bytes ends) with
    | mk result rest =>
      cases result with
      | error e => exact not_handsOver_of_error hread
      | ok data => exact absurd ⟨data, rest, hread⟩ h

/-- A line with a blank in front of its dot ends the message, and so does the end of the
stream. -/
theorem data_cut_short :
    (stuffed [[32, dot]]).length ≤ maxMailSize ∧
      readData (.ofBytes (stuffed [[32, dot]] ++ terminator) .eof) ≠
        (.ok (message [[32, dot]]), .ofBytes [] .eof) ∧
      ¬ terminator <:+: ([97] ++ crlf) ∧
      Event.ingested ([97] ++ crlf) ∈
        (receiveMessage emptyWorld journalSession (.ofBytes ([97] ++ crlf) .eof)).1.events := by
  refine ⟨by decide, ?_, by decide, ingested_of_ok rfl (show _ = (_, ⟨[], .eof⟩) from ?_)⟩
  · decide +kernel
  · decide +kernel

/-! ## The stream behind a message -/

/-- Up to the first line that is not UTF-8, no line of the message reads as a single dot, and
the lines fit into the limit. -/
structure InStep (lines : List Bytes) : Prop where
  size : ((cut (stuffed lines)).takeWhile isUtf8).flatten.length ≤ maxMailSize
  text : ∀ l ∈ (cut (stuffed lines)).takeWhile isUtf8, readsAsDot l = false

/-- The reader stops with an error that ends the session. -/
def Ends (result : Except IoError Bytes) : Prop :=
  ∃ e, result = .error e ∧ ¬ "552".toList <:+: e.text

theorem not_ends_ok (data : Bytes) : ¬ Ends (.ok data) := by
  rintro ⟨e, h, -⟩
  cases h

theorem ends_error_iff {e : IoError} : Ends (.error e) ↔ ¬ "552".toList <:+: e.text := by
  simp [Ends]

theorem not_ends_tooLarge : ¬ Ends (.error tooLarge) := fun h => ends_error_iff.mp h (by decide)

theorem ends_notUtf8 : Ends (.error notUtf8) := ends_error_iff.mpr (by decide)

theorem readDataFrom_in_step_iff {lines rest : List Bytes} {ends : StreamEnd} {total : Nat}
    {data : Bytes} (hfinished : ∀ l ∈ lines, l.getLast? = some newline)
    (htotal : total ≤ maxMailSize) :
    (Ends (readDataFrom ends (lines ++ terminator :: rest) total data).1 ∨
        (readDataFrom ends (lines ++ terminator :: rest) total data).2 = ⟨rest, ends⟩) ↔
      total + (lines.takeWhile isUtf8).flatten.length ≤ maxMailSize ∧
        ∀ l ∈ lines.takeWhile isUtf8, readsAsDot l = false := by
  induction lines generalizing total data with
  | nil =>
    rw [nil_append, readDataFrom_terminator]
    split <;> simp [htotal]
  | cons l lines ih =>
    rw [forall_mem_cons] at hfinished
    rw [cons_append, readDataFrom_cons, readError_of_finished ends hfinished.1]
    have hmore := more_ne_rest lines rest ends
    by_cases hutf8 : isUtf8 l = true
    · rw [if_pos hutf8, takeWhile_cons_of_pos hutf8, forall_mem_cons, flatten_cons,
        length_append]
      dsimp only
      split
      next hsize =>
        have hnot :
            ¬ total + (l.length + (lines.takeWhile isUtf8).flatten.length) ≤ maxMailSize := by
          omega
        simp only [hnot, hmore, not_ends_tooLarge, or_self, false_and]
      next hsize =>
        split
        next hdot => simp [hdot, hmore, not_ends_ok]
        next hdot =>
          rw [ih hfinished.2 (by omega), Nat.add_assoc]
          simp [hdot]
    · rw [if_neg hutf8, takeWhile_cons_of_neg hutf8]
      simp [htotal, ends_notUtf8]

/-- The session ends with the reader's error, and goes on behind what was read. -/
theorem ends_receiveMessage (W : World) (session : Session) (input : Input) :
    ((∃ f, (receiveMessage W session input).1.result = .error f) ↔ Ends (readData input).1) ∧
      (receiveMessage W session input).2 = (readData input).2 := by
  rw [receiveMessage]
  cases readData input with
  | mk result rest =>
    cases result with
    | error e =>
      dsimp only
      split
      next h => exact ⟨iff_of_false (by rintro ⟨_, ⟨⟩⟩) fun he => ends_error_iff.mp he h, rfl⟩
      next h => exact ⟨iff_of_true ⟨_, rfl⟩ (ends_error_iff.mpr h), rfl⟩
    | ok data =>
      dsimp only
      cases archive W session data with
      | mk events ok => cases ok <;> simp [not_ends_ok]

/-- The next line that is read as a command is the one behind the terminator, or the session
ends, for the messages of `InStep` and for no others. -/
theorem in_step_iff (W : World) (session : Session) (lines : List Bytes) (rest : Bytes)
    (ends : StreamEnd) :
    ((∃ f, (receiveMessage W session
          (.ofBytes (stuffed lines ++ terminator ++ rest) ends)).1.result = .error f) ∨
        (receiveMessage W session (.ofBytes (stuffed lines ++ terminator ++ rest) ends)).2 =
          .ofBytes rest ends) ↔ InStep lines := by
  have hfinished : ∀ l ∈ cut (stuffed lines), l.getLast? = some newline := fun l hl =>
    getLast?_of_mem_cut (atLineStart_message _) hl
  rw [(ends_receiveMessage ..).1, (ends_receiveMessage ..).2, ofBytes_stuffed, readData,
    Input.ofBytes, readDataFrom_in_step_iff hfinished (Nat.zero_le _), Nat.zero_add]
  exact ⟨fun ⟨hsize, htext⟩ => ⟨hsize, htext⟩, fun h => ⟨h.size, h.text⟩⟩

/-- The line `RSET` of a message is executed. -/
theorem content_is_executed :
    (receiveMessage emptyWorld journalSession
        (.ofBytes (stuffed [[32, dot], encode "RSET".toList] ++ terminator) .eof)).2.lines.head? =
      some (encode "RSET".toList ++ crlf) := by
  decide +kernel

end Bichon.Smtp
