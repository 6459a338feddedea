import Bichon.Lib.Utf8
import Bichon.MemDb.Db

/-!
# A log that was truncated

The log is the lines of its entries, cut after some number of bytes. Whole lines are read
back. What is left of the line at the cut is looked at twice: as UTF-8 by the reader of
the lines, which fails, and as an entry by the decoder, whose failure is skipped. So a
cut is harmless exactly when it does not split a character (`truncated_log_iff`).
-/

namespace Bichon.MemDb

open ByteFile Lines List

variable {V : Type}

namespace Json

variable (json : Json V)

/-- A text of which the end is missing is not decoded. -/
def Indivisible (e : WalEntry V) : Prop :=
  ∀ n < (json.entryToString e).length,
    json.entryFromStr (json.trim ((json.entryToString e).take n)) = none

instance [DecidableEq V] (e : WalEntry V) : Decidable (json.Indivisible e) :=
  (inferInstance : Decidable (∀ n < (json.entryToString e).length,
    json.entryFromStr (json.trim ((json.entryToString e).take n)) = none))

def logOf (es : List (WalEntry V)) : Bytes := es.flatMap json.line

/-- The entries whose text lies in the first bytes of the log. -/
def completeIn : List (WalEntry V) → Nat → List (WalEntry V)
  | [], _ => []
  | e :: es, n =>
    if (json.entryToString e).length ≤ n then e :: completeIn es (n - (json.line e).length)
    else []

/-- What stands behind the last line feed of the first bytes of the log. -/
def lastPart : List (WalEntry V) → Nat → Bytes
  | [], _ => []
  | e :: es, n =>
    if (json.line e).length ≤ n then lastPart es (n - (json.line e).length)
    else (json.entryToString e).take n

theorem length_line (e : WalEntry V) :
    (json.line e).length = (json.entryToString e).length + 1 := by
  simp [line]

theorem logOf_cons (e : WalEntry V) (es : List (WalEntry V)) :
    json.logOf (e :: es) = json.line e ++ json.logOf es := rfl

end Json

variable {json : Json V}

theorem completeIn_zero {es : List (WalEntry V)} (h : ∀ e ∈ es, json.Keeps e) :
    json.completeIn es 0 = [] := by
  cases es with
  | nil => rfl
  | cons e es =>
    have hne : ¬ (json.entryToString e).length ≤ 0 := fun hle =>
      (h e mem_cons_self).ne_nil (eq_nil_of_length_eq_zero (Nat.le_zero.mp hle))
    rw [Json.completeIn, if_neg hne]

theorem readAfter_lines_take {e : WalEntry V} (hkeeps : json.Keeps e)
    (hpart : json.Indivisible e) (hnil : json.utf8 [] = true) {n : Nat}
    (hn : n ≤ (json.entryToString e).length) (afterSeq : Nat) :
    readAfter json afterSeq (lines ((json.entryToString e).take n)) =
      if json.utf8 ((json.entryToString e).take n) then
        .ok ((if (json.entryToString e).length ≤ n then [e] else []).filter (afterSeq < ·.seq))
      else .error .io := by
  have honeLine : newline ∉ (json.entryToString e).take n :=
    fun hmem => hkeeps.oneLine (mem_of_mem_take hmem)
  rcases Nat.eq_zero_or_pos n with rfl | hpos
  · have hne : ¬ (json.entryToString e).length ≤ 0 := fun hle =>
      hkeeps.ne_nil (eq_nil_of_length_eq_zero (Nat.le_zero.mp hle))
    rw [take_zero, hnil, if_pos rfl, if_neg hne]
    rfl
  · have hcut : (json.entryToString e).take n ≠ [] := by
      intro h
      rw [take_eq_nil_iff] at h
      rcases h with h | h
      · omega
      · exact hkeeps.ne_nil h
    rw [lines_of_notMem honeLine hcut, readAfter, readAfter]
    rcases Nat.lt_or_ge n (json.entryToString e).length with hlt | hge
    · rw [readLine, hpart n hlt, if_neg (Nat.not_le.mpr hlt)]
      cases json.utf8 ((json.entryToString e).take n) with
      | false => rfl
      | true =>
        rw [if_pos rfl, if_pos rfl, ite_self]
        rfl
    · rw [take_of_length_le hge, readLine_entryToString hkeeps, if_pos hkeeps.utf8,
        if_pos hge]
      by_cases hseq : afterSeq < e.seq
      · simp [hseq]
      · simp [hseq]

theorem readAfter_lines_logOf {es : List (WalEntry V)}
    (h : ∀ e ∈ es, json.Keeps e ∧ json.Indivisible e) (hnil : json.utf8 [] = true)
    (n afterSeq : Nat) :
    readAfter json afterSeq (lines ((json.logOf es).take n)) =
      if json.utf8 (json.lastPart es n) then
        .ok ((json.completeIn es n).filter (afterSeq < ·.seq))
      else .error .io := by
  induction es generalizing n with
  | nil =>
    rw [Json.logOf, flatMap_nil, take_nil, Json.lastPart, if_pos hnil]
    rfl
  | cons e es ih =>
    rw [forall_mem_cons] at h
    have hlen := json.length_line e
    rw [Json.logOf_cons, Json.lastPart, Json.completeIn]
    by_cases hn : (json.line e).length ≤ n
    · -- the whole line is there, and the rest of the log is read behind it
      have htake : (json.line e ++ json.logOf es).take n =
          json.entryToString e ++ newline :: (json.logOf es).take (n - (json.line e).length) := by
        rw [take_append, take_of_length_le hn, Json.line, append_assoc]
        rfl
      have htext : (json.entryToString e).length ≤ n := by omega
      rw [htake, lines_append_newline h.1.1.oneLine, readAfter,
        readLine_entryToString h.1.1, ih h.2, if_pos hn, if_pos htext]
      cases json.utf8 (json.lastPart es (n - (json.line e).length)) with
      | false => rfl
      | true =>
        by_cases hseq : afterSeq < e.seq
        · simp [hseq]
        · simp [hseq]
    · -- the log ends in this line
      have htake : (json.line e ++ json.logOf es).take n = (json.entryToString e).take n := by
        rw [take_append_of_le_length (by omega), Json.line,
          take_append_of_le_length (by omega)]
      have hnone : json.completeIn es (n - (json.line e).length) = [] := by
        rw [Nat.sub_eq_zero_of_le (by omega)]
        exact completeIn_zero fun f hf => (h.2 f hf).1
      rw [htake, if_neg hn, hnone]
      exact readAfter_lines_take h.1.1 h.1.2 hnil (by omega) afterSeq

theorem openWith_eq_ok_iff {files : FileSystem SnapName} {snapshot : Snapshot V}
    (hsnapshot : readSnapshot json files = .ok snapshot) (wal : Bytes) (d : Durability) :
    (∃ inner, openWith json files wal d = .ok inner) ↔
      ∃ es, readAfter json snapshot.lastSeq (lines wal) = .ok es := by
  rw [openWith, replayed, hsnapshot]
  simp only [Except.bind]
  cases readAfter json snapshot.lastSeq (lines wal) with
  | error | ok => simp [Except.map]

/-- The complete entries of a truncated log are read, and the database is opened, if and
only if the cut does not split a character. -/
theorem truncated_log_iff {es : List (WalEntry V)} (h : ∀ e ∈ es, json.Keeps e ∧ json.Indivisible e)
    (hutf8 : ∀ bytes, json.utf8 bytes = (Utf8.decode bytes).isSome) (n afterSeq : Nat)
    {files : FileSystem SnapName} {snapshot : Snapshot V}
    (hsnapshot : readSnapshot json files = .ok snapshot) (d : Durability) :
    (readAfter json afterSeq (lines ((json.logOf es).take n)) =
        .ok ((json.completeIn es n).filter (afterSeq < ·.seq)) ↔
      ∃ text, Utf8.encode text = json.lastPart es n) ∧
    ((∃ inner, openWith json files ((json.logOf es).take n) d = .ok inner) ↔
      ∃ text, Utf8.encode text = json.lastPart es n) := by
  have hnil : json.utf8 [] = true := by
    rw [hutf8, show ([] : Bytes) = Utf8.encode [] from rfl, Utf8.decode_encode]
    rfl
  have htext : (∃ text, Utf8.encode text = json.lastPart es n) ↔
      json.utf8 (json.lastPart es n) = true := by
    rw [hutf8, Option.isSome_iff_exists]
    exact exists_congr fun text => Utf8.decode_eq_some_iff.symm
  rw [openWith_eq_ok_iff hsnapshot, htext, readAfter_lines_logOf h hnil,
    readAfter_lines_logOf h hnil]
  cases json.utf8 (json.lastPart es n) with
  | false | true => simp

/-! ### A key with an umlaut -/

/-- The commit that sets the record `ü` of the collection `c` to 1. -/
def umlautEntry : WalEntry Nat := ⟨1, [.upsert "c" "ü" 1]⟩

def umlautText : Bytes :=
  Utf8.encode ("\x7b\"seq\":1,\"ops\":[\x7b\"op\":\"Upsert\",\"collection\":\"c\"," ++
    "\"key\":\"ü\",\"value\":1\x7d]\x7d").toList

/-- What `serde_json` does on this text. -/
def umlautJson : Json Nat where
  entryToString e := if e = umlautEntry then umlautText else []
  entryFromStr bs := if bs = umlautText then some umlautEntry else none
  snapshotToVec _ := []
  snapshotFromSlice _ := none
  utf8 bs := (Utf8.decode bs).isSome
  trim bs := (bs.dropWhile (· ≤ 32)).reverse.dropWhile (· ≤ 32) |>.reverse

/-- The log ends after the first of the two bytes of the letter, and `open` fails. -/
theorem split_character_fails_open :
    let wal := (umlautJson.logOf [umlautEntry]).take 56
    umlautJson.completeIn [umlautEntry] 56 = [] ∧
      readAfter umlautJson 0 (lines wal) = .error .io ∧
      (openWith umlautJson .empty wal .full).toOption.map Inner.data = none := by
  decide +kernel

/-- A cut before the letter is harmless, and so is one that leaves the text without its
line feed. -/
theorem truncated_log_iff_umlaut :
    let log := umlautJson.logOf [umlautEntry]
    readAfter umlautJson 0 (lines (log.take 55)) = .ok [] ∧
      readAfter umlautJson 0 (lines (log.take 71)) = .ok [umlautEntry] := by
  have h : ∀ e ∈ [umlautEntry], umlautJson.Keeps e ∧ umlautJson.Indivisible e := by decide +kernel
  have hsnapshot : readSnapshot umlautJson .empty = .ok ⟨0, ∅⟩ := rfl
  exact ⟨(truncated_log_iff h (fun _ => rfl) 55 0 hsnapshot .full).1.mpr
      ⟨(Utf8.decode (umlautJson.lastPart [umlautEntry] 55)).getD [], by decide +kernel⟩,
    (truncated_log_iff h (fun _ => rfl) 71 0 hsnapshot .full).1.mpr
      ⟨(Utf8.decode (umlautJson.lastPart [umlautEntry] 71)).getD [], by decide +kernel⟩⟩

end Bichon.MemDb
