import Bichon.Lib.Lines
import Mathlib.Data.Finmap

/-!
# The write-ahead log of the in-memory database

Every commit is one line of the log, the JSON text of a sequence number with the
operations of the commit. A reader of the log goes through it line by line. A line
that is not UTF-8 is an error of the reader, a line that is UTF-8 and no entry is
skipped, whether it is blank or damaged.

The JSON encoder and decoder and the two functions on texts are parameters.
`Json.Keeps` says of one entry that its text is a line that is decoded to it.
-/

namespace Bichon.MemDb

open ByteFile Lines

inductive DbError
  | io
  | serde
  | notFound (collection key : String)
  | duplicateKey (collection key : String)
  deriving DecidableEq, Repr

/-- A single operation of the log, on values of JSON. -/
inductive WalOp (V : Type)
  | insert (collection key : String) (value : V)
  | upsert (collection key : String) (value : V)
  | delete (collection key : String)
  deriving DecidableEq, Repr

structure WalEntry (V : Type) where
  seq : Nat
  ops : List (WalOp V)
  deriving DecidableEq, Repr

/-- The collections with their records. Like a `BTreeMap` they do not remember in which
order they were filled. -/
abbrev Data (V : Type) := Finmap fun _ : String => Finmap fun _ : String => V

/-- The content of `snapshot.json`. -/
structure Snapshot (V : Type) where
  lastSeq : Nat
  data : Data V
  deriving DecidableEq

/-- The functions of other crates that the log and the snapshot go through. -/
structure Json (V : Type) where
  /-- `serde_json::to_string` of an entry -/
  entryToString : WalEntry V → Bytes
  /-- `serde_json::from_str::<WalEntry>` -/
  entryFromStr : Bytes → Option (WalEntry V)
  /-- `serde_json::to_vec_pretty` of a snapshot -/
  snapshotToVec : Snapshot V → Bytes
  /-- `serde_json::from_slice::<Snapshot>` -/
  snapshotFromSlice : Bytes → Option (Snapshot V)
  /-- the bytes are valid UTF-8 -/
  utf8 : Bytes → Bool
  /-- `str::trim` -/
  trim : Bytes → Bytes

variable {V : Type}

namespace Json

/-- The text of the entry is one line, and it is decoded to the entry. -/
structure Keeps (json : Json V) (e : WalEntry V) : Prop where
  fromStr : json.entryFromStr (json.entryToString e) = some e
  utf8 : json.utf8 (json.entryToString e) = true
  trim : json.trim (json.entryToString e) = json.entryToString e
  ne_nil : json.entryToString e ≠ []
  oneLine : newline ∉ json.entryToString e

instance [DecidableEq V] (json : Json V) (e : WalEntry V) : Decidable (json.Keeps e) :=
  decidable_of_iff (json.entryFromStr (json.entryToString e) = some e ∧
      json.utf8 (json.entryToString e) = true ∧
      json.trim (json.entryToString e) = json.entryToString e ∧
      json.entryToString e ≠ [] ∧ newline ∉ json.entryToString e)
    ⟨fun h => ⟨h.1, h.2.1, h.2.2.1, h.2.2.2.1, h.2.2.2.2⟩,
      fun h => ⟨h.fromStr, h.utf8, h.trim, h.ne_nil, h.oneLine⟩⟩

/-- What `write_entry` appends to the log. -/
def line (json : Json V) (e : WalEntry V) : Bytes := json.entryToString e ++ [newline]

end Json

variable (json : Json V)

/-- One line of the log; nothing when the line is skipped. -/
def readLine (line : Bytes) : Except DbError (Option (WalEntry V)) :=
  if json.utf8 line then
    if json.trim line = [] then .ok none else .ok (json.entryFromStr (json.trim line))
  else
    .error .io

/-- The loop of `read_after` over the lines. -/
def readAfter (afterSeq : Nat) : List Bytes → Except DbError (List (WalEntry V))
  | [] => .ok []
  | l :: ls =>
    match readLine json l, readAfter afterSeq ls with
    | .ok (some e), .ok es => .ok (if afterSeq < e.seq then e :: es else es)
    | .ok none, .ok es => .ok es
    | .error e, _ => .error e
    | _, .error e => .error e

variable {json}

theorem readLine_entryToString {e : WalEntry V} (h : json.Keeps e) :
    readLine json (json.entryToString e) = .ok (some e) := by
  rw [readLine, if_pos h.utf8, h.trim, if_neg h.ne_nil, h.fromStr]

theorem readAfter_map_append {es : List (WalEntry V)} (h : ∀ e ∈ es, json.Keeps e)
    {ls : List Bytes} {fs : List (WalEntry V)} {n : Nat} (hls : readAfter json n ls = .ok fs) :
    readAfter json n (es.map json.entryToString ++ ls) = .ok (es.filter (n < ·.seq) ++ fs) := by
  induction es with
  | nil => exact hls
  | cons e es ih =>
    rw [List.forall_mem_cons] at h
    rw [List.map_cons, List.cons_append, readAfter, readLine_entryToString h.1, ih h.2]
    by_cases hn : n < e.seq
    · simp [hn]
    · simp [hn]

theorem readAfter_lines {es : List (WalEntry V)} (h : ∀ e ∈ es, json.Keeps e) (n : Nat) :
    readAfter json n (lines (unlines (es.map json.entryToString))) =
      .ok (es.filter (n < ·.seq)) := by
  have honeLine : ∀ l ∈ es.map json.entryToString, newline ∉ l := by
    rintro l hl
    obtain ⟨e, he, rfl⟩ := List.mem_map.mp hl
    exact (h e he).oneLine
  have hnil : readAfter json n [] = .ok [] := rfl
  have hread := readAfter_map_append h hnil
  rwa [List.append_nil, List.append_nil, ← lines_unlines honeLine] at hread

end Bichon.MemDb
