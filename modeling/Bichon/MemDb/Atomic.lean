import Bichon.MemDb.Snapshots

/-!
# Calls that fail at the log

A call changes the memory first and writes its lines to the log afterwards, so what it
leaves behind an error of the log is the changed memory. `Inner.call` is a whole call
under the lock, with a `LogFault` for what goes wrong with its lines.
-/

namespace Bichon.MemDb

open ByteFile Lines Transition

variable {V ι : Type}

/-- What goes wrong with the lines of a call. -/
inductive LogFault where
  | cut (line bytes : Nat)
  | sync
  deriving DecidableEq, Repr

section

variable (json : Json V)

def linesOf (es : List (WalEntry V)) : Bytes := es.flatMap json.line

/-- The fault is met by a call that writes so many lines. -/
def LogFault.hits (durability : Durability) (lines : Nat) : LogFault → Bool
  | .cut line _ => decide (line < lines)
  | .sync => decide (durability ≠ .off)

/-- The log after the lines of a call, as far as they were written. -/
def writeLines (fault : Option LogFault) (es : List (WalEntry V)) (wal : Bytes) : Bytes :=
  match fault with
  | some (.cut line bytes) =>
    wal ++ linesOf json (es.take line) ++
      ((es[line]?).map fun e => (json.line e).take bytes).getD []
  | some .sync | none => wal ++ linesOf json es

/-- A call of `insert`, `upsert`, `update`, `delete` or of the commit of a transaction.
Without an open log file there is nothing to write to. -/
def Inner.call (fault : Option LogFault) (inner : Inner V) (wal : Option Bytes) (r : Request V) :
    Except DbError Unit × Inner V × Option Bytes :=
  match r.ops inner.data with
  | .error e => (.error e, inner, wal)
  | .ok [] => (.ok (), inner, wal)
  | .ok (op :: ops) =>
    match inner.commit (ι := Unit) (op :: ops) with
    | (inner', none) => (.ok (), inner', wal)
    | (inner', some writing) =>
      let written := wal.map (writeLines json fault writing.entries)
      if wal.isSome && fault.any (·.hits inner.durability writing.entries.length) then
        (.error .io, inner', written)
      else
        (.ok (), { inner' with pending := if writing.clears then [] else inner'.pending },
          written)

end

def linesDue (inner : Inner V) (r : Request V) : Nat :=
  match r.ops inner.data with
  | .error _ | .ok [] => 0
  | .ok (_ :: _) =>
    match inner.durability with
    | .full | .off => 1
    | .batch maxOps => if maxOps ≤ inner.pending.length + 1 then inner.pending.length + 1 else 0

/-- There is a log file, the call writes to it, and one of its lines or the sync fails. -/
def LogFails (fault : Option LogFault) (inner : Inner V) (wal : Option Bytes) (r : Request V) :
    Prop :=
  wal.isSome = true ∧ 0 < linesDue inner r ∧
    fault.any (·.hits inner.durability (linesDue inner r)) = true

/-- A call that returns an error has left the memory as it was. -/
def LeavesMemory (json : Json V) (fault : Option LogFault) (inner : Inner V)
    (wal : Option Bytes) (r : Request V) : Prop :=
  ∀ e, (inner.call json fault wal r).1 = .error e → (inner.call json fault wal r).2.1 = inner

/-- What the memory is after a commit whose lines were not written. -/
structure Applied (inner : Inner V) (ops : List (WalOp V)) (inner' : Inner V) : Prop where
  lastSeq : inner'.lastSeq = inner.lastSeq + 1
  data : inner'.data = applyOps inner.data ops
  pending : ∀ maxOps, inner.durability = .batch maxOps →
    inner'.pending = inner.pending ++ [⟨inner.lastSeq + 1, ops⟩]

theorem commit_cases (inner : Inner V) {r : Request V} {op : WalOp V} {ops : List (WalOp V)}
    (h : r.ops inner.data = .ok (op :: ops)) :
    ∃ inner', Applied inner (op :: ops) inner' ∧ inner'.durability = inner.durability ∧
      ((linesDue inner r = 0 ∧ ∀ ι : Type, inner.commit (ι := ι) (op :: ops) = (inner', none)) ∨
        ∃ es clears, es.length = linesDue inner r ∧ 0 < linesDue inner r ∧
          ∀ ι : Type, inner.commit (ι := ι) (op :: ops) =
            (inner', some ⟨es, es, clears, none⟩)) := by
  rw [linesDue, h]
  unfold Inner.commit
  cases hd : inner.durability with
  | full | off =>
    exact ⟨_, ⟨rfl, rfl, fun _ h => nomatch hd.symm.trans h⟩, rfl,
      .inr ⟨_, _, rfl, Nat.one_pos, fun _ => rfl⟩⟩
  | batch maxOps =>
    simp only [List.length_append, List.length_singleton]
    refine ⟨⟨inner.lastSeq + 1, applyOps inner.data (op :: ops), .batch maxOps,
      inner.pending ++ [⟨inner.lastSeq + 1, op :: ops⟩]⟩, ⟨rfl, rfl, fun _ _ => rfl⟩, rfl, ?_⟩
    by_cases hle : maxOps ≤ inner.pending.length + 1
    · rw [if_pos hle]
      exact .inr ⟨inner.pending ++ [⟨inner.lastSeq + 1, op :: ops⟩], true, by simp,
        Nat.succ_pos _, fun _ => by rw [if_pos hle]⟩
    · rw [if_neg hle]
      exact .inl ⟨rfl, fun _ => by rw [if_neg hle]⟩

section

variable {fault : Option LogFault} {inner : Inner V} {wal : Option Bytes} {r : Request V}

theorem leavesMemory_of_not_logFails (json : Json V) (h : ¬ LogFails fault inner wal r) :
    LeavesMemory json fault inner wal r := by
  intro e he
  unfold Inner.call at he ⊢
  cases hops : r.ops inner.data with
  | error e' => rfl
  | ok ops =>
    rw [hops] at he
    cases ops with
    | nil => cases he
    | cons op ops =>
      simp only at he
      obtain ⟨inner', -, -, ⟨-, hcommit⟩ | ⟨es, clears, hlen, hpos, hcommit⟩⟩ :=
        commit_cases inner hops
      · rw [hcommit] at he
        cases he
      · have hok : (wal.isSome &&
            fault.any (·.hits inner.durability es.length)) = false := by
          rw [hlen, Bool.and_eq_false_iff]
          by_contra hboth
          rw [not_or, Bool.not_eq_false, Bool.not_eq_false] at hboth
          exact h ⟨hboth.1, hpos, hboth.2⟩
        rw [hcommit] at he
        simp only [hok] at he
        cases he

theorem call_of_logFails (json : Json V) (h : LogFails fault inner wal r) :
    ∃ ops inner', r.ops inner.data = .ok ops ∧ Applied inner ops inner' ∧
      (inner.call json fault wal r).1 = .error .io ∧
      (inner.call json fault wal r).2.1 = inner' := by
  obtain ⟨hwal, hdue, hhit⟩ := h
  cases hops : r.ops inner.data with
  | error e => simp [linesDue, hops] at hdue
  | ok ops =>
    cases ops with
    | nil => simp [linesDue, hops] at hdue
    | cons op ops =>
      obtain ⟨inner', happlied, -, ⟨hzero, -⟩ | ⟨es, clears, hlen, -, hcommit⟩⟩ :=
        commit_cases inner hops
      · omega
      · have herror : (wal.isSome &&
            fault.any (·.hits inner.durability es.length)) = true := by
          rw [hlen, hwal, hhit]
          rfl
        have hcall : inner.call json fault wal r =
            (.error .io, inner', wal.map (writeLines json fault es)) := by
          unfold Inner.call
          rw [hops]
          simp only [hcommit, herror, if_true]
        refine ⟨op :: ops, inner', rfl, happlied, ?_, ?_⟩
        · rw [hcall]
        · rw [hcall]

/-- A call that fails leaves the memory as it was if and only if it is not the log that
fails. The memory then has the next number and the changes of the call, and under a batch
the entry stays among the pending ones. -/
theorem failed_call_leaves_memory_iff (json : Json V) (fault : Option LogFault) (inner : Inner V)
    (wal : Option Bytes) (r : Request V) :
    (LeavesMemory json fault inner wal r ↔ ¬ LogFails fault inner wal r) ∧
      (LogFails fault inner wal r → ∃ ops, r.ops inner.data = .ok ops ∧
        Applied inner ops (inner.call json fault wal r).2.1) := by
  constructor
  · constructor
    · intro h hfails
      obtain ⟨ops, inner', -, happlied, herror, hinner⟩ := call_of_logFails json hfails
      have hsame := h _ herror
      have hseq := happlied.lastSeq
      rw [← hinner, hsame] at hseq
      omega
    · exact leavesMemory_of_not_logFails json
  · intro hfails
    obtain ⟨ops, inner', hops, happlied, -, hinner⟩ := call_of_logFails json hfails
    rw [hinner]
    exact ⟨ops, hops, happlied⟩

end

/-! ### Under each mode -/

def emptyInner (durability : Durability) : Inner Nat := ⟨0, ∅, durability, []⟩

/-- The sync of an insert fails, and the write of an upsert that fills a batch. Both calls
return an error, and the records are there. -/
theorem failed_insert_is_visible :
    let full := (emptyInner .full).call sampleJson (some .sync) (some []) (.insert "c" "k" 1)
    let batch := (emptyInner (.batch 1)).call sampleJson (some (.cut 0 10)) (some [])
      (.upsert "c" "k" 1)
    full.1 = .error .io ∧ full.2.1.data.get "c" "k" = some 1 ∧ full.2.1.lastSeq = 1 ∧
      batch.1 = .error .io ∧ batch.2.1.data.get "c" "k" = some 1 ∧
      batch.2.1.pending = [⟨1, [.upsert "c" "k" 1]⟩] := by
  decide +kernel

/-- An insert of a key that exists, with a log that would fail. -/
theorem failed_call_leaves_memory_duplicate :
    let inner : Inner Nat := ⟨1, applyOps ∅ [.insert "c" "k" 1], .full, []⟩
    (inner.call sampleJson (some .sync) (some []) (.insert "c" "k" 2)).1 =
        .error (.duplicateKey "c" "k") ∧
      LeavesMemory sampleJson (some .sync) inner (some []) (.insert "c" "k" 2) := by
  refine ⟨by decide +kernel, (failed_call_leaves_memory_iff _ _ _ _ _).1.mpr ?_⟩
  rintro ⟨-, hdue, -⟩
  exact absurd hdue (by decide +kernel)

end Bichon.MemDb
