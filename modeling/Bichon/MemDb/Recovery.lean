import Bichon.Lib.Journal
import Bichon.MemDb.Db

/-!
# What an `open` recovers

The commits are a history, `snapshot.json` is the state after the first `S` of
them, and the entries of the log that are newer than it are those up to the `w`-th,
each once and in order. That is `Covers`, and an `open` then recovers the first
`max S w` commits. Nothing is said about older entries in the log: a flush can
still write entries that a snapshot has overtaken.

A process that works on the directory holds the whole history in memory and the
entries after the `w`-th in its buffer. A `snapshot` keeps all of this as long as
the file it renames is its own and newer than `snapshot.json`, for then a call that
has renamed its file is covered by `S`, and emptying the log loses nothing.
-/

namespace Bichon.MemDb

open ByteFile Lines Transition Journal List

variable {V ι : Type} {json : Json V}

/-- The memory after the first `n` commits. -/
def dataAt (H : List (List (WalOp V))) (n : Nat) : Data V := stateAt applyOps ∅ H n

def entryOf (e : Nat × List (WalOp V)) : WalEntry V := ⟨e.1, e.2⟩

/-- The directory holds the first `max S w` commits of the history. -/
structure Covers (json : Json V) (files : FileSystem SnapName) (wal : Bytes) (ghost : DbGhost V)
    (S w : Nat) (E : List (Nat × List (WalOp V))) : Prop where
  snapshot : readSnapshot json files = .ok ⟨S, dataAt ghost.history S⟩
  snapshot_le : S ≤ ghost.history.length
  wal : wal = unlines (E.map fun e => json.entryToString (entryOf e))
  keeps : ∀ e ∈ E, json.Keeps (entryOf e)
  newer : E.filter (S < ·.1) = slice ghost.history S w
  written_le : ∀ q ∈ ghost.written, q ≤ w
  le_length : w ≤ ghost.history.length

/-- The bytes a call of `snapshot` carries are those of a state of the history, and a
call that has renamed its file is covered by `snapshot.json`. -/
def CallSound (json : Json V) (H : List (List (WalOp V))) (S : Nat) : SnapCall → Prop
  | .serialized bytes n | .created bytes n _ | .saved bytes n =>
    n ≤ H.length ∧ json.snapshotFromSlice bytes = some ⟨n, dataAt H n⟩
  | .renamed n => n ≤ S
  | .idle | .flushing | .flushed => True

/-- The entries that were committed and not written to the log yet. -/
def Proc.unwritten (p : Proc V ι) : List (WalEntry V) :=
  match p.writing with
  | some w => w.rest
  | none => p.inner.pending

/-- Nothing is pending outside of batch mode, and only a flush writes pending entries. -/
structure Buffered (p : Proc V ι) : Prop where
  pending : (∀ n, p.inner.durability ≠ .batch n) → p.inner.pending = []
  clears : ∀ wr, p.writing = some wr → wr.clears = false → p.inner.pending = []

structure ProcSound (json : Json V) (H : List (List (WalOp V))) (S w : Nat) (p : Proc V ι) :
    Prop where
  lastSeq : p.inner.lastSeq = H.length
  data : p.inner.data = dataAt H H.length
  unwritten : p.unwritten = (slice H w H.length).map entryOf
  buffered : Buffered p
  calls : ∀ i, CallSound json H S (p.calls i)

def Sound (json : Json V) (s : Db V ι) : Prop :=
  ∃ S w E, Covers json s.files s.wal s.ghost S w E ∧
    ∀ p, s.proc = some p → ProcSound json s.ghost.history S w p

/-- No write fails, and what is encoded is decoded again. -/
def Assumed (json : Json V) (s : Db V ι) : DbStep V ι → Prop
  | .appendLine => ∀ p ∈ s.proc, ∀ w ∈ p.writing, ∀ e ∈ w.rest.head?, json.Keeps e
  | .serialize _ => ∀ p ∈ s.proc,
      json.snapshotFromSlice (json.snapshotToVec ⟨p.inner.lastSeq, p.inner.data⟩) =
        some ⟨p.inner.lastSeq, p.inner.data⟩
  | .cutLine _ | .syncFail => False
  | _ => True

/-- The name of the temporary file still leads to the file the call has created. -/
def OwnsTmp (files : FileSystem SnapName) : SnapCall → Prop
  | .created _ _ inode => files.inode? .tmp = some inode
  | _ => True

/-- The temporary file holds the bytes of the call, and `snapshot.json` is not newer. -/
def MayReplace (json : Json V) (files : FileSystem SnapName) : SnapCall → Prop
  | .saved bytes n => files.read? .tmp = some bytes ∧
      ∀ snapshot ∈ (readSnapshot json files).toOption, snapshot.lastSeq ≤ n
  | _ => True

/-- A call of `snapshot` writes to a temporary file that is its own, and it renames its
own bytes over a snapshot that is not newer. -/
def Ordered (json : Json V) (s : Db V ι) : DbStep V ι → Prop
  | .writeTmp i => ∀ p ∈ s.proc, OwnsTmp s.files (p.calls i)
  | .rename i => ∀ p ∈ s.proc, MayReplace json s.files (p.calls i)
  | _ => True

instance [DecidableEq V] (json : Json V) (s : Db V ι) : DecidablePred (Assumed json s)
  | .appendLine => inferInstanceAs (Decidable (∀ _ ∈ _, ∀ _ ∈ _, ∀ _ ∈ _, _))
  | .serialize _ => inferInstanceAs (Decidable (∀ _ ∈ _, _ = _))
  | .cutLine _ | .syncFail => isFalse id
  | .openWith _ | .crash | .write _ | .flush | .unlock | .snapshot _ | .createTmp _ | .writeTmp _
  | .rename _ | .truncate _ | .snapshotError _ => isTrue trivial

instance (files : FileSystem SnapName) : DecidablePred (OwnsTmp files)
  | .created _ _ inode => inferInstanceAs (Decidable (files.inode? .tmp = some inode))
  | .idle | .flushing | .flushed | .serialized _ _ | .saved _ _ | .renamed _ => isTrue trivial

instance [DecidableEq V] (json : Json V) (files : FileSystem SnapName) :
    DecidablePred (MayReplace json files)
  | .saved _ _ => inferInstanceAs (Decidable (_ ∧ ∀ _ ∈ _, _ ≤ _))
  | .idle | .flushing | .flushed | .serialized _ _ | .created _ _ _ | .renamed _ => isTrue trivial

instance [DecidableEq V] (json : Json V) (s : Db V ι) : DecidablePred (Ordered json s)
  | .writeTmp _ => inferInstanceAs (Decidable (∀ _ ∈ _, OwnsTmp _ _))
  | .rename _ => inferInstanceAs (Decidable (∀ _ ∈ _, MayReplace json _ _))
  | .openWith _ | .crash | .write _ | .flush | .appendLine | .cutLine _ | .syncFail | .unlock
  | .snapshot _ | .serialize _ | .createTmp _ | .truncate _ | .snapshotError _ => isTrue trivial

/-! ### What `open` makes of a directory -/

theorem filter_map_entryOf (E : List (Nat × List (WalOp V))) (S : Nat) :
    (E.map entryOf).filter (S < ·.seq) = (E.filter (S < ·.1)).map entryOf := by
  rw [filter_map]
  rfl

theorem foldl_replayEntry (es : List (Nat × List (WalOp V))) (n : Nat) (data : Data V) :
    (es.map entryOf).foldl replayEntry ⟨n, data⟩ =
      ⟨es.foldl (fun k e => max k e.1) n, replay applyOps data es⟩ := by
  induction es generalizing n data with
  | nil => rfl
  | cons e es ih =>
    exact ih _ _

section

variable {files : FileSystem SnapName} {wal : Bytes} {ghost : DbGhost V} {S w : Nat}
  {E : List (Nat × List (WalOp V))}

section

variable (h : Covers json files wal ghost S w E)

include h

theorem Covers.replayed :
    replayed json files wal = .ok ((slice ghost.history S w).map entryOf) := by
  have hkeeps : ∀ e ∈ E.map entryOf, json.Keeps e := by
    intro e he
    obtain ⟨e', he', rfl⟩ := mem_map.mp he
    exact h.keeps e' he'
  have hread := readAfter_lines hkeeps S
  rw [map_map, filter_map_entryOf, h.newer] at hread
  rw [MemDb.replayed, h.snapshot, h.wal]
  exact hread

theorem Covers.openWith (d : Durability) :
    openWith json files wal d = .ok ⟨max S w, dataAt ghost.history (max S w), d, []⟩ := by
  have hdata : replay applyOps (dataAt ghost.history S) (slice ghost.history S w) =
      dataAt ghost.history (max S w) := by
    rcases Nat.le_total S w with hle | hle
    · rw [Nat.max_eq_right hle]
      exact replay_slice hle h.le_length
    · rw [Nat.max_eq_left hle, slice_eq_nil hle]
      rfl
  rw [MemDb.openWith, h.snapshot, Except.bind, h.replayed, Except.map]
  rw [foldl_replayEntry, foldl_max_slice S h.le_length, hdata]

theorem covers_append (ops : List (WalOp V)) :
    Covers json files wal { ghost with history := ghost.history ++ [ops] } S w E :=
  { h with
    snapshot := by
      rw [h.snapshot, dataAt, dataAt, stateAt_append h.snapshot_le]
    snapshot_le := by
      rw [length_append]
      exact h.snapshot_le.trans (Nat.le_add_right _ _)
    newer := h.newer.trans (slice_append h.le_length [ops]).symm
    le_length := by
      rw [length_append]
      exact h.le_length.trans (Nat.le_add_right _ _) }

end

end

theorem CallSound.append {H : List (List (WalOp V))} {S : Nat} {pc : SnapCall}
    (h : CallSound json H S pc) (ops : List (WalOp V)) : CallSound json (H ++ [ops]) S pc := by
  have hbytes : ∀ {bytes n}, n ≤ H.length ∧ json.snapshotFromSlice bytes = some ⟨n, dataAt H n⟩ →
      n ≤ (H ++ [ops]).length ∧ json.snapshotFromSlice bytes = some ⟨n, dataAt (H ++ [ops]) n⟩ := by
    rintro bytes n ⟨hn, hfrom⟩
    rw [dataAt, stateAt_append hn, length_append]
    exact ⟨hn.trans (Nat.le_add_right _ _), hfrom⟩
  cases pc with
  | serialized | created | saved => exact hbytes h
  | renamed n => exact h
  | _ => trivial

theorem CallSound.mono {H : List (List (WalOp V))} {S S' : Nat} {pc : SnapCall}
    (h : CallSound json H S pc) (hS : S ≤ S') : CallSound json H S' pc := by
  cases pc with
  | renamed n => exact Nat.le_trans h hS
  | _ => exact h

/-! ### The steps of a process -/

theorem Inner.commit_of_plain {inner : Inner V} (h : ∀ n, inner.durability ≠ .batch n)
    (ops : List (WalOp V)) :
    (inner.commit ops : Inner V × Option (Writing V ι)) =
      (⟨inner.lastSeq + 1, applyOps inner.data ops, inner.durability, inner.pending⟩,
        some ⟨[⟨inner.lastSeq + 1, ops⟩], [⟨inner.lastSeq + 1, ops⟩], false, none⟩) := by
  rw [Inner.commit]
  split
  · rfl
  · rfl
  · next hmode => exact absurd hmode (h _)

theorem Inner.commit_of_batch {inner : Inner V} {maxOps : Nat}
    (h : inner.durability = .batch maxOps) {ops : List (WalOp V)} {pending : List (WalEntry V)}
    (hpending : inner.pending ++ [⟨inner.lastSeq + 1, ops⟩] = pending) :
    (inner.commit ops : Inner V × Option (Writing V ι)) =
      (⟨inner.lastSeq + 1, applyOps inner.data ops, inner.durability, pending⟩,
        if maxOps ≤ pending.length then some ⟨pending, pending, true, none⟩ else none) := by
  simp only [Inner.commit, h, hpending]

theorem Proc.unwritten_of_none {p : Proc V ι} (h : p.writing = none) :
    p.unwritten = p.inner.pending := by
  rw [Proc.unwritten, h]

theorem Proc.unwritten_of_some {p : Proc V ι} {wr : Writing V ι} (h : p.writing = some wr) :
    p.unwritten = wr.rest := by
  rw [Proc.unwritten, h]

namespace Buffered

variable {p : Proc V ι}

theorem commit (hp : Buffered p) (ops : List (WalOp V)) :
    Buffered (⟨(p.inner.commit (ι := ι) ops).1, (p.inner.commit ops).2, p.calls⟩ : Proc V ι) := by
  by_cases hmode : ∀ n, p.inner.durability ≠ .batch n
  · rw [Inner.commit_of_plain hmode]
    exact ⟨fun _ => hp.pending hmode, fun _ _ _ => hp.pending hmode⟩
  · push Not at hmode
    obtain ⟨maxOps, hbatch⟩ := hmode
    rw [Inner.commit_of_batch hbatch rfl]
    refine ⟨fun h => absurd hbatch (h maxOps), fun wr hwr hclears => ?_⟩
    obtain ⟨-, ⟨⟩⟩ := Option.ite_none_right_eq_some.mp hwr
    cases hclears

theorem flush (hp : Buffered p) {es rest : List (WalEntry V)} {call : Option ι}
    {calls : ι → SnapCall} : Buffered (⟨p.inner, some ⟨es, rest, true, call⟩, calls⟩ : Proc V ι) :=
  ⟨hp.pending, by rintro _ ⟨⟩ ⟨⟩⟩

theorem pending_unlock (hp : Buffered p) {wr : Writing V ι} (hwr : p.writing = some wr) :
    (if wr.clears then [] else p.inner.pending) = [] := by
  cases hclears : wr.clears with
  | true => rfl
  | false => exact hp.clears wr hwr hclears

end Buffered

section

variable {H : List (List (WalOp V))} {S w : Nat} {p : Proc V ι}

theorem ProcSound.commit (hp : ProcSound json H S w p) (hw : w ≤ H.length)
    (hfree : p.writing = none) (ops : List (WalOp V)) :
    ProcSound json (H ++ [ops]) S w
      (⟨(p.inner.commit (ι := ι) ops).1, (p.inner.commit ops).2, p.calls⟩ : Proc V ι) := by
  have hlen : (H ++ [ops]).length = H.length + 1 := by simp
  have hdata : applyOps p.inner.data ops = dataAt (H ++ [ops]) (H ++ [ops]).length := by
    rw [hp.data, hlen]
    exact (stateAt_concat H ops).symm
  have hunwritten : p.inner.pending ++ [⟨p.inner.lastSeq + 1, ops⟩] =
      (slice (H ++ [ops]) w (H ++ [ops]).length).map entryOf := by
    have hpending : p.inner.pending = (slice H w H.length).map entryOf := by
      rw [← hp.unwritten, Proc.unwritten_of_none hfree]
    rw [hlen, slice_concat hw, map_append, hpending, hp.lastSeq]
    rfl
  have hcalls := fun i => (hp.calls i).append ops
  have hbuffered := hp.buffered.commit ops
  by_cases hmode : ∀ n, p.inner.durability ≠ .batch n
  · rw [Inner.commit_of_plain hmode] at hbuffered ⊢
    refine ⟨hlen ▸ congrArg (· + 1) hp.lastSeq, hdata, ?_, hbuffered, hcalls⟩
    rw [← hunwritten, hp.buffered.pending hmode]
    rfl
  · push Not at hmode
    obtain ⟨maxOps, hbatch⟩ := hmode
    rw [Inner.commit_of_batch hbatch hunwritten] at hbuffered ⊢
    refine ⟨hlen ▸ congrArg (· + 1) hp.lastSeq, hdata, ?_, hbuffered, hcalls⟩
    rw [Proc.unwritten]
    split
    next hwr =>
      obtain ⟨-, ⟨⟩⟩ := Option.ite_none_right_eq_some.mp hwr
      rfl
    next => rfl

variable {calls : ι → SnapCall}

theorem ProcSound.flush (hp : ProcSound json H S w p) (hfree : p.writing = none)
    (hcalls : ∀ i, CallSound json H S (calls i)) (call : Option ι) :
    ProcSound json H S w ⟨p.inner, some ⟨p.inner.pending, p.inner.pending, true, call⟩, calls⟩ where
  lastSeq := hp.lastSeq
  data := hp.data
  unwritten := by
    rw [← hp.unwritten, Proc.unwritten_of_none hfree, Proc.unwritten_of_some rfl]
  buffered := hp.buffered.flush
  calls := hcalls

theorem ProcSound.unlock {wr : Writing V ι} (hp : ProcSound json H S w p)
    (hwr : p.writing = some wr) (hrest : wr.rest = [])
    (hcalls : ∀ i, CallSound json H S (calls i)) :
    ProcSound json H S w
      ⟨{ p.inner with pending := if wr.clears then [] else p.inner.pending }, none, calls⟩ := by
  have hunwritten := hp.unwritten
  rw [Proc.unwritten_of_some hwr, hrest] at hunwritten
  rw [hp.buffered.pending_unlock hwr]
  exact ⟨hp.lastSeq, hp.data, hunwritten, ⟨fun _ => rfl, fun _ h => (by cases h)⟩, hcalls⟩

theorem ProcSound.setCalls (hp : ProcSound json H S w p)
    (hcalls : ∀ i, CallSound json H S (calls i)) :
    ProcSound json H S w ⟨p.inner, p.writing, calls⟩ :=
  ⟨hp.lastSeq, hp.data, hp.unwritten, ⟨hp.buffered.pending, hp.buffered.clears⟩, hcalls⟩

end

namespace Db

variable {s t : Db V ι} {p : Proc V ι}

theorem forall_resumeCall [DecidableEq ι] {P : SnapCall → Prop} {call : Option ι} {pc : SnapCall}
    (h : ∀ i, P (p.calls i)) (hpc : P pc) : ∀ j, P (resumeCall p call pc j) := by
  cases call with
  | none => exact h
  | some i => exact (Function.forall_update_iff _ fun _ => P).mpr ⟨hpc, fun j _ => h j⟩

theorem forall_update [DecidableEq ι] {P : SnapCall → Prop} {i : ι} {pc : SnapCall}
    (h : ∀ i, P (p.calls i)) (hpc : P pc) : ∀ j, P (Function.update p.calls i pc j) :=
  @forall_resumeCall _ _ p _ P (some i) pc h hpc

theorem sound_new : Sound json (new : Db V ι) :=
  ⟨0, 0, [], ⟨rfl, Nat.le_refl 0, rfl, by simp, rfl, by simp [new], Nat.zero_le _⟩,
    fun _ h => by cases h⟩

theorem sound_reopen (hs : Sound json s) (d : Durability) : Sound json (s.reopen json d) := by
  obtain ⟨S, w, E, hcov, -⟩ := hs
  have hle : max S w ≤ s.ghost.history.length := Nat.max_le.mpr ⟨hcov.snapshot_le, hcov.le_length⟩
  have hlen : (s.ghost.history.take (max S w)).length = max S w := by
    rw [length_take, Nat.min_eq_left hle]
  have hnewer : slice s.ghost.history S w = slice s.ghost.history S (max S w) := by
    rcases Nat.le_total S w with h | h
    · rw [Nat.max_eq_right h]
    · rw [Nat.max_eq_left h, slice_eq_nil h, slice_eq_nil le_rfl]
  rw [reopen, hcov.openWith, hcov.replayed]
  refine ⟨S, max S w, E, ⟨?_, ?_, hcov.wal, hcov.keeps, ?_, ?_, ?_⟩, ?_⟩
  · rw [hcov.snapshot, dataAt, dataAt, stateAt_take (Nat.le_max_left S w)]
  · rw [hlen]
    exact Nat.le_max_left S w
  · rw [hcov.newer, hnewer, slice_take le_rfl]
  · exact fun q hq => (hcov.written_le q hq).trans (Nat.le_max_right S w)
  · rw [hlen]
  · intro p hp
    cases hp
    refine ⟨hlen.symm, ?_, ?_, ⟨fun _ => rfl, fun _ h => (by cases h)⟩, fun _ => trivial⟩
    · rw [hlen, dataAt, dataAt, stateAt_take le_rfl]
    · rw [hlen, slice_eq_nil le_rfl]
      rfl

section

variable (hs : Sound json s) (hproc : s.proc = some p)

include hs hproc

theorem sound_write {r : Request V} (h : s.write p r = some t) : Sound json t := by
  obtain ⟨S, w, E, hcov, hsound⟩ := hs
  have hp := hsound p hproc
  rw [write] at h
  split at h
  · cases h
  next hfree =>
    rw [Option.not_isSome_iff_eq_none] at hfree
    split at h
    · cases h
      exact ⟨S, w, E, hcov, hsound⟩
    · cases h
      exact ⟨S, w, E, hcov, hsound⟩
    · cases h
      refine ⟨S, w, E, covers_append hcov _, ?_⟩
      rintro _ ⟨⟩
      exact hp.commit hcov.le_length hfree _

theorem sound_flush (h : s.flush p = some t) : Sound json t := by
  obtain ⟨S, w, E, hcov, hsound⟩ := hs
  have hp := hsound p hproc
  rw [flush] at h
  split at h
  · cases h
  next hfree =>
    rw [Option.not_isSome_iff_eq_none] at hfree
    split at h
    · cases h
      exact ⟨S, w, E, hcov, hsound⟩
    · cases h
      refine ⟨S, w, E, hcov, ?_⟩
      rintro _ ⟨⟩
      exact hp.flush hfree hp.calls none

theorem sound_appendLine
    (hkeeps : ∀ w, p.writing = some w → ∀ e ∈ w.rest.head?, json.Keeps e)
    (h : s.appendLine json p = some t) : Sound json t := by
  obtain ⟨S, w, E, hcov, hsound⟩ := hs
  have hp := hsound p hproc
  rw [appendLine] at h
  split at h
  next entries e rest clears call hwr =>
    cases h
    have hunwritten := hp.unwritten
    rw [Proc.unwritten_of_some hwr] at hunwritten
    have hlt : w < s.ghost.history.length := by
      by_contra hge
      rw [slice_eq_nil (not_lt.mp hge)] at hunwritten
      cases hunwritten
    rw [slice_eq_cons hlt le_rfl, map_cons, cons.injEq] at hunwritten
    obtain ⟨he, hrest⟩ := hunwritten
    refine ⟨S, w + 1, E ++ [(w + 1, s.ghost.history[w])], ⟨hcov.snapshot, hcov.snapshot_le,
      ?_, ?_, ?_, ?_, hlt⟩, ?_⟩
    · rw [hcov.wal, map_append, unlines_append, he]
      simp [Json.line]
    · rw [forall_mem_append]
      refine ⟨hcov.keeps, ?_⟩
      simpa [← he] using hkeeps _ hwr e rfl
    · rw [filter_append, hcov.newer, slice_succ hlt]
    · intro q hq
      rcases mem_append.mp hq with hq | hq
      · exact (hcov.written_le q hq).trans (Nat.le_succ w)
      · rw [mem_singleton.mp hq, he]
        exact le_rfl
    · rintro _ ⟨⟩
      refine ⟨hp.lastSeq, hp.data, hrest, ⟨hp.buffered.pending, ?_⟩, hp.calls⟩
      rintro _ ⟨⟩ hclears
      exact hp.buffered.clears _ hwr hclears
  · cases h

end

variable [DecidableEq ι]

theorem sound_unlock (hs : Sound json s) (hproc : s.proc = some p) (h : s.unlock p = some t) :
    Sound json t := by
  obtain ⟨S, w, E, hcov, hsound⟩ := hs
  have hp := hsound p hproc
  rw [unlock] at h
  split at h
  next entries clears call hwr =>
    cases h
    refine ⟨S, w, E, ⟨hcov.snapshot, hcov.snapshot_le, hcov.wal, hcov.keeps, hcov.newer,
      hcov.written_le, hcov.le_length⟩, ?_⟩
    rintro _ ⟨⟩
    exact hp.unlock hwr rfl (forall_resumeCall hp.calls trivial)
  · cases h

theorem readSnapshot_congr {files files' : FileSystem SnapName}
    (h : files'.read? .snapshot = files.read? .snapshot) :
    readSnapshot json files' = readSnapshot json files := by
  rw [readSnapshot, h, readSnapshot]

variable {i : ι}

section

variable (hs : Sound json s) (hproc : s.proc = some p)

include hs hproc

theorem sound_setCall {pc : SnapCall} {files : FileSystem SnapName}
    (hfiles : files.read? .snapshot = s.files.read? .snapshot)
    (hpc : ∀ {S}, (∀ j, CallSound json s.ghost.history S (p.calls j)) →
      CallSound json s.ghost.history S pc) :
    Sound json (⟨files, s.wal, setCall p i pc, s.ghost⟩ : Db V ι) := by
  obtain ⟨S, w, E, hcov, hsound⟩ := hs
  have hp := hsound p hproc
  refine ⟨S, w, E, { hcov with snapshot := (readSnapshot_congr hfiles).trans hcov.snapshot }, ?_⟩
  rintro _ ⟨⟩
  exact hp.setCalls (forall_update hp.calls (hpc hp.calls))

theorem sound_snapshot (h : s.snapshot p i = some t) : Sound json t := by
  rw [snapshot] at h
  split at h
  · cases h
  next hfree =>
    rw [not_or, Option.not_isSome_iff_eq_none] at hfree
    split at h
    · cases h
      exact sound_setCall hs hproc rfl fun _ => trivial
    · cases h
      obtain ⟨S, w, E, hcov, hsound⟩ := hs
      have hp := hsound p hproc
      refine ⟨S, w, E, hcov, ?_⟩
      rintro _ ⟨⟩
      have hflushing : CallSound json s.ghost.history S .flushing := trivial
      exact hp.flush hfree.1 (forall_update hp.calls hflushing) (some i)

theorem sound_serialize
    (hjson : json.snapshotFromSlice (json.snapshotToVec ⟨p.inner.lastSeq, p.inner.data⟩) =
      some ⟨p.inner.lastSeq, p.inner.data⟩) (h : s.serialize json p i = some t) : Sound json t := by
  rw [serialize] at h
  split at h
  · cases h
  · cases h
    obtain ⟨S, w, E, -, hsound⟩ := id hs
    have hp := hsound p hproc
    refine sound_setCall hs hproc rfl fun _ => ⟨hp.lastSeq.le, ?_⟩
    rw [hjson, hp.data, hp.lastSeq]

theorem sound_createTmp (h : s.createTmp p i = some t) : Sound json t := by
  rw [createTmp] at h
  split at h
  next hcall _ =>
    cases h
    refine sound_setCall hs hproc (s.files.read?_create_ne SnapName.noConfusion) fun hcalls => ?_
    have := hcalls i
    rwa [hcall] at this
  · cases h

theorem sound_writeTmp
    (hordered : Ordered json s (.writeTmp i)) (h : s.writeTmp p i = some t) : Sound json t := by
  rw [writeTmp] at h
  split at h
  next bytes n inode hcall =>
    cases h
    have hinode : s.files.inode? .tmp = some inode := by
      have := hordered p hproc
      rwa [hcall] at this
    refine sound_setCall hs hproc
      (FileSystem.read?_write_ne hinode _ SnapName.noConfusion) fun hcalls => ?_
    have := hcalls i
    rwa [hcall] at this
  · cases h

theorem sound_rename
    (hordered : Ordered json s (.rename i)) (h : s.rename p i = some t) : Sound json t := by
  rw [rename] at h
  split at h
  next bytes n hcall =>
    split at h
    next inode hinode =>
      cases h
      obtain ⟨S, w, E, hcov, hsound⟩ := hs
      have hp := hsound p hproc
      obtain ⟨hread, hnewer⟩ : MayReplace json s.files (.saved bytes n) := hcall ▸ hordered p hproc
      have hS : S ≤ n := hnewer _ (by rw [hcov.snapshot]; rfl)
      obtain ⟨hn, hfrom⟩ : CallSound json s.ghost.history S (.saved bytes n) := hcall ▸ hp.calls i
      have hbytes : s.files.data inode = bytes :=
        Option.some.inj ((FileSystem.read?_eq_some hinode).symm.trans hread)
      have hfile : (s.files.rename .tmp .snapshot).read? .snapshot = some bytes := by
        rw [FileSystem.read?_rename hinode SnapName.noConfusion, if_pos rfl, hbytes]
      refine ⟨n, w, E, ⟨?_, hn, hcov.wal, hcov.keeps, ?_, hcov.written_le, hcov.le_length⟩, ?_⟩
      · simp only [readSnapshot, hfile, hfrom]
      · rw [← filter_slice hS, ← hcov.newer, filter_filter]
        refine filter_congr fun e _ => ?_
        by_cases he : n < e.1
        · simp [he, Nat.lt_of_le_of_lt hS he]
        · simp [he]
      · rintro _ ⟨⟩
        exact ⟨hp.lastSeq, hp.data, hp.unwritten, ⟨hp.buffered.pending, hp.buffered.clears⟩,
          forall_update (fun j => (hp.calls j).mono hS) le_rfl⟩
    next =>
      cases h
      exact sound_setCall hs hproc rfl fun _ => trivial
  · cases h

theorem sound_truncate (h : s.truncate p i = some t) : Sound json t := by
  rw [truncate] at h
  split at h
  · cases h
  · split at h
    next n hcall =>
      cases h
      obtain ⟨S, w, E, hcov, hsound⟩ := hs
      have hp := hsound p hproc
      have hcalls : ∀ j, CallSound json _ _ (Function.update p.calls i .idle j) :=
        forall_update hp.calls trivial
      have hn : n ≤ S := by
        have := hp.calls i
        rwa [hcall] at this
      by_cases hlast : p.inner.lastSeq = n
      · have hw : w ≤ S := by
          have := hcov.le_length
          have := hp.lastSeq
          omega
        refine ⟨S, w, [], ⟨hcov.snapshot, hcov.snapshot_le, if_pos hlast, by simp,
          (slice_eq_nil hw).symm, hcov.written_le, hcov.le_length⟩, ?_⟩
        rintro _ ⟨⟩
        exact hp.setCalls hcalls
      · refine ⟨S, w, E, { hcov with wal := (if_neg hlast).trans hcov.wal }, ?_⟩
        rintro _ ⟨⟩
        exact hp.setCalls hcalls
    · cases h

theorem sound_snapshotError (h : s.snapshotError p i = some t) : Sound json t := by
  rw [snapshotError] at h
  split at h
  · cases h
  · cases h
    exact sound_setCall hs hproc rfl fun _ => trivial

end

theorem sound_next {l : DbStep V ι} (hs : Sound json s) (hassumed : Assumed json s l)
    (hordered : Ordered json s l) (h : s.next json l = some t) : Sound json t := by
  cases hproc : s.proc with
  | none =>
    cases l with
    | openWith d =>
      simp only [next, hproc, Option.some.injEq] at h
      exact h ▸ sound_reopen hs d
    | _ => simp [next, hproc] at h
  | some p =>
    simp only [next, hproc] at h
    cases l with
    | openWith d => cases h
    | crash =>
      cases h
      obtain ⟨S, w, E, hcov, -⟩ := hs
      exact ⟨S, w, E, hcov, fun _ h => by cases h⟩
    | write r => exact sound_write hs hproc h
    | flush => exact sound_flush hs hproc h
    | appendLine => exact sound_appendLine hs hproc (hassumed p hproc) h
    | cutLine | syncFail => exact hassumed.elim
    | unlock => exact sound_unlock hs hproc h
    | snapshot i => exact sound_snapshot hs hproc h
    | serialize i => exact sound_serialize hs hproc (hassumed p hproc) h
    | createTmp i => exact sound_createTmp hs hproc h
    | writeTmp i => exact sound_writeTmp hs hproc hordered h
    | rename i => exact sound_rename hs hproc hordered h
    | truncate i => exact sound_truncate hs hproc h
    | snapshotError i => exact sound_snapshotError hs hproc h

end Db

end Bichon.MemDb
