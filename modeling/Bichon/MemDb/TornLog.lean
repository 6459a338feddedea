import Bichon.MemDb.Snapshots

/-!
# Log entries that were cut

An append to the log can fail, or the process can stop, after any number of bytes.
The log is opened for appending without a look at its end, so the next entry is
written right behind what is left of the one before. `FromLineStart` is what has to
hold for this to be harmless: every append starts at the beginning of a line, and
what a cut leaves is still a text. The log then consists of whole lines and at most
one unfinished line at its end. Every acknowledged entry is one of the lines, and
all entries behind it are of later commits, even when a flush was repeated.
-/

namespace Bichon.MemDb

open ByteFile Lines Transition List

variable {V ι : Type} {json : Json V}

/-- Commits, flushes, crashes and reopens; no snapshots. -/
def LogStep : DbStep V ι → Prop
  | .openWith _ | .crash | .write _ | .flush | .appendLine | .cutLine _ | .syncFail | .unlock =>
    True
  | _ => False

/-- The text of an entry of which `n` bytes are left is not the text of another one. -/
def Json.KeepsCut (json : Json V) (e : WalEntry V) (n : Nat) : Prop :=
  ∀ f ∈ json.entryFromStr (json.trim ((json.entryToString e).take n)), f = e

/-- What is encoded is decoded again, and a part of it to nothing else. -/
def LogAssumed (json : Json V) (s : Db V ι) : DbStep V ι → Prop
  | .appendLine => ∀ p ∈ s.proc, ∀ w ∈ p.writing, ∀ e ∈ w.rest.head?, json.Keeps e
  | .cutLine n => ∀ p ∈ s.proc, ∀ w ∈ p.writing, ∀ e ∈ w.rest.head?,
      json.Keeps e ∧ json.KeepsCut e n
  | _ => True

/-- An append starts at the beginning of a line, and a cut does not split a character. -/
def FromLineStart (json : Json V) (s : Db V ι) : DbStep V ι → Prop
  | .appendLine => AtLineStart s.wal
  | .cutLine n => AtLineStart s.wal ∧ ∀ p ∈ s.proc, ∀ w ∈ p.writing, ∀ e ∈ w.rest.head?,
      json.utf8 ((json.entryToString e).take n) = true
  | _ => True

instance : DecidablePred (LogStep : DbStep V ι → Prop)
  | .openWith _ | .crash | .write _ | .flush | .appendLine | .cutLine _ | .syncFail | .unlock =>
    isTrue trivial
  | .snapshot _ | .serialize _ | .createTmp _ | .writeTmp _ | .rename _ | .truncate _
  | .snapshotError _ => isFalse id

instance [DecidableEq V] (json : Json V) (e : WalEntry V) (n : Nat) :
    Decidable (json.KeepsCut e n) :=
  inferInstanceAs (Decidable (∀ f ∈ _, f = e))

instance [DecidableEq V] (json : Json V) (s : Db V ι) : DecidablePred (LogAssumed json s)
  | .appendLine => inferInstanceAs (Decidable (∀ _ ∈ _, ∀ _ ∈ _, ∀ _ ∈ _, _))
  | .cutLine _ => inferInstanceAs (Decidable (∀ _ ∈ _, ∀ _ ∈ _, ∀ _ ∈ _, _ ∧ _))
  | .openWith _ | .crash | .write _ | .flush | .syncFail | .unlock | .snapshot _ | .serialize _
  | .createTmp _ | .writeTmp _ | .rename _ | .truncate _ | .snapshotError _ => isTrue trivial

instance (json : Json V) (s : Db V ι) : DecidablePred (FromLineStart json s)
  | .appendLine => inferInstanceAs (Decidable (AtLineStart _))
  | .cutLine _ =>
    inferInstanceAs (Decidable (AtLineStart _ ∧ ∀ _ ∈ _, ∀ _ ∈ _, ∀ _ ∈ _, _ = _))
  | .openWith _ | .crash | .write _ | .flush | .syncFail | .unlock | .snapshot _ | .serialize _
  | .createTmp _ | .writeTmp _ | .rename _ | .truncate _ | .snapshotError _ => isTrue trivial

/-- `open` succeeds. It replays every entry the last `open` has replayed, and every
acknowledged entry, which is followed by later commits only. -/
def KeepsAcknowledged (json : Json V) (s : Db V ι) : Prop :=
  ∃ es, replayed json s.files s.wal = .ok es ∧
    (∀ d, (openWith json s.files s.wal d).map Inner.data =
      .ok (es.foldl (fun data e => applyOps data e.ops) ∅)) ∧
    (∀ e ∈ s.ghost.recovered, e ∈ es) ∧
    ∀ e ∈ s.ghost.acked, ∃ before after, es = before ++ e :: after ∧ ∀ f ∈ after, e.seq < f.seq

/-- Entries in the order of their commits, all of them later than the acknowledged ones. -/
structure Fresh (acked : List (WalEntry V)) (lastSeq : Nat) (es : List (WalEntry V)) : Prop where
  sorted : es.Pairwise (·.seq < ·.seq)
  pos : ∀ e ∈ es, 0 < e.seq
  le : ∀ e ∈ es, e.seq ≤ lastSeq
  later : ∀ e ∈ es, ∀ a ∈ acked, a.seq < e.seq

/-- The process: what it writes is at the end of the log as far as it is written. -/
structure ProcLog (acked es : List (WalEntry V)) (tail : Bytes) (p : Proc V ι) : Prop where
  lastSeq : ∀ a ∈ acked, a.seq ≤ p.inner.lastSeq
  pending : Fresh acked p.inner.lastSeq p.inner.pending
  writing : ∀ w ∈ p.writing, Fresh acked p.inner.lastSeq w.entries ∧
    ∃ before done, es = before ++ done ∧ w.entries = done ++ w.rest ∧ (done ≠ [] → tail = [])
  buffered : Buffered p

/-- The log consists of the lines of `es` and of the unfinished line `tail`. -/
structure LogSound (json : Json V) (s : Db V ι) (es : List (WalEntry V)) (tail : Bytes) : Prop where
  files : s.files.read? .snapshot = none
  wal : s.wal = unlines (es.map json.entryToString) ++ tail
  keeps : ∀ e ∈ es, json.Keeps e
  pos : ∀ e ∈ es, 0 < e.seq
  oneLine : newline ∉ tail
  tail_utf8 : tail ≠ [] → json.utf8 tail = true
  tail_later : tail ≠ [] → ∀ f, readLine json tail = .ok (some f) →
    0 < f.seq ∧ ∀ a ∈ s.ghost.acked, a.seq < f.seq
  acked : ∀ e ∈ s.ghost.acked, ∃ before after, es = before ++ e :: after ∧
    ∀ f ∈ after, e.seq < f.seq
  recovered : ∀ e ∈ s.ghost.recovered, e ∈ es ∨ tail ≠ [] ∧ readLine json tail = .ok (some e)
  proc : ∀ p ∈ s.proc, ProcLog s.ghost.acked es tail p

/-- The entries an unfinished line contributes. -/
def tailEntries (json : Json V) (tail : Bytes) : List (WalEntry V) :=
  match readLine json tail with
  | .ok (some e) => if tail = [] then [] else [e]
  | _ => []

theorem readAfter_tail {tail : Bytes} (hline : newline ∉ tail)
    (hutf8 : tail ≠ [] → json.utf8 tail = true)
    (hpos : tail ≠ [] → ∀ f, readLine json tail = .ok (some f) → 0 < f.seq) :
    readAfter json 0 (lines tail) = .ok (tailEntries json tail) := by
  by_cases hnil : tail = []
  · subst hnil
    rw [lines_nil, readAfter, tailEntries]
    split <;> simp
  · rw [lines_of_notMem hline hnil, readAfter, readAfter, tailEntries]
    have hread : ∀ e, readLine json tail ≠ .error e := by
      intro e
      rw [readLine, if_pos (hutf8 hnil)]
      split <;> simp
    cases hr : readLine json tail with
    | error e => exact absurd hr (hread e)
    | ok found =>
      cases found with
      | none => rfl
      | some f => simp [hnil, hpos hnil f hr]

section

variable {s t : Db V ι} {p : Proc V ι} {es : List (WalEntry V)} {tail : Bytes}

theorem LogSound.replayed (h : LogSound json s es tail) :
    replayed json s.files s.wal = .ok (es ++ tailEntries json tail) := by
  have honeLine : ∀ l ∈ es.map json.entryToString, newline ∉ l := by
    intro l hl
    obtain ⟨e, he, rfl⟩ := mem_map.mp hl
    exact (h.keeps e he).oneLine
  have htail := readAfter_tail h.oneLine h.tail_utf8 fun hne f hf => (h.tail_later hne f hf).1
  have hfilter : es.filter (0 < ·.seq) = es := by
    rw [filter_eq_self]
    exact fun e he => decide_eq_true (h.pos e he)
  rw [MemDb.replayed, readSnapshot, h.files, h.wal, Except.bind, lines_unlines_append honeLine,
    readAfter_map_append h.keeps htail, hfilter]

theorem mem_tailEntries {e : WalEntry V} :
    e ∈ tailEntries json tail ↔ tail ≠ [] ∧ readLine json tail = .ok (some e) := by
  rw [tailEntries]
  split
  next f hf =>
    by_cases hnil : tail = []
    · simp [hnil]
    · simp [hnil, hf, eq_comm]
  next hno =>
    constructor
    · rintro ⟨⟩
    · rintro ⟨-, h⟩
      exact absurd h (hno e)

theorem foldl_replayEntry_data (es : List (WalEntry V)) (snapshot : Snapshot V) :
    (es.foldl replayEntry snapshot).data =
      es.foldl (fun data e => applyOps data e.ops) snapshot.data := by
  induction es generalizing snapshot with
  | nil => rfl
  | cons e es ih => exact ih _

theorem le_foldl_replayEntry (es : List (WalEntry V)) (snapshot : Snapshot V) :
    snapshot.lastSeq ≤ (es.foldl replayEntry snapshot).lastSeq ∧
      ∀ e ∈ es, e.seq ≤ (es.foldl replayEntry snapshot).lastSeq := by
  induction es generalizing snapshot with
  | nil => exact ⟨le_rfl, by simp⟩
  | cons e es ih =>
    obtain ⟨hfirst, hrest⟩ := ih (replayEntry snapshot e)
    rw [foldl_cons, forall_mem_cons]
    exact ⟨(Nat.le_max_left _ _).trans hfirst, (Nat.le_max_right _ _).trans hfirst, hrest⟩

theorem LogSound.openWith (h : LogSound json s es tail) (d : Durability) :
    openWith json s.files s.wal d =
      .ok ⟨((es ++ tailEntries json tail).foldl replayEntry ⟨0, ∅⟩).lastSeq,
        (es ++ tailEntries json tail).foldl (fun data e => applyOps data e.ops) ∅, d, []⟩ := by
  rw [MemDb.openWith, h.replayed, readSnapshot, h.files]
  simp only [Except.bind, Except.map, foldl_replayEntry_data]

theorem LogSound.keepsAcknowledged (h : LogSound json s es tail) : KeepsAcknowledged json s := by
  refine ⟨es ++ tailEntries json tail, h.replayed, fun d => by rw [h.openWith]; rfl, ?_, ?_⟩
  · intro e he
    rw [mem_append, mem_tailEntries]
    exact h.recovered e he
  · intro e he
    obtain ⟨before, after, hes, hafter⟩ := h.acked e he
    refine ⟨before, after ++ tailEntries json tail, by simp [hes], ?_⟩
    rw [forall_mem_append]
    refine ⟨hafter, fun f hf => ?_⟩
    obtain ⟨hne, hread⟩ := mem_tailEntries.mp hf
    exact (h.tail_later hne f hread).2 e he

end

namespace Fresh

variable {acked es : List (WalEntry V)} {n : Nat}

theorem nil : Fresh acked n [] := ⟨.nil, by simp, by simp, by simp⟩

theorem concat (h : Fresh acked n es) (hacked : ∀ a ∈ acked, a.seq ≤ n) (ops : List (WalOp V)) :
    Fresh acked (n + 1) (es ++ [⟨n + 1, ops⟩]) where
  sorted := by
    rw [pairwise_append]
    refine ⟨h.sorted, pairwise_singleton _ _, fun e he f hf => ?_⟩
    rw [mem_singleton.mp hf]
    exact Nat.lt_succ_of_le (h.le e he)
  pos := by
    rw [forall_mem_append, forall_mem_singleton]
    exact ⟨h.pos, Nat.succ_pos n⟩
  le := by
    rw [forall_mem_append, forall_mem_singleton]
    exact ⟨fun e he => (h.le e he).trans (Nat.le_succ n), le_rfl⟩
  later := by
    rw [forall_mem_append, forall_mem_singleton]
    exact ⟨h.later, fun a ha => Nat.lt_succ_of_le (hacked a ha)⟩

end Fresh

section

variable {acked es : List (WalEntry V)} {tail : Bytes} {p : Proc V ι}

theorem ProcLog.commit (h : ProcLog acked es tail p) (ops : List (WalOp V)) :
    ProcLog acked es tail
      (⟨(p.inner.commit (ι := ι) ops).1, (p.inner.commit ops).2, p.calls⟩ : Proc V ι) := by
  have hbuffered := h.buffered.commit ops
  have hlast : ∀ a ∈ acked, a.seq ≤ p.inner.lastSeq + 1 :=
    fun a ha => (h.lastSeq a ha).trans (Nat.le_succ _)
  have hstart : ∀ entries : List (WalEntry V), ∃ before done, es = before ++ done ∧
      entries = done ++ entries ∧ (done ≠ [] → tail = []) :=
    fun entries => ⟨es, [], by simp, by simp, by simp⟩
  have hfresh := h.pending.concat h.lastSeq ops
  by_cases hmode : ∀ n, p.inner.durability ≠ .batch n
  · have hnil := h.buffered.pending hmode
    rw [hnil, nil_append] at hfresh
    rw [Inner.commit_of_plain hmode] at hbuffered ⊢
    refine ⟨hlast, by rw [hnil]; exact Fresh.nil, ?_, hbuffered⟩
    rintro _ ⟨⟩
    exact ⟨hfresh, hstart _⟩
  · push Not at hmode
    obtain ⟨maxOps, hbatch⟩ := hmode
    rw [Inner.commit_of_batch hbatch rfl] at hbuffered ⊢
    refine ⟨hlast, hfresh, fun w hw => ?_, hbuffered⟩
    obtain ⟨-, ⟨⟩⟩ := Option.ite_none_right_eq_some.mp hw
    exact ⟨hfresh, hstart _⟩

theorem ProcLog.flush (h : ProcLog acked es tail p) {call : Option ι} {calls : ι → SnapCall} :
    ProcLog acked es tail
      ⟨p.inner, some ⟨p.inner.pending, p.inner.pending, true, call⟩, calls⟩ := by
  refine ⟨h.lastSeq, h.pending, ?_, h.buffered.flush⟩
  rintro _ ⟨⟩
  exact ⟨h.pending, es, [], by simp, by simp, by simp⟩

theorem ProcLog.abort (h : ProcLog acked es tail p) {es' : List (WalEntry V)} {tail' : Bytes}
    {calls : ι → SnapCall} : ProcLog acked es' tail' ⟨p.inner, none, calls⟩ :=
  ⟨h.lastSeq, h.pending, by rintro _ ⟨⟩, h.buffered.pending, by rintro _ ⟨⟩⟩

end

namespace Db

variable {s t : Db V ι} {p : Proc V ι} {es : List (WalEntry V)} {tail : Bytes}

theorem logSound_new : LogSound json (new : Db V ι) [] [] :=
  ⟨rfl, rfl, by simp, by simp, by simp, by simp, by simp, by simp [new], by simp [new],
    by rintro _ ⟨⟩⟩

section

variable (h : LogSound json s es tail)

include h

theorem logSound_reopen (d : Durability) : LogSound json (s.reopen json d) es tail := by
  rw [reopen, h.openWith, h.replayed]
  refine ⟨h.files, h.wal, h.keeps, h.pos, h.oneLine, h.tail_utf8, h.tail_later, h.acked, ?_, ?_⟩
  · intro e he
    rwa [← mem_tailEntries, ← mem_append]
  · rintro _ ⟨⟩
    refine ⟨fun a ha => ?_, Fresh.nil, by rintro _ ⟨⟩, ⟨fun _ => rfl, by rintro _ ⟨⟩⟩⟩
    obtain ⟨before, after, hes, -⟩ := h.acked a ha
    exact (le_foldl_replayEntry _ _).2 a (by simp [hes])

theorem LogSound.setProc {q : Proc V ι}
    {history : List (List (WalOp V))} (hq : ProcLog s.ghost.acked es tail q) :
    LogSound json (⟨s.files, s.wal, some q, { s.ghost with history := history }⟩ : Db V ι)
      es tail :=
  ⟨h.files, h.wal, h.keeps, h.pos, h.oneLine, h.tail_utf8, h.tail_later, h.acked, h.recovered,
    by rintro _ ⟨⟩; exact hq⟩

theorem logSound_write {r : Request V} (hproc : s.proc = some p)
    (hnext : s.write p r = some t) : LogSound json t es tail := by
  have hp := h.proc p hproc
  rw [write] at hnext
  split at hnext
  · cases hnext
  · split at hnext <;> cases hnext
    · exact h
    · exact h
    · exact LogSound.setProc h (hp.commit _)

theorem logSound_flush (hproc : s.proc = some p)
    (hnext : s.flush p = some t) : LogSound json t es tail := by
  have hp := h.proc p hproc
  rw [flush] at hnext
  split at hnext
  · cases hnext
  · split at hnext <;> cases hnext
    · exact h
    · exact LogSound.setProc h hp.flush

theorem LogSound.tail_eq_nil (hstart : AtLineStart s.wal) : tail = [] := by
  by_contra hne
  rw [h.wal] at hstart
  exact not_atLineStart_append h.oneLine hne hstart

end

theorem LogSound.append (h : LogSound json s es []) {e : WalEntry V} (hkeeps : json.Keeps e)
    (hpos : 0 < e.seq) (hlater : ∀ a ∈ s.ghost.acked, a.seq < e.seq) {q : Proc V ι}
    {written : List Nat} (hq : ProcLog s.ghost.acked (es ++ [e]) [] q) :
    LogSound json (⟨s.files, s.wal ++ json.line e, some q, { s.ghost with written := written }⟩ :
      Db V ι) (es ++ [e]) [] where
  files := h.files
  wal := by simp [h.wal, Json.line]
  keeps := by
    rw [forall_mem_append, forall_mem_singleton]
    exact ⟨h.keeps, hkeeps⟩
  pos := by
    rw [forall_mem_append, forall_mem_singleton]
    exact ⟨h.pos, hpos⟩
  oneLine := by simp
  tail_utf8 := fun hne => absurd rfl hne
  tail_later := fun hne => absurd rfl hne
  acked := by
    intro a ha
    obtain ⟨before, after, hes, hafter⟩ := h.acked a ha
    refine ⟨before, after ++ [e], by simp [hes], ?_⟩
    rw [forall_mem_append, forall_mem_singleton]
    exact ⟨hafter, hlater a ha⟩
  recovered := by
    intro f hf
    rcases h.recovered f hf with hmem | ⟨hne, -⟩
    · exact .inl (mem_append_left [e] hmem)
    · exact absurd rfl hne
  proc := by
    rintro _ ⟨⟩
    exact hq

theorem logSound_appendLine (h : LogSound json s es tail) (hproc : s.proc = some p)
    (hassumed : LogAssumed json s .appendLine) (hstart : AtLineStart s.wal)
    (hnext : s.appendLine json p = some t) : ∃ es', LogSound json t es' [] := by
  obtain rfl := LogSound.tail_eq_nil h hstart
  have hp := h.proc p hproc
  rw [appendLine] at hnext
  split at hnext <;> cases hnext
  next entries e rest clears call hwr =>
    obtain ⟨hfresh, before, done, hes, hentries, -⟩ := hp.writing _ hwr
    dsimp only at hfresh hentries
    have hmem : e ∈ entries := by simp [hentries]
    refine ⟨es ++ [e], LogSound.append h (hassumed p hproc _ hwr e rfl) (hfresh.pos e hmem)
      (hfresh.later e hmem) ⟨hp.lastSeq, hp.pending, ?_, hp.buffered.pending, ?_⟩⟩
    · rintro _ ⟨⟩
      exact ⟨hfresh, before, done ++ [e], by simp [hes], by simp [hentries], fun _ => rfl⟩
    · rintro _ ⟨⟩ hclears
      exact hp.buffered.clears _ hwr hclears

theorem logSound_cutLine [DecidableEq ι] {n : Nat} (h : LogSound json s es tail)
    (hproc : s.proc = some p) (hassumed : LogAssumed json s (.cutLine n))
    (hstart : FromLineStart json s (.cutLine n)) (hnext : s.cutLine json p n = some t) :
    ∃ es' tail', LogSound json t es' tail' := by
  obtain rfl := LogSound.tail_eq_nil h hstart.1
  have hp := h.proc p hproc
  rw [cutLine] at hnext
  split at hnext <;> cases hnext
  next entries e rest clears call hwr =>
    obtain ⟨hfresh, before, done, hes, hentries, -⟩ := hp.writing _ hwr
    dsimp only at hfresh hentries
    have hmem : e ∈ entries := by simp [hentries]
    obtain ⟨hkeeps, hcut⟩ := hassumed p hproc _ hwr e rfl
    have hutf8 := hstart.2 p hproc _ hwr e rfl
    by_cases hn : n ≤ (json.entryToString e).length
    · have htake : (json.line e).take n = (json.entryToString e).take n :=
        take_append_of_le_length hn
      refine ⟨es, (json.entryToString e).take n, h.files, ?_, h.keeps, h.pos, ?_, fun _ => hutf8,
        ?_, h.acked, ?_, ?_⟩
      · rw [htake, h.wal, append_nil]
      · exact fun hline => hkeeps.oneLine (mem_of_mem_take hline)
      · intro _ f hf
        obtain rfl : f = e := by
          rw [readLine, if_pos hutf8] at hf
          split at hf
          · cases hf
          · exact hcut f (Except.ok.inj hf)
        exact ⟨hfresh.pos f hmem, hfresh.later f hmem⟩
      · intro f hf
        rcases h.recovered f hf with hmem | ⟨hne, -⟩
        · exact .inl hmem
        · exact absurd rfl hne
      · rintro _ ⟨⟩
        exact hp.abort
    · have htake : (json.line e).take n = json.line e := by
        refine take_of_length_le ?_
        rw [Json.line, length_append, length_singleton]
        omega
      refine ⟨es ++ [e], [], ?_⟩
      rw [htake]
      exact LogSound.append h hkeeps (hfresh.pos e hmem) (hfresh.later e hmem) hp.abort

variable [DecidableEq ι]

theorem logSound_syncFail (h : LogSound json s es tail) (hproc : s.proc = some p)
    (hnext : s.syncFail p = some t) : LogSound json t es tail := by
  have hp := h.proc p hproc
  rw [syncFail] at hnext
  split at hnext
  · split at hnext <;> cases hnext
    exact LogSound.setProc h hp.abort
  · cases hnext

theorem logSound_unlock (h : LogSound json s es tail) (hproc : s.proc = some p)
    (hnext : s.unlock p = some t) : LogSound json t es tail := by
  have hp := h.proc p hproc
  rw [unlock] at hnext
  split at hnext <;> cases hnext
  next entries clears call hwr =>
    have hnil := hp.buffered.pending_unlock hwr
    rw [hnil]
    by_cases hoff : p.inner.durability = .off
    · rw [if_pos hoff]
      exact LogSound.setProc h
        ⟨hp.lastSeq, Fresh.nil, by rintro _ ⟨⟩, ⟨fun _ => rfl, by rintro _ ⟨⟩⟩⟩
    · rw [if_neg hoff]
      obtain ⟨hfresh, before, done, hes, hentries, htail⟩ := hp.writing _ hwr
      rw [append_nil] at hentries
      subst hentries
      refine ⟨h.files, h.wal, h.keeps, h.pos, h.oneLine, h.tail_utf8, ?_, ?_, h.recovered, ?_⟩
      · intro hne f hf
        obtain ⟨hpos, hlater⟩ := h.tail_later hne f hf
        refine ⟨hpos, ?_⟩
        rw [forall_mem_append]
        refine ⟨hlater, fun a ha => absurd (htail ?_) hne⟩
        exact ne_nil_of_mem ha
      · rw [forall_mem_append]
        refine ⟨h.acked, fun e he => ?_⟩
        obtain ⟨a, b, hab⟩ := append_of_mem he
        refine ⟨before ++ a, b, by simp [hes, hab], ?_⟩
        have hsorted := hfresh.sorted
        rw [hab, pairwise_append, pairwise_cons] at hsorted
        exact hsorted.2.1.1
      · rintro _ ⟨⟩
        refine ⟨?_, Fresh.nil, by rintro _ ⟨⟩, ⟨fun _ => rfl, by rintro _ ⟨⟩⟩⟩
        rw [forall_mem_append]
        exact ⟨hp.lastSeq, hfresh.le⟩

theorem logSound_next {l : DbStep V ι} (h : LogSound json s es tail) (hstep : LogStep l)
    (hassumed : LogAssumed json s l) (hstart : FromLineStart json s l)
    (hnext : s.next json l = some t) : ∃ es' tail', LogSound json t es' tail' := by
  cases hproc : s.proc with
  | none =>
    cases l with
    | openWith d =>
      simp only [next, hproc, Option.some.injEq] at hnext
      exact ⟨es, tail, hnext ▸ logSound_reopen h d⟩
    | _ => simp [next, hproc] at hnext
  | some p =>
    simp only [next, hproc] at hnext
    cases l with
    | openWith d => cases hnext
    | crash =>
      cases hnext
      exact ⟨es, tail, h.files, h.wal, h.keeps, h.pos, h.oneLine, h.tail_utf8, h.tail_later,
        h.acked, h.recovered, by rintro _ ⟨⟩⟩
    | write r => exact ⟨es, tail, logSound_write h hproc hnext⟩
    | flush => exact ⟨es, tail, logSound_flush h hproc hnext⟩
    | appendLine =>
      obtain ⟨es', hes'⟩ := logSound_appendLine h hproc hassumed hstart hnext
      exact ⟨es', [], hes'⟩
    | cutLine n => exact logSound_cutLine h hproc hassumed hstart hnext
    | syncFail => exact ⟨es, tail, logSound_syncFail h hproc hnext⟩
    | unlock => exact ⟨es, tail, logSound_unlock h hproc hnext⟩
    | _ => exact hstep.elim

/-- Every history of commits, flushes, failed appends, crashes and reopens in which
each append starts a line: nothing that was acknowledged, and nothing that was
recovered once, is lost. -/
theorem log_keeps_acknowledged {ls : List (DbStep V ι)}
    (hsteps : Along (next json)
      (fun s l => (LogStep l ∧ LogAssumed json s l) ∧ FromLineStart json s l) new ls)
    (hrun : runFrom (next json) new ls = some s) : KeepsAcknowledged json s := by
  have hinv : ∃ es tail, LogSound json s es tail := by
    refine Along.invariant (I := fun s => ∃ es tail, LogSound json s es tail) ?_
      ⟨[], [], logSound_new⟩ hsteps hrun
    rintro s l t ⟨es, tail, h⟩ ⟨⟨hstep, hassumed⟩, hstart⟩ hnext
    exact logSound_next h hstep hassumed hstart hnext
  obtain ⟨es, tail, h⟩ := hinv
  exact h.keepsAcknowledged

/-- A flush fails at once and is repeated, and the next one is cut before its line feed. -/
def sampleRetryRun : List (DbStep Nat Unit) :=
  [.openWith (.batch 8), .write (.upsert "c" "k" 1), .flush, .cutLine 0, .flush, .appendLine,
    .unlock, .write (.upsert "c" "k" 2), .flush, .cutLine (sampleLine 2).length, .crash,
    .openWith .full]

theorem log_keeps_acknowledged_sample :
    ∃ s, runFrom (next sampleJson) new sampleRetryRun = some s ∧
      s.ghost.acked = [⟨1, sampleOps 1⟩] ∧
      s.ghost.recovered = [⟨1, sampleOps 1⟩, ⟨2, sampleOps 2⟩] ∧
        KeepsAcknowledged sampleJson s := by
  obtain ⟨s, hrun, hacked, hrecovered⟩ : ∃ s ∈ runFrom (next sampleJson) new sampleRetryRun,
      s.ghost.acked = [⟨1, sampleOps 1⟩] ∧
      s.ghost.recovered = [⟨1, sampleOps 1⟩, ⟨2, sampleOps 2⟩] := by decide +kernel
  exact ⟨s, hrun, hacked, hrecovered, log_keeps_acknowledged (by decide +kernel) hrun⟩

/-- The second commit is cut after ten bytes. After the crash it is made again, with the
same number, and acknowledged. -/
def sampleTornRun : List (DbStep Nat Unit) :=
  .openWith .full :: (sampleCommit 1 ++ [.write (.upsert "c" "k" 2), .cutLine 10, .crash,
    .openWith .full] ++ sampleCommit 2 ++ [.crash])

/-- The acknowledged commit is glued to what was left of the one before it. -/
theorem torn_tail_loses_acknowledged :
    ∃ s, runFrom (next sampleJson) new sampleTornRun = some s ∧
      Along (next sampleJson) (fun s l => LogStep l ∧ LogAssumed sampleJson s l) new sampleTornRun ∧
      s.ghost.acked = [⟨1, sampleOps 1⟩, ⟨2, sampleOps 2⟩] ∧
      (replayed sampleJson s.files s.wal).toOption = some [⟨1, sampleOps 1⟩] ∧
      ¬ KeepsAcknowledged sampleJson s := by
  obtain ⟨s, hrun, hs, hread⟩ : ∃ s ∈ runFrom (next sampleJson) new sampleTornRun,
      s.ghost.acked = [⟨1, sampleOps 1⟩, ⟨2, sampleOps 2⟩] ∧
      (replayed sampleJson s.files s.wal).toOption = some [⟨1, sampleOps 1⟩] := by decide +kernel
  refine ⟨s, hrun, by decide +kernel, hs, hread, ?_⟩
  rintro ⟨es, hes, -, -, hacked⟩
  rw [hes, Except.toOption, Option.some.injEq] at hread
  obtain ⟨before, after, heq, -⟩ := hacked ⟨2, sampleOps 2⟩ (by rw [hs]; simp)
  have hmem : (⟨2, sampleOps 2⟩ : WalEntry Nat) ∈ es := by simp [heq]
  rw [hread, mem_singleton] at hmem
  exact absurd hmem (by decide)

end Db

end Bichon.MemDb
