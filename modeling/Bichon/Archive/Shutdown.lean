import Bichon.Lib.Transition
import Mathlib.Data.List.Basic

/-!
# The writer tasks at shutdown

A writer task takes what is queued from its channel and writes it. Its loop selects among
the branches that are ready, in any order. The writer of the envelopes commits when enough
documents are pending, with every tick and for a backup, and its branch for the signal
commits what is pending. The one of the blobs writes every batch, and its branch for the
signal first takes what is left in the channel.

`early` is read by no step. It is what was queued before the signal.
-/

namespace Bichon.Archive

open Transition List

inductive WriterTask
  | envelopes
  | blobs
  deriving DecidableEq

/-- The number of pending documents that is committed after a batch. -/
def WriterTask.commitThreshold : WriterTask → Nat
  | envelopes => 1000
  | blobs => 0

structure WriterLoop (D : Type) where
  channel : List D := []
  added : List D := []
  committed : List D := []
  pendingCount : Nat := 0
  /-- in a batch, the number of pending documents that its end commits -/
  batch : Option Nat := none
  signalled : Bool := false
  stopped : Bool := false
  early : List D := []

inductive WriterStep (D : Type)
  | queue (d : D)
  | receive
  | flush
  | tryRecv
  | tick
  | signal
  /-- the branch for the signal; `shutdown()` returns after it -/
  | shutdown

namespace WriterLoop

variable {D : Type} (task : WriterTask)

def commit (s : WriterLoop D) : WriterLoop D :=
  { s with committed := s.committed ++ s.added, added := [], pendingCount := 0 }

def add (s : WriterLoop D) (docs rest : List D) : WriterLoop D :=
  { s with
    channel := rest
    added := s.added ++ docs
    pendingCount := s.pendingCount + docs.length }

def commitFrom (n : Nat) (s : WriterLoop D) : WriterLoop D :=
  if n ≤ s.pendingCount then s.commit else s

/-- The loop is at its `select`. -/
def Selects (s : WriterLoop D) : Prop := s.stopped = false ∧ s.batch = none

instance (s : WriterLoop D) : Decidable s.Selects := inferInstanceAs (Decidable (_ ∧ _))

/-- The channel takes a hundred documents. A document for a task that has ended is lost. -/
def next (s : WriterLoop D) : WriterStep D → Option (WriterLoop D)
  | .queue d =>
    if s.stopped then some s
    else if s.channel.length < 100 then
      some { s with
        channel := s.channel ++ [d]
        early := if s.signalled then s.early else s.early ++ [d] }
    else none
  | .receive =>
    if s.Selects ∧ s.channel ≠ [] then some { s with batch := some task.commitThreshold } else none
  | .flush => if s.Selects ∧ task = .envelopes then some { s with batch := some 1 } else none
  | .tryRecv =>
    match s.batch, s.channel with
    | none, _ => none
    | some n, [] => some { s.commitFrom n with batch := none }
    | some _, d :: rest => some (s.add [d] rest)
  | .tick => if s.Selects ∧ task = .envelopes then some (s.commitFrom 1) else none
  | .signal => if s.signalled then none else some { s with signalled := true }
  | .shutdown =>
    if s.signalled ∧ s.Selects then
      let s := match task with
        | .envelopes => s
        | .blobs => s.add s.channel []
      some { s.commitFrom 1 with stopped := true }
    else none

/-- The branch for the signal empties the channel, or nothing that was queued before the
signal is still in there. -/
def ShutsDownLate (s : WriterLoop D) : WriterStep D → Prop
  | .shutdown => task = .blobs ∨ ∀ d ∈ s.channel, d ∉ s.early
  | _ => True

instance [DecidableEq D] (s : WriterLoop D) :
    (l : WriterStep D) → Decidable (ShutsDownLate task s l)
  | .shutdown => inferInstanceAs (Decidable (_ ∨ _))
  | .queue _ | .receive | .flush | .tryRecv | .tick | .signal => isTrue trivial

/-- Nothing that was queued before the signal is lost. -/
structure Kept (s : WriterLoop D) : Prop where
  early : ∀ d ∈ s.early, d ∈ s.committed ++ s.added ++ s.channel
  counted : s.pendingCount = s.added.length
  done : s.stopped = true → s.signalled = true ∧ s.batch = none ∧ ∀ d ∈ s.early, d ∈ s.committed

variable {task} {s t : WriterLoop D}

section

variable (h : s.Kept)

include h

theorem Kept.withBatch (hs : s.stopped = false) (batch : Option Nat) :
    ({ s with batch } : WriterLoop D).Kept where
  early := h.early
  counted := h.counted
  done := by simp [hs]

theorem Kept.add (hs : s.stopped = false) {docs rest : List D}
    (hchannel : s.channel = docs ++ rest) : (s.add docs rest).Kept where
  early d hd := by simpa [WriterLoop.add, hchannel] using h.early d hd
  counted := by simp [WriterLoop.add, h.counted]
  done := by simp [WriterLoop.add, hs]

theorem Kept.commit (hs : s.stopped = false) : s.commit.Kept where
  early d hd := by simpa [WriterLoop.commit] using h.early d hd
  counted := rfl
  done := by simp [WriterLoop.commit, hs]

theorem Kept.commitFrom (hs : s.stopped = false) (n : Nat) : (s.commitFrom n).Kept := by
  rw [WriterLoop.commitFrom]
  split
  · exact h.commit hs
  · exact h

/-- Without a pending document there is nothing to commit. -/
theorem Kept.commitFrom_one : s.commitFrom 1 = s.commit := by
  rw [WriterLoop.commitFrom]
  split
  next => rfl
  next hnone =>
    have hcount : s.pendingCount = 0 := by omega
    have hadded : s.added = [] := by rw [← length_eq_zero_iff, ← h.counted, hcount]
    rw [WriterLoop.commit, hadded, append_nil, ← hadded, ← hcount]

/-- After the last commit only the channel can hold something back. -/
theorem Kept.stop (hsignalled : s.signalled = true) (hbatch : s.batch = none)
    (hchannel : ∀ d ∈ s.channel, d ∉ s.early) :
    ({ s.commitFrom 1 with stopped := true } : WriterLoop D).Kept := by
  have hcommitted : ∀ d ∈ s.early, d ∈ s.commit.committed := fun d hd =>
    (mem_append.mp (h.early d hd)).resolve_right fun hin => hchannel d hin hd
  rw [h.commitFrom_one]
  exact ⟨fun d hd => mem_append_left _ (mem_append_left _ (hcommitted d hd)), rfl,
    fun _ => ⟨hsignalled, hbatch, hcommitted⟩⟩

theorem Kept.queue (hs : s.stopped = false) (d : D) : ({ s with
      channel := s.channel ++ [d]
      early := if s.signalled then s.early else s.early ++ [d] } : WriterLoop D).Kept where
  early e he := by
    split at he
    · rw [← append_assoc]
      exact mem_append_left _ (h.early e he)
    · rw [← append_assoc, mem_append]
      exact (mem_append.mp he).imp_left (h.early e)
  counted := h.counted
  done := by simp [hs]

theorem Kept.tryRecv (hnext : s.next task .tryRecv = some t) : t.Kept := by
  rw [WriterLoop.next] at hnext
  cases hbatch : s.batch with
  | none => simp [hbatch] at hnext
  | some n =>
    have hs : s.stopped = false := by
      by_contra hstopped
      simp [(h.done (Bool.of_not_eq_false hstopped)).2.1] at hbatch
    cases hchannel : s.channel with
    | nil =>
      rw [hbatch, hchannel] at hnext
      cases hnext
      exact (h.commitFrom hs n).withBatch (by rw [WriterLoop.commitFrom]; split <;> exact hs) none
    | cons d rest =>
      rw [hbatch, hchannel] at hnext
      cases hnext
      exact h.add hs hchannel

theorem Kept.next {l : WriterStep D} (hlate : ShutsDownLate task s l)
    (hnext : s.next task l = some t) : t.Kept := by
  cases l with
  | queue d =>
    rw [WriterLoop.next] at hnext
    split at hnext
    next =>
      cases hnext
      exact h
    next hs =>
      obtain ⟨-, ⟨⟩⟩ := Option.ite_none_right_eq_some.mp hnext
      exact h.queue (Bool.eq_false_iff.mpr hs) d
  | receive | flush =>
    obtain ⟨⟨hs, -⟩, ⟨⟩⟩ := Option.ite_none_right_eq_some.mp hnext
    exact h.withBatch hs.1 _
  | tryRecv => exact h.tryRecv hnext
  | tick =>
    obtain ⟨⟨hs, -⟩, ⟨⟩⟩ := Option.ite_none_right_eq_some.mp hnext
    exact h.commitFrom hs.1 1
  | signal =>
    obtain ⟨hs, ⟨⟩⟩ := Option.ite_none_left_eq_some.mp hnext
    exact ⟨h.early, h.counted, fun hstopped => absurd (h.done hstopped).1 hs⟩
  | shutdown =>
    obtain ⟨⟨hsignalled, hs⟩, ⟨⟩⟩ := Option.ite_none_right_eq_some.mp hnext
    cases task with
    | blobs => exact (h.add hs.1 (append_nil _).symm).stop hsignalled hs.2 nofun
    | envelopes => exact h.stop hsignalled hs.2 (hlate.resolve_left nofun)

end

/-- When `shutdown()` has returned, everything that was queued before the signal is
committed, in every schedule in which the branch for the signal empties the channel or is
only taken with nothing of it left there. The writer of the blobs meets that in every
schedule. -/
theorem shutdown_keeps_queued {ls : List (WriterStep D)}
    (hsteps : Along (next task) (ShutsDownLate task) {} ls)
    (hrun : runFrom (next task) {} ls = some s) (hstopped : s.stopped = true) :
    ∀ d ∈ s.early, d ∈ s.committed := by
  have hkept : s.Kept :=
    hsteps.invariant (I := Kept) (fun h hl hnext => h.next hl hnext) ⟨by simp, rfl, by simp⟩ hrun
  exact (hkept.done hstopped).2.2

/-- The document is received before the signal and committed by its branch. -/
theorem shutdown_keeps_queued_received :
    ∃ s, runFrom (next .envelopes) {}
        [.queue 1, .receive, .tryRecv, .tryRecv, .signal, .shutdown] = some s ∧
      s.early = [1] ∧ ∀ d ∈ s.early, d ∈ s.committed := by
  have hsteps : Along (next .envelopes) (ShutsDownLate .envelopes) {}
      [.queue 1, .receive, .tryRecv, .tryRecv, .signal, .shutdown] := by
    decide
  exact ⟨_, rfl, rfl, shutdown_keeps_queued hsteps rfl rfl⟩

/-- The document is still in the channel when the branch for the signal is taken. -/
theorem envelope_lost_at_shutdown :
    ∃ s, runFrom (next .envelopes) {} [.queue 1, .signal, .shutdown] = some s ∧
      s.stopped = true ∧ s.early = [1] ∧ s.committed = [] :=
  ⟨_, rfl, rfl, rfl, rfl⟩

end WriterLoop

end Bichon.Archive
