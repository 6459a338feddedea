import Bichon.Lib.Bytes
import Mathlib.Algebra.Order.Monoid.Canonical.Basic
import Mathlib.Algebra.Order.Group.Nat

/-!
# File handles whose operations can fail

Code that works on an open file issues its operations one after the other and
ends with the first that fails. A failing write may have put down any number of
its bytes, and the position of the handle stays behind them. The outside is a
table of faults: which operation of the call fails and how many bytes it wrote
before.

`Performs` describes a piece of code by the number of its operations and by what
it does to the file when none of them fails; `Keeps` is the rule for what holds of
the file at whichever operation the code ends.
-/

namespace ByteFile

/-- A handle in the middle of a call: the open file and the number of operations
issued so far. -/
structure Handle where
  cursor : Cursor
  ops : Nat

/-- The operations that fail: the `i`-th one fails after `n` bytes if
`faults i = some n`. -/
abbrev Faults := Nat → Option Nat

/-- Code on a handle, with no result once an operation has failed. -/
def FileM (α : Type) := Handle → Option α × Handle

namespace FileM

variable {α β : Type}

instance : Monad FileM where
  pure a := fun handle => (some a, handle)
  bind m k := fun handle =>
    match m handle with
    | (some a, handle') => k a handle'
    | (none, handle') => (none, handle')

variable {m : FileM α} {k : α → FileM β}

theorem bind_of_eq_some {handle handle' : Handle} {a : α}
    (h : m handle = (some a, handle')) : (m >>= k) handle = k a handle' := by
  simp only [bind, h]

theorem bind_of_eq_none {handle handle' : Handle}
    (h : m handle = (none, handle')) : (m >>= k) handle = (none, handle') := by
  simp only [bind, h]

/-! ## The operations -/

def writeAll (faults : Faults) (bs : Bytes) : FileM Unit := fun handle =>
  match faults handle.ops with
  | none => (some (), ⟨handle.cursor.writeAll bs, handle.ops + 1⟩)
  | some n => (none, ⟨handle.cursor.writeAll (bs.take n), handle.ops + 1⟩)

def streamPosition (faults : Faults) : FileM Nat := fun handle =>
  match faults handle.ops with
  | none => (some handle.cursor.pos, ⟨handle.cursor, handle.ops + 1⟩)
  | some _ => (none, ⟨handle.cursor, handle.ops + 1⟩)

/-- A failing seek leaves the position where it was. -/
def seek (faults : Faults) (target : Cursor → Cursor) : FileM Unit := fun handle =>
  match faults handle.ops with
  | none => (some (), ⟨target handle.cursor, handle.ops + 1⟩)
  | some _ => (none, ⟨handle.cursor, handle.ops + 1⟩)

/-! ## What code does when nothing fails -/

/-- The code issues `n` operations; it succeeds exactly when none of them fails,
and then it turns the file `c` into `f c` and returns `v c`. -/
structure Performs (faults : Faults) (m : FileM α) (n : Nat) (f : Cursor → Cursor)
    (v : Cursor → α) : Prop where
  ok : ∀ handle, (∀ i < n, faults (handle.ops + i) = none) →
    m handle = (some (v handle.cursor), ⟨f handle.cursor, handle.ops + n⟩)
  fails : ∀ handle, ¬ (∀ i < n, faults (handle.ops + i) = none) → (m handle).1 = none

section

variable (faults : Faults)

theorem forall_lt_one_iff (ops : Nat) : (∀ i < 1, faults (ops + i) = none) ↔ faults ops = none := by
  simp

theorem performs_writeAll (bs : Bytes) :
    Performs faults (writeAll faults bs) 1 (Cursor.writeAll bs) (fun _ => ()) where
  ok handle h := by
    rw [forall_lt_one_iff] at h
    simp only [writeAll, h]
  fails handle h := by
    rw [forall_lt_one_iff] at h
    obtain ⟨n, hn⟩ := Option.ne_none_iff_exists'.mp h
    simp only [writeAll, hn]

theorem performs_streamPosition : Performs faults (streamPosition faults) 1 id Cursor.pos where
  ok handle h := by
    rw [forall_lt_one_iff] at h
    simp only [streamPosition, h, id_eq]
  fails handle h := by
    rw [forall_lt_one_iff] at h
    obtain ⟨n, hn⟩ := Option.ne_none_iff_exists'.mp h
    simp only [streamPosition, hn]

theorem performs_seek (target : Cursor → Cursor) :
    Performs faults (seek faults target) 1 target (fun _ => ()) where
  ok handle h := by
    rw [forall_lt_one_iff] at h
    simp only [seek, h]
  fails handle h := by
    rw [forall_lt_one_iff] at h
    obtain ⟨n, hn⟩ := Option.ne_none_iff_exists'.mp h
    simp only [seek, hn]

end

theorem Performs.bind {faults : Faults} {n n' : Nat}
    {f : Cursor → Cursor} {v : Cursor → α} {f' : α → Cursor → Cursor} {v' : α → Cursor → β}
    (hm : Performs faults m n f v) (hk : ∀ a, Performs faults (k a) n' (f' a) (v' a)) :
    Performs faults (m >>= k) (n + n') (fun c => f' (v c) (f c)) (fun c => v' (v c) (f c)) where
  ok handle h := by
    rw [forall_lt_add_iff_lt_left] at h
    rw [bind_of_eq_some (hm.ok handle h.1), (hk _).ok]
    · simp only [Nat.add_assoc]
    · intro i hi
      simpa only [Nat.add_assoc] using h.2 i hi
  fails handle h := by
    rw [forall_lt_add_iff_lt_left] at h
    by_cases hfirst : ∀ i < n, faults (handle.ops + i) = none
    · rw [bind_of_eq_some (hm.ok handle hfirst)]
      apply (hk _).fails
      intro hrest
      apply h
      refine ⟨hfirst, fun i hi => ?_⟩
      simpa only [Nat.add_assoc] using hrest i hi
    · rw [bind_of_eq_none (Prod.ext (hm.fails handle hfirst) rfl)]

/-! ## What holds wherever the code ends -/

/-- From a file with `I` the code ends, whether it fails or not, in a file with
`I`, and what it returns satisfies `Q`. -/
def Keeps (I : Cursor → Prop) (m : FileM α) (Q : α → Prop) : Prop :=
  ∀ handle, I handle.cursor → I (m handle).2.cursor ∧ ∀ a ∈ (m handle).1, Q a

theorem Keeps.bind {I : Cursor → Prop} {Q : α → Prop}
    {R : β → Prop} (hm : Keeps I m Q) (hk : ∀ a, Q a → Keeps I (k a) R) :
    Keeps I (m >>= k) R := by
  intro handle hI
  obtain ⟨hI', hQ⟩ := hm handle hI
  cases hrun : m handle with
  | mk result handle' =>
    rw [hrun] at hI' hQ
    cases result with
    | none =>
      rw [bind_of_eq_none hrun]
      exact ⟨hI', by simp⟩
    | some a =>
      rw [bind_of_eq_some hrun]
      exact hk a (hQ a rfl) handle' hI'

/-- The file reaches up to `p` and the handle stands there or behind. -/
def Past (p : Nat) (c : Cursor) : Prop := p ≤ c.pos ∧ p ≤ c.content.length

variable {p : Nat}

theorem past_writeAll {c : Cursor} (bs : Bytes) (h : p ≤ c.pos + bs.length) :
    Past p (c.writeAll bs) := by
  refine ⟨h, ?_⟩
  simp only [Cursor.writeAll, List.length_append, List.length_take, List.length_replicate,
    List.length_drop]
  omega

section

variable (faults : Faults) (p : Nat)

theorem keeps_past_writeAll (bs : Bytes) : Keeps (Past p) (writeAll faults bs) fun _ => True := by
  intro handle hpast
  refine ⟨?_, fun _ _ => trivial⟩
  unfold writeAll
  split <;> exact past_writeAll _ (Nat.le_add_right_of_le hpast.1)

theorem keeps_past_streamPosition : Keeps (Past p) (streamPosition faults) fun pos => p ≤ pos := by
  intro handle hpast
  unfold streamPosition
  split
  · refine ⟨hpast, ?_⟩
    intro pos hpos
    cases hpos
    exact hpast.1
  · exact ⟨hpast, by simp⟩

theorem keeps_past_seek {target : Cursor → Cursor} (htarget : ∀ c, Past p c → Past p (target c)) :
    Keeps (Past p) (seek faults target) fun _ => True := by
  intro handle hpast
  refine ⟨?_, fun _ _ => trivial⟩
  unfold seek
  split
  · exact htarget _ hpast
  · exact hpast

end

theorem past_seekStart {pos : Nat} (h : p ≤ pos) (c : Cursor) (hpast : Past p c) :
    Past p (c.seekStart pos) :=
  ⟨h, hpast.2⟩

theorem past_seekEnd (c : Cursor) (hpast : Past p c) : Past p c.seekEnd := ⟨hpast.2, hpast.2⟩

end FileM

end ByteFile
