import Bichon.Lib.Durable

/-!
# Calls to a remote store

A call to a store on another machine may fail, and a failed write may have taken
effect all the same: only the answer was lost. `Reply` says how one call ends.
A program of such calls is a `Prog`; the replies are given from outside, one for
each call, so that a statement about every pattern of failures quantifies over
them.
-/

namespace Remote

open Durable

/-- How a call ends. -/
inductive Reply where
  /-- it does its work and returns -/
  | ok
  /-- it returns an error and has done nothing -/
  | refused
  /-- it returns an error although the work was done -/
  | applied
deriving DecidableEq, Repr

variable {σ ε α β : Type}

def read (reply : Reply) (e : ε) (f : σ → α) : Prog σ ε α :=
  match reply with
  | .ok => do return f (← Prog.state)
  | _ => Prog.fail e

def write (reply : Reply) (e : ε) (f : σ → σ) : Prog σ ε Unit :=
  match reply with
  | .ok => Prog.durable f
  | .refused => Prog.fail e
  | .applied => do
      Prog.durable f
      Prog.fail e

@[simp] theorem read_ok (e : ε) (f : σ → α) (s : σ) :
    (read .ok e f : Prog σ ε α) s = ⟨.ok (f s), s, []⟩ := rfl

@[simp] theorem write_ok (e : ε) (f : σ → σ) : write .ok e f = Prog.durable f := rfl

variable {reply : Reply} {e : ε} {f : σ → α} {s : σ}

theorem read_result_eq_ok {a : α} :
    ((read reply e f : Prog σ ε α) s).result = .ok a ↔ reply = .ok ∧ f s = a := by
  cases reply with
  | ok => simp
  | refused | applied => simp [read, Prog.fail]

theorem readOnly_read : (read reply e f : Prog σ ε α).ReadOnly := by
  cases reply with
  | ok => exact fun _ => ⟨rfl, rfl⟩
  | refused | applied => exact Prog.ReadOnly.fail e

variable {J K : σ → Prop}

/-- A read with what follows it. -/
theorem yields_read_bind {g : α → Prog σ ε β}
    {Q : β → σ → Prop} (hJ : reply ≠ .ok → J s)
    (h : reply = .ok → Yields (g (f s)) s Q J K) : Yields (read reply e f >>= g) s Q J K := by
  cases reply with
  | ok => exact h rfl
  | refused | applied => exact Yields.fail (hJ (by simp))

/-- A write that may fail: whichever way it ends, the state is the old one or the
new one. -/
theorem yields_write {f : σ → σ} {Q : Unit → σ → Prop}
    (hQ : reply = .ok → Q () (f s)) (hrefused : reply = .refused → J s)
    (happlied : reply = .applied → J (f s)) (hK : reply ≠ .refused → K (f s)) :
    Yields (write reply e f : Prog σ ε Unit) s Q J K := by
  cases reply with
  | ok => exact Yields.durable (hQ rfl) (hK (by simp))
  | refused => exact Yields.fail (hrefused rfl)
  | applied => exact Yields.durable_bind (hK (by simp)) (Yields.fail (happlied rfl))

theorem yields_write_bind {f : σ → σ} {g : Unit → Prog σ ε β} {Q : β → σ → Prop}
    (hrefused : reply = .refused → J s) (happlied : reply = .applied → J (f s))
    (hK : reply ≠ .refused → K (f s)) (h : reply = .ok → Yields (g ()) (f s) Q J K) :
    Yields (write reply e f >>= g) s Q J K :=
  Yields.bind (P := fun _ t => reply = .ok ∧ t = f s)
    (yields_write (fun hr => ⟨hr, rfl⟩) hrefused happlied hK)
    fun _ _ ht => ht.2 ▸ h ht.1

end Remote
