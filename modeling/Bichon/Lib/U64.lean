import Mathlib.Algebra.Ring.Nat

/-!
# Unsigned 64-bit arithmetic

A result that does not fit wraps around in a release build. In a debug build the
operation panics, which is `none` here. A computation that gives the same result in both
builds has met no result that does not fit.
-/

namespace U64

inductive Build where
  | release
  | debug
  deriving DecidableEq, Repr

/-- A result as the build stores it. -/
def fit (build : Build) (n : Nat) : Option Nat :=
  if n < 2 ^ 64 then some n
  else
    match build with
    | .release => some (n % 2 ^ 64)
    | .debug => none

section

variable (build : Build) (x y : Nat)

def add : Option Nat := fit build (x + y)

def mul : Option Nat := fit build (x * y)

def sub : Option Nat :=
  if y ≤ x then some (x - y)
  else
    match build with
    | .release => some (x + 2 ^ 64 - y)
    | .debug => none

/-- `iter().sum()`. -/
def sum (build : Build) (xs : List Nat) : Option Nat := xs.foldlM (add build) 0

end

theorem fit_of_lt {n : Nat} (h : n < 2 ^ 64) (build : Build) : fit build n = some n := if_pos h

theorem fit_debug_of_le {n : Nat} (h : 2 ^ 64 ≤ n) : fit .debug n = none :=
  if_neg (Nat.not_lt.mpr h)

theorem sub_of_le {x y : Nat} (h : y ≤ x) (build : Build) : sub build x y = some (x - y) := if_pos h

theorem foldlM_add_of_lt (build : Build) {xs : List Nat} {n : Nat} (h : n + xs.sum < 2 ^ 64) :
    xs.foldlM (add build) n = some (n + xs.sum) := by
  induction xs generalizing n with
  | nil => rfl
  | cons x xs ih =>
    rw [List.sum_cons, ← Nat.add_assoc] at h ⊢
    rw [List.foldlM_cons, add, fit_of_lt (by omega)]
    exact ih h

theorem sum_of_lt {xs : List Nat} (h : xs.sum < 2 ^ 64) (build : Build) :
    sum build xs = some xs.sum := by
  rw [sum, foldlM_add_of_lt build (by omega), Nat.zero_add]

end U64
