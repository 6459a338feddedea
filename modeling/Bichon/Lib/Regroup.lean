import Mathlib.Data.Nat.Digits.Lemmas

/-!
# Regrouping bits

A stream of groups of `a` bits is turned into groups of `b` bits with a buffer for the
bits that do not fill a group yet. `Regroups` says what the groups read, the groups
written and the buffer have to do with each other; `take` and `emit` are the two moves.
A stream that was written without a loss is read back by regrouping it the other way.
-/

namespace Bichon.Regroup

/-- The number written by digits, the most significant one first. -/
def number (base : Nat) (digits : List Nat) : Nat := Nat.ofDigits base digits.reverse

theorem number_concat (base : Nat) (digits : List Nat) (d : Nat) :
    number base (digits ++ [d]) = base * number base digits + d := by
  rw [number, List.reverse_concat, Nat.ofDigits_cons, number, Nat.add_comm]

/-- `xs` was read and `ys` written; the low `bits` bits of the buffer are still to be
written. -/
structure Regroups (a b : Nat) (xs ys : List Nat) (buffer bits : Nat) : Prop where
  length_eq : a * xs.length = b * ys.length + bits
  number_eq : number (2 ^ a) xs = number (2 ^ b) ys * 2 ^ bits + buffer % 2 ^ bits

namespace Regroups

variable {a b : Nat} {xs ys : List Nat} {buffer bits : Nat}

theorem start (a b : Nat) : Regroups a b [] [] 0 0 := ⟨rfl, rfl⟩

theorem take (h : Regroups a b xs ys buffer bits) {x : Nat} (hx : x < 2 ^ a) :
    Regroups a b (xs ++ [x]) ys (buffer <<< a ||| x) (bits + a) where
  length_eq := by
    have := h.length_eq
    rw [List.length_append, List.length_singleton, Nat.mul_add]
    omega
  number_eq := by
    have hdiv : (2 ^ a * buffer + x) / 2 ^ a = buffer := by
      rw [Nat.mul_add_div (Nat.two_pow_pos a), Nat.div_eq_of_lt hx, Nat.add_zero]
    rw [number_concat, h.number_eq, ← Nat.shiftLeft_add_eq_or_of_lt hx, Nat.shiftLeft_eq,
      Nat.mul_comm buffer, Nat.add_comm bits, Nat.pow_add, Nat.mod_mul, hdiv, Nat.mul_add_mod,
      Nat.mod_eq_of_lt hx]
    ring

theorem emit (h : Regroups a b xs ys buffer (bits + b)) :
    Regroups a b xs (ys ++ [buffer >>> bits &&& (2 ^ b - 1)]) buffer bits where
  length_eq := by
    have := h.length_eq
    rw [List.length_append, List.length_singleton, Nat.mul_add]
    omega
  number_eq := by
    rw [number_concat, h.number_eq, Nat.and_two_pow_sub_one_eq_mod, Nat.shiftRight_eq_div_pow,
      Nat.pow_add, Nat.mod_mul]
    ring

theorem mask (h : Regroups a b xs ys buffer bits) :
    Regroups a b xs ys (buffer &&& (1 <<< bits - 1)) bits where
  length_eq := h.length_eq
  number_eq := by
    rw [Nat.shiftLeft_eq, Nat.one_mul, Nat.and_two_pow_sub_one_eq_mod, Nat.mod_mod]
    exact h.number_eq

/-- What is left in the buffer is written with zeros behind it. -/
theorem flush (h : Regroups a b xs ys buffer bits) (hbits : bits ≤ b) :
    b * (ys ++ [buffer <<< (b - bits) &&& (2 ^ b - 1)]).length = a * xs.length + (b - bits) ∧
      number (2 ^ b) (ys ++ [buffer <<< (b - bits) &&& (2 ^ b - 1)]) =
        number (2 ^ a) xs * 2 ^ (b - bits) := by
  have hpow : 2 ^ b = 2 ^ bits * 2 ^ (b - bits) := by rw [← Nat.pow_add, Nat.add_sub_cancel' hbits]
  constructor
  · rw [List.length_append, List.length_singleton, h.length_eq, Nat.mul_add]
    omega
  · rw [number_concat, h.number_eq, Nat.and_two_pow_sub_one_eq_mod, Nat.shiftLeft_eq, hpow,
      Nat.mul_mod_mul_right]
    ring

/-- The groups `zs` stand in front of fewer bits than one of them has, all zero: they
are what is written. -/
theorem eq_of_padded (h : Regroups a b xs ys buffer bits) {zs : List Nat} {padding : Nat}
    (hbits : bits < b) (hpadding : padding < b) (hb : 0 < b)
    (hlength : a * xs.length = b * zs.length + padding)
    (hnumber : number (2 ^ a) xs = number (2 ^ b) zs * 2 ^ padding)
    (hys : ∀ y ∈ ys, y < 2 ^ b) (hzs : ∀ z ∈ zs, z < 2 ^ b) : ys = zs := by
  have hlengths : ys.length = zs.length ∧ bits = padding := by
    have hdiv := congrArg (· / b) (h.length_eq.symm.trans hlength)
    have hmod := congrArg (· % b) (h.length_eq.symm.trans hlength)
    simp only [Nat.mul_add_div hb, Nat.mul_add_mod, Nat.div_eq_of_lt, Nat.mod_eq_of_lt, hbits,
      hpadding] at hdiv hmod
    exact ⟨hdiv, hmod⟩
  have hnumbers : number (2 ^ b) ys = number (2 ^ b) zs := by
    have hdiv := congrArg (· / 2 ^ padding) (h.number_eq.symm.trans hnumber)
    simpa [hlengths.2, Nat.mul_add_div, Nat.mul_comm _ (2 ^ padding),
      Nat.div_eq_of_lt (Nat.mod_lt buffer (Nat.two_pow_pos padding))] using hdiv
  have hreverse := Nat.ofDigits_inj_of_len_eq (Nat.one_lt_two_pow hb.ne')
    (by simpa using hlengths.1) (by simpa using hys) (by simpa using hzs) hnumbers
  exact List.reverse_injective hreverse

end Regroups

end Bichon.Regroup
