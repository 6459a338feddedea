import Mathlib.Data.List.Induction
import Mathlib.Tactic.IntervalCases

/-!
# Decimal texts of a fixed width

`zeroPadded width n` is the decimal text of `n`, filled up on the left with
zeros to at least `width` characters. Below `10 ^ width` it has exactly `width`
digits, and every text of `width` digits is the padded text of its value
(`zeroPadded_value`), so that numbers below `10 ^ width` and texts of `width`
digits are the same thing.
-/

namespace Decimal

open List

/-- The decimal text of `n`, with zeros in front up to the width. -/
def zeroPadded (width n : Nat) : List Char := List.leftpad width '0' (Nat.toDigits 10 n)

/-- A text of decimal digits. The empty text is one. -/
def IsDigits (text : List Char) : Prop := ∀ c ∈ text, c.isDigit = true

instance (text : List Char) : Decidable (IsDigits text) :=
  inferInstanceAs (Decidable (∀ c ∈ text, c.isDigit = true))

def digitValue (c : Char) : Nat := c.toNat - '0'.toNat

/-- The number a text of digits stands for, the most significant digit first. -/
def value (text : List Char) : Nat := text.foldl (fun n c => 10 * n + digitValue c) 0

@[simp] theorem value_nil : value [] = 0 := rfl

@[simp] theorem value_concat (text : List Char) (c : Char) :
    value (text ++ [c]) = 10 * value text + digitValue c := by
  simp [value]

@[simp] theorem isDigits_concat {text : List Char} {c : Char} :
    IsDigits (text ++ [c]) ↔ IsDigits text ∧ c.isDigit = true := by
  simp only [IsDigits, mem_append, mem_singleton]
  constructor
  · intro h
    exact ⟨fun d hd => h d (.inl hd), h c (.inr rfl)⟩
  · rintro ⟨ht, hc⟩ d (hd | rfl)
    · exact ht d hd
    · exact hc

theorem digitValue_lt_ten {c : Char} (h : c.isDigit = true) : digitValue c < 10 := by
  simp only [Char.isDigit, Bool.and_eq_true, decide_eq_true_eq] at h
  have hle : c.toNat ≤ 57 := h.2
  simp only [digitValue, Char.reduceToNat]
  omega

theorem digitChar_digitValue {c : Char} (h : c.isDigit = true) :
    Nat.digitChar (digitValue c) = c := by
  simp only [Char.isDigit, Bool.and_eq_true, decide_eq_true_eq] at h
  have hlo : 48 ≤ c.toNat := h.1
  have hhi : c.toNat ≤ 57 := h.2
  have hdigit : ∀ n, 48 ≤ n → n ≤ 57 → Nat.digitChar (n - 48) = Char.ofNat n := by
    intro n _ _
    interval_cases n <;> rfl
  exact (hdigit c.toNat hlo hhi).trans (Char.ofNat_toNat c)

theorem isDigit_digitChar {n : Nat} (h : n < 10) : (Nat.digitChar n).isDigit = true := by
  interval_cases n <;> rfl

/-- A text of `w` digits is below `10 ^ w`. -/
theorem value_lt {text : List Char} (h : IsDigits text) : value text < 10 ^ text.length := by
  induction text using reverseRecOn with
  | nil => simp
  | append_singleton text c ih =>
    rw [isDigits_concat] at h
    have hlt := ih h.1
    have hc := digitValue_lt_ten h.2
    rw [value_concat, length_append, length_singleton, Nat.pow_succ]
    omega

/-- Padding to one more character leaves the last digit in its place. -/
theorem zeroPadded_succ {width : Nat} (hw : 0 < width) (n : Nat) :
    zeroPadded (width + 1) n = zeroPadded width (n / 10) ++ [Nat.digitChar (n % 10)] := by
  by_cases hn : n < 10
  · -- The quotient is the single digit zero, which the padding absorbs.
    have hdiv : n / 10 = 0 := Nat.div_eq_of_lt hn
    have hrep : replicate width '0' = replicate (width - 1) '0' ++ ['0'] := by
      rw [← replicate_succ', Nat.sub_add_cancel hw]
    rw [zeroPadded, zeroPadded, hdiv, Nat.mod_eq_of_lt hn,
      Nat.toDigits_of_lt_base hn, Nat.toDigits_of_lt_base (by omega)]
    simp only [leftpad, length_singleton, Nat.add_sub_cancel, hrep]
    rfl
  · rw [zeroPadded, zeroPadded, Nat.toDigits_of_base_le (by omega) (by omega)]
    simp [leftpad]

theorem zeroPadded_one {n : Nat} (h : n < 10) : zeroPadded 1 n = [Nat.digitChar n] := by
  simp [zeroPadded, Nat.toDigits_of_lt_base h, leftpad]

/-- A number that fits into the width is written with exactly that many
digits. -/
theorem zeroPadded_spec {width n : Nat} (hw : 0 < width) (h : n < 10 ^ width) :
    (zeroPadded width n).length = width ∧ IsDigits (zeroPadded width n) := by
  induction width, hw using Nat.le_induction generalizing n with
  | base =>
    have hn : n < 10 := h
    rw [zeroPadded_one hn]
    exact ⟨rfl, by simpa [IsDigits] using isDigit_digitChar hn⟩
  | succ width hw ih =>
    have hdiv : n / 10 < 10 ^ width := by
      omega
    obtain ⟨hlen, hdig⟩ := ih hdiv
    rw [zeroPadded_succ hw, isDigits_concat]
    exact ⟨by simp [hlen], hdig, isDigit_digitChar (Nat.mod_lt n (by omega))⟩

/-- A nonempty text of digits is the padded text of its value. -/
theorem zeroPadded_value {text : List Char} (hne : text ≠ [])
    (h : IsDigits text) : zeroPadded text.length (value text) = text := by
  induction text using reverseRecOn with
  | nil => contradiction
  | append_singleton text c ih =>
    rw [isDigits_concat] at h
    have hc := digitValue_lt_ten h.2
    rw [value_concat, length_append, length_singleton]
    by_cases ht : text = []
    · subst ht
      rw [value_nil, length_nil, zeroPadded_one (by omega)]
      simp [digitChar_digitValue h.2]
    · have hdiv : (10 * value text + digitValue c) / 10 = value text := by omega
      have hmod : (10 * value text + digitValue c) % 10 = digitValue c := by omega
      rw [zeroPadded_succ (length_pos_iff.mpr ht), hdiv, hmod, ih ht h.1,
        digitChar_digitValue h.2]

end Decimal
