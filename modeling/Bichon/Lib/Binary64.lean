import Mathlib.Data.Int.Log
import Mathlib.Data.Rat.Floor

/-!
# Rounding to binary64

A positive number is rounded to 53 significant bits, to the nearest number and of two to
the even one. The range of the exponent is left out: the numbers of the users lie far
inside it. `ceilDiv_eq` says that a ceiling of a quotient that is computed with rounded
numbers is the exact one as long as the dividend is below `2 ^ 53`.
-/

namespace Binary64

/-- The integer nearest to a number, and of two the even one. -/
def nearest (q : ℚ) : ℤ :=
  if q - ⌊q⌋ < 1 / 2 then ⌊q⌋
  else if 1 / 2 < q - ⌊q⌋ then ⌊q⌋ + 1
  else if ⌊q⌋ % 2 = 0 then ⌊q⌋
  else ⌊q⌋ + 1

/-- The distance of the numbers with 53 bits around a positive number. -/
def ulp (q : ℚ) : ℚ := 2 ^ (Int.log 2 q - 52)

def round (q : ℚ) : ℚ := nearest (q / ulp q) * ulp q

/-! ### Integers -/

theorem nearest_eq_floor_or (q : ℚ) : nearest q = ⌊q⌋ ∨ nearest q = ⌊q⌋ + 1 := by
  unfold nearest
  split_ifs <;> simp

theorem abs_nearest_sub_le (q : ℚ) : |(nearest q : ℚ) - q| ≤ 1 / 2 := by
  have hlo := Int.floor_le q
  have hhi := Int.lt_floor_add_one q
  unfold nearest
  rw [abs_le]
  split_ifs with h₁ h₂ h₃
  · constructor <;> linarith
  · push_cast
    constructor <;> linarith
  · constructor <;> linarith
  · push_cast
    constructor <;> linarith

theorem le_nearest {q : ℚ} {z : ℤ} (h : (z : ℚ) ≤ q) : z ≤ nearest q := by
  have hfloor : z ≤ ⌊q⌋ := Int.le_floor.mpr h
  rcases nearest_eq_floor_or q with heq | heq
  · omega
  · omega

theorem nearest_le {q : ℚ} {z : ℤ} (h : q ≤ z) : nearest q ≤ z := by
  have habs := (abs_le.mp (abs_nearest_sub_le q)).2
  have hlt : (nearest q : ℚ) < (z + 1 : ℤ) := by
    push_cast
    linarith
  exact Int.lt_add_one_iff.mp (Int.cast_lt.mp hlt)

theorem nearest_intCast (z : ℤ) : nearest (z : ℚ) = z :=
  le_antisymm (nearest_le le_rfl) (le_nearest le_rfl)

/-! ### Rounding -/

section

variable {q : ℚ} (hq : 0 < q)

theorem ulp_pos (q : ℚ) : 0 < ulp q := zpow_pos two_pos _

theorem two_pow_mul_ulp (q : ℚ) (n : ℕ) : 2 ^ n * ulp q = 2 ^ (Int.log 2 q + n - 52) := by
  rw [ulp, ← zpow_natCast, ← zpow_add₀ two_ne_zero]
  congr 1
  ring

theorem div_ulp_lt (q : ℚ) : q / ulp q < 2 ^ 53 := by
  rw [div_lt_iff₀ (ulp_pos q), two_pow_mul_ulp]
  have h := Int.lt_zpow_succ_log_self one_lt_two q
  have hexp : Int.log 2 q + (53 : ℕ) - 52 = Int.log 2 q + 1 := by
    push_cast
    ring
  rw [hexp]
  exact_mod_cast h

include hq

theorem two_pow_le_div_ulp : 2 ^ 52 ≤ q / ulp q := by
  rw [le_div_iff₀ (ulp_pos q), two_pow_mul_ulp]
  have h := Int.zpow_log_le_self one_lt_two hq
  simpa using h

theorem ulp_le : ulp q ≤ q / 2 ^ 52 := by
  have h := two_pow_le_div_ulp hq
  rw [le_div_iff₀ (ulp_pos q)] at h
  rw [le_div_iff₀ (by norm_num), mul_comm]
  exact h

omit hq in
theorem abs_round_sub_le (q : ℚ) : |round q - q| ≤ ulp q / 2 := by
  have hpos := ulp_pos q
  have heq : round q - q = (nearest (q / ulp q) - q / ulp q) * ulp q := by
    rw [round, sub_mul, div_mul_cancel₀ _ hpos.ne']
  rw [heq, abs_mul, abs_of_pos hpos]
  have h := mul_le_mul_of_nonneg_right (abs_nearest_sub_le (q / ulp q)) hpos.le
  linarith

/-- Powers of two stay where they are, so that rounding does not cross them. -/
theorem zpow_le_round {k : ℤ} (h : 2 ^ k ≤ q) : 2 ^ k ≤ round q := by
  have hlog : k ≤ Int.log 2 q := (Int.zpow_le_iff_le_log one_lt_two hq).mp (by exact_mod_cast h)
  have hnear : (2 ^ 52 : ℤ) ≤ nearest (q / ulp q) := le_nearest (by
    push_cast
    exact two_pow_le_div_ulp hq)
  calc (2 : ℚ) ^ k ≤ 2 ^ Int.log 2 q := zpow_le_zpow_right₀ one_le_two hlog
    _ = 2 ^ 52 * ulp q := by rw [two_pow_mul_ulp]; simp
    _ ≤ round q := by
      exact mul_le_mul_of_nonneg_right (by exact_mod_cast hnear) (ulp_pos q).le

theorem round_le_zpow {k : ℤ} (h : q < 2 ^ k) : round q ≤ 2 ^ k := by
  have hlog : Int.log 2 q < k := (Int.lt_zpow_iff_log_lt one_lt_two hq).mp (by exact_mod_cast h)
  have hnear : nearest (q / ulp q) ≤ (2 ^ 53 : ℤ) := nearest_le (by
    exact (div_ulp_lt q).le)
  calc round q ≤ 2 ^ 53 * ulp q := by
        exact mul_le_mul_of_nonneg_right (by exact_mod_cast hnear) (ulp_pos q).le
    _ = 2 ^ (Int.log 2 q + 1) := by
        rw [two_pow_mul_ulp]
        congr 1
        ring
    _ ≤ 2 ^ k := zpow_le_zpow_right₀ one_le_two (by omega)

theorem round_pos : 0 < round q :=
  lt_of_lt_of_le (zpow_pos two_pos _)
    (zpow_le_round hq (k := Int.log 2 q) (by exact_mod_cast Int.zpow_log_le_self one_lt_two hq))

end

/-- The natural numbers of at most 53 bits are numbers of the format. -/
theorem round_natCast {n : ℕ} (h : n ≤ 2 ^ 53) : round n = n := by
  rcases Nat.eq_zero_or_pos n with rfl | hpos
  · have hzero := nearest_intCast 0
    simp only [Int.cast_zero] at hzero
    simp [round, hzero]
  · have hq : (0 : ℚ) < n := by exact_mod_cast hpos
    have hint : ∃ z : ℤ, (n : ℚ) / ulp n = z := by
      rcases Nat.lt_or_ge n (2 ^ 53) with hlt | hge
      · have hlog : Int.log 2 (n : ℚ) < 53 :=
          (Int.lt_zpow_iff_log_lt one_lt_two hq).mp (by exact_mod_cast hlt)
        refine ⟨n * 2 ^ (52 - Int.log 2 (n : ℚ)).toNat, ?_⟩
        rw [div_eq_iff (ulp_pos _).ne', ulp]
        push_cast
        rw [← zpow_natCast, Int.toNat_of_nonneg (by omega), mul_assoc,
          ← zpow_add₀ two_ne_zero]
        simp
      · have heq : n = 2 ^ 53 := le_antisymm h hge
        have hlog : Int.log 2 (n : ℚ) = 53 := by
          rw [heq]
          exact_mod_cast Int.log_zpow (R := ℚ) one_lt_two 53
        refine ⟨2 ^ 52, ?_⟩
        rw [div_eq_iff (ulp_pos _).ne', ulp, hlog, heq]
        norm_num
    obtain ⟨z, hz⟩ := hint
    rw [round, hz, nearest_intCast, ← hz, div_mul_cancel₀ _ (ulp_pos _).ne']

/-! ### The ceiling of a quotient -/

/-- `(a as f64 / b as f64).ceil() as u64`. -/
def ceilDiv (a b : ℕ) : ℕ := min (2 ^ 64 - 1) ⌈round (round a / round b)⌉₊

/-- What is at least `1 / b` away from the integers around it stays between them. -/
theorem round_div_bounds {a b n : ℕ} (ha : 0 < a) (ha' : a < 2 ^ 53) (hb : 0 < b)
    (hlo : (n - 1) * b < a) (hhi : a < n * b) :
    ((n - 1 : ℕ) : ℚ) < round (a / b) ∧ round (a / b) < n := by
  have hb' : (0 : ℚ) < b := by exact_mod_cast hb
  have hq : (0 : ℚ) < a / b := div_pos (by exact_mod_cast ha) hb'
  have herror : |round (a / b) - a / b| < 1 / b := by
    have hulp := ulp_le hq
    have hsmall : (a : ℚ) / b / 2 ^ 52 / 2 < 1 / b := by
      rw [div_div, div_div, div_lt_div_iff₀ (by positivity) hb']
      have hlt : (a : ℚ) < 2 ^ 53 := by exact_mod_cast ha'
      nlinarith
    exact lt_of_le_of_lt (abs_round_sub_le _) (lt_of_le_of_lt (by linarith) hsmall)
  have hlower : ((n - 1 : ℕ) : ℚ) + 1 / b ≤ a / b := by
    rw [← sub_nonneg]
    have h : ((n - 1 : ℕ) : ℚ) * b + 1 ≤ a := by exact_mod_cast hlo
    have heq : (a : ℚ) / b - (((n - 1 : ℕ) : ℚ) + 1 / b) =
        (a - (((n - 1 : ℕ) : ℚ) * b + 1)) / b := by
      field_simp
    rw [heq]
    exact div_nonneg (by linarith) hb'.le
  have hupper : (a : ℚ) / b ≤ n - 1 / b := by
    rw [← sub_nonneg]
    have h : (a : ℚ) + 1 ≤ n * b := by exact_mod_cast hhi
    have heq : ((n : ℚ) - 1 / b) - a / b = (n * b - (a + 1)) / b := by
      field_simp
      ring
    rw [heq]
    exact div_nonneg (by linarith) hb'.le
  have habs := abs_lt.mp herror
  constructor
  · linarith
  · linarith

theorem ceil_round_div {a b : ℕ} (ha : 0 < a) (ha' : a < 2 ^ 53) (hb : 0 < b)
    (hb' : b ≤ 2 ^ 53) : ⌈round ((a : ℚ) / b)⌉₊ = (a + b - 1) / b := by
  have hdiv := Nat.div_add_mod (a + b - 1) b
  have hmod := Nat.mod_lt (a + b - 1) hb
  generalize hn : (a + b - 1) / b = n at hdiv
  have hpos : 0 < n := by
    rw [← hn]
    exact Nat.div_pos (by omega) hb
  have hlo : (n - 1) * b < a := by
    rw [Nat.sub_mul, Nat.one_mul, Nat.mul_comm n b]
    omega
  have hle : a ≤ n * b := by
    rw [Nat.mul_comm n b]
    omega
  rw [Nat.ceil_eq_iff hpos.ne']
  rcases Nat.lt_or_ge a (n * b) with hlt | hge
  · obtain ⟨hlower, hupper⟩ := round_div_bounds ha ha' hb hlo hlt
    exact ⟨hlower, hupper.le⟩
  · have heq : (a : ℚ) / b = n := by
      rw [div_eq_iff (by exact_mod_cast hb.ne'), Nat.le_antisymm hle hge]
      push_cast
      rfl
    have hnle : n ≤ 2 ^ 53 := le_trans (Nat.le_mul_of_pos_right n hb) (by omega)
    rw [heq, round_natCast hnle]
    constructor
    · exact_mod_cast Nat.sub_lt hpos one_pos
    · exact le_rfl

/-- A dividend below `2 ^ 53` over a larger divisor. -/
theorem ceil_round_div_large {a b : ℕ} (ha : 0 < a) (ha' : a < 2 ^ 53) (hb : 2 ^ 53 < b) :
    ⌈round ((a : ℚ) / round b)⌉₊ = 1 := by
  have hbig : (2 : ℚ) ^ 53 ≤ round b := by
    have h := zpow_le_round (q := (b : ℚ)) (k := 53) (by exact_mod_cast Nat.zero_lt_of_lt hb)
      (by exact_mod_cast hb.le)
    exact_mod_cast h
  have hbpos : 0 < round (b : ℚ) := lt_of_lt_of_le (by norm_num) hbig
  have hapos : (0 : ℚ) < a := by exact_mod_cast ha
  have hq : 0 < (a : ℚ) / round b := div_pos hapos hbpos
  have hlt : (a : ℚ) / round b < 2 ^ (0 : ℤ) := by
    rw [zpow_zero, div_lt_one hbpos]
    exact lt_of_lt_of_le (by exact_mod_cast ha') hbig
  rw [Nat.ceil_eq_iff one_ne_zero]
  constructor
  · simpa using round_pos hq
  · simpa using round_le_zpow hq hlt

/-- The computed ceiling is the exact one. -/
theorem ceilDiv_eq {a b : ℕ} (ha : 0 < a) (ha' : a < 2 ^ 53) (hb : 0 < b) :
    ceilDiv a b = (a + b - 1) / b := by
  have hle : (a + b - 1) / b ≤ a := by
    rw [Nat.div_le_iff_le_mul_add_pred hb]
    have := Nat.le_mul_of_pos_left a hb
    omega
  have hceil : ⌈round (round a / round b)⌉₊ = (a + b - 1) / b := by
    rw [round_natCast ha'.le]
    rcases Nat.lt_or_ge (2 ^ 53) b with hlarge | hsmall
    · rw [ceil_round_div_large ha ha' hlarge]
      symm
      rw [Nat.div_eq_iff hb]
      omega
    · rw [round_natCast hsmall]
      exact ceil_round_div ha ha' hb hsmall
  rw [ceilDiv, hceil, Nat.min_eq_right (by omega)]

end Binary64
