/-!
# The pages of a list

Page `i` of a list, counted from one, holds the elements from place `(i - 1) * size` on,
`size` of them where there are as many. The pages up to `pageCount` make up the list, and
those behind are empty.
-/

namespace Pages

variable {α : Type}

def window (xs : List α) (size page : Nat) : List α := (xs.drop ((page - 1) * size)).take size

/-- How many pages there are: the number of elements over the size, rounded up. -/
def pageCount (n size : Nat) : Nat := (n + size - 1) / size

theorem pageCount_zero (size : Nat) : pageCount 0 size = 0 := by
  rcases Nat.eq_zero_or_pos size with rfl | h
  · rfl
  · rw [pageCount, Nat.zero_add, Nat.div_eq_of_lt (by omega)]

theorem le_pageCount_mul {size : Nat} (h : 0 < size) (n : Nat) : n ≤ pageCount n size * size := by
  have hdiv := Nat.div_add_mod (n + size - 1) size
  have hmod := Nat.mod_lt (n + size - 1) h
  rw [pageCount, Nat.mul_comm]
  omega

/-- The places in front of a page that exists. -/
theorem mul_lt_of_lt_pageCount {n size i : Nat} (h : i < pageCount n size) : i * size < n := by
  have hpos : 0 < size := by
    rcases Nat.eq_zero_or_pos size with rfl | hpos
    · simp [pageCount] at h
    · exact hpos
  have hle : (i + 1) * size ≤ n + size - 1 := (Nat.le_div_iff_mul_le hpos).mp h
  rw [Nat.succ_mul] at hle
  omega

theorem window_eq_nil {xs : List α} {size page : Nat} (hs : 0 < size)
    (h : pageCount xs.length size < page) : window xs size page = [] := by
  have hle : xs.length ≤ (page - 1) * size :=
    Nat.le_trans (le_pageCount_mul hs _) (Nat.mul_le_mul_right _ (by omega))
  rw [window, List.drop_eq_nil_of_le hle, List.take_nil]

theorem flatMap_window_eq_take (xs : List α) (size n : Nat) :
    (List.range n).flatMap (fun i => window xs size (i + 1)) = xs.take (n * size) := by
  induction n with
  | zero => simp
  | succ n ih =>
    rw [List.range_succ, List.flatMap_append, ih, List.flatMap_singleton, window,
      Nat.add_sub_cancel, Nat.succ_mul, List.take_add]

/-- The pages behind one another are the list. -/
theorem flatMap_window {size : Nat} (hs : 0 < size) (xs : List α) :
    (List.range (pageCount xs.length size)).flatMap (fun i => window xs size (i + 1)) = xs := by
  rw [flatMap_window_eq_take, List.take_of_length_le (le_pageCount_mul hs _)]

end Pages
