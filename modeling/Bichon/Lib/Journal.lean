import Mathlib.Order.Nat

/-!
# A journal with a snapshot

The events of a history are numbered from one. `stateAt H n` is the state after the
first `n` of them and `slice H n m` are the entries of the events after the first
`n` up to the `m`-th, each with its number. A snapshot is a state with the number
of events in it; replaying a slice that starts there leads to the state where the
slice ends. A journal that holds more than the slice is filtered by number first.
-/

namespace Journal

open List

variable {σ α : Type*}

section

variable (apply : σ → α → σ) (start : σ)

/-- The state after the first `n` events. -/
def stateAt (H : List α) (n : Nat) : σ := (H.take n).foldl apply start

/-- The entries are applied in the order in which they stand, their numbers apart. -/
def replay (s : σ) (es : List (Nat × α)) : σ := es.foldl (fun s e => apply s e.2) s

end

/-- The events with the number of the first given. -/
def numberedFrom : Nat → List α → List (Nat × α)
  | _, [] => []
  | n, a :: as => (n, a) :: numberedFrom (n + 1) as

/-- The events after the first `n` up to the `m`-th with their numbers. -/
def slice (H : List α) (n m : Nat) : List (Nat × α) := (numberedFrom 1 (H.take m)).filter (n < ·.1)

variable {apply : σ → α → σ} {start : σ} {H : List α} {n m k : Nat} {a : α}

theorem numberedFrom_append (n : Nat) (as bs : List α) :
    numberedFrom n (as ++ bs) = numberedFrom n as ++ numberedFrom (n + as.length) bs := by
  induction as generalizing n with
  | nil => rfl
  | cons a as ih =>
    rw [cons_append, numberedFrom, ih, numberedFrom, length_cons, cons_append,
      Nat.add_assoc, Nat.add_comm 1]

theorem numberedFrom_map_snd (n : Nat) (as : List α) : (numberedFrom n as).map Prod.snd = as := by
  induction as generalizing n with
  | nil => rfl
  | cons a as ih => rw [numberedFrom, map_cons, ih]

theorem le_of_mem_numberedFrom {e : Nat × α} {as : List α} (h : e ∈ numberedFrom n as) :
    n ≤ e.1 ∧ e.1 < n + as.length := by
  induction as generalizing n with
  | nil => cases h
  | cons a as ih =>
    rcases mem_cons.mp h with rfl | h
    · simp
    · have := ih h
      rw [length_cons]
      omega

theorem lt_of_mem_slice {e : Nat × α} (h : e ∈ slice H n m) : n < e.1 ∧ e.1 ≤ m := by
  obtain ⟨hmem, hlow⟩ := mem_filter.mp h
  have hhigh := (le_of_mem_numberedFrom hmem).2
  rw [length_take] at hhigh
  exact ⟨of_decide_eq_true hlow, by omega⟩

theorem slice_eq_nil (h : m ≤ n) : slice H n m = [] := by
  rw [eq_nil_iff_forall_not_mem]
  intro e he
  have := lt_of_mem_slice he
  omega

/-- What lies up to `m` is not affected by what happens later. -/
theorem slice_append (hm : m ≤ H.length) (as : List α) : slice (H ++ as) n m = slice H n m := by
  rw [slice, take_append_of_le_length hm, slice]

theorem slice_take (hm : m ≤ k) : slice (H.take k) n m = slice H n m := by
  rw [slice, take_take, Nat.min_eq_left hm, slice]

/-- The entries after a later snapshot. -/
theorem filter_slice (h : n ≤ k) : (slice H n m).filter (k < ·.1) = slice H k m := by
  rw [slice, filter_filter, slice]
  refine filter_congr fun e _ => ?_
  by_cases hk : k < e.1
  · simp [hk, Nat.lt_of_le_of_lt h hk]
  · simp [hk]

theorem slice_succ (hm : m < H.length) :
    slice H n (m + 1) = slice H n m ++ [(m + 1, H[m])].filter (n < ·.1) := by
  rw [slice, take_succ_eq_append_getElem hm, numberedFrom_append, filter_append,
    length_take, Nat.min_eq_left hm.le, Nat.add_comm 1, slice]
  rfl

theorem slice_concat (hn : n ≤ H.length) (a : α) :
    slice (H ++ [a]) n (H.length + 1) = slice H n H.length ++ [(H.length + 1, a)] := by
  rw [slice_succ (by simp), slice_append le_rfl]
  simp [Nat.lt_succ_of_le hn]

/-- The filter leaves the end of the numbered events. -/
theorem slice_eq_numberedFrom (hn : n ≤ m) (hm : m ≤ H.length) :
    slice H n m = numberedFrom (n + 1) ((H.take m).drop n) := by
  have hsplit : H.take m = H.take n ++ (H.take m).drop n := by
    conv_lhs => rw [← take_append_drop n (H.take m), take_take, Nat.min_eq_left hn]
  rw [slice, hsplit, numberedFrom_append, filter_append, ← hsplit, length_take,
    Nat.min_eq_left (hn.trans hm), Nat.add_comm 1]
  have hfirst : (numberedFrom 1 (H.take n)).filter (n < ·.1) = [] := by
    rw [filter_eq_nil_iff]
    intro e he
    have := (le_of_mem_numberedFrom he).2
    rw [length_take] at this
    simp only [decide_eq_true_eq]
    omega
  have hsecond : ∀ e ∈ numberedFrom (n + 1) ((H.take m).drop n), decide (n < e.1) = true :=
    fun e he => decide_eq_true (le_of_mem_numberedFrom he).1
  rw [hfirst, filter_eq_self.mpr hsecond, nil_append]

/-- The first entry of a slice. -/
theorem slice_eq_cons (hn : n < m) (hm : m ≤ H.length) :
    slice H n m = (n + 1, H[n]) :: slice H (n + 1) m := by
  have hlt : n < (H.take m).length := by
    rw [length_take]
    omega
  rw [slice_eq_numberedFrom hn.le hm, drop_eq_getElem_cons hlt, getElem_take,
    numberedFrom, slice_eq_numberedFrom hn hm]

/-- The highest number in a slice, or the number of the snapshot. -/
theorem foldl_max_slice (n : Nat) (hm : m ≤ H.length) :
    (slice H n m).foldl (fun k e => max k e.1) n = max n m := by
  induction m with
  | zero => rw [slice_eq_nil (Nat.zero_le n), foldl_nil, Nat.max_eq_left (Nat.zero_le n)]
  | succ m ih =>
    rw [slice_succ hm, foldl_append, ih (Nat.le_of_succ_le hm)]
    by_cases hn : n < m + 1
    · simp only [hn, decide_true, filter_cons_of_pos, filter_nil, foldl_cons,
        foldl_nil]
      omega
    · simp only [hn, decide_false, Bool.false_eq_true, not_false_eq_true,
        filter_cons_of_neg, filter_nil, foldl_nil]
      omega

theorem stateAt_concat (H : List α) (a : α) :
    stateAt apply start (H ++ [a]) (H.length + 1) = apply (stateAt apply start H H.length) a := by
  have hlen : H.length + 1 = (H ++ [a]).length := by simp
  rw [stateAt, hlen, take_length, foldl_append, stateAt, take_length]
  rfl

theorem stateAt_append (hn : n ≤ H.length) (as : List α) :
    stateAt apply start (H ++ as) n = stateAt apply start H n := by
  rw [stateAt, take_append_of_le_length hn, stateAt]

theorem stateAt_take (hn : n ≤ m) : stateAt apply start (H.take m) n = stateAt apply start H n := by
  rw [stateAt, take_take, Nat.min_eq_left hn, stateAt]

/-- Replaying a slice leads from where it starts to where it ends. -/
theorem replay_slice (hn : n ≤ m) (hm : m ≤ H.length) :
    replay apply (stateAt apply start H n) (slice H n m) = stateAt apply start H m := by
  have hfold : replay apply (stateAt apply start H n) (slice H n m) =
      ((slice H n m).map Prod.snd).foldl apply (stateAt apply start H n) := by
    rw [replay, foldl_map]
  rw [hfold, slice_eq_numberedFrom hn hm, numberedFrom_map_snd, stateAt, ← foldl_append,
    stateAt]
  congr 1
  conv_rhs => rw [← take_append_drop n (H.take m), take_take, Nat.min_eq_left hn]

end Journal
