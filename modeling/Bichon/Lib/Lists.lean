import Mathlib.Algebra.Order.Group.Nat
import Mathlib.Data.List.Nodup
import Mathlib.Algebra.Order.BigOperators.Group.List

/-!
# Lists

Where an element stands in a list, in a part of it or in a sublist, and when a list of lists
or of calls does what each of its elements does.
-/

namespace Lists

open List

variable {α : Type}

theorem mem_take_iff_split {n : Nat} {x : α} {xs : List α} :
    x ∈ xs.take n ↔ ∃ pre post, xs = pre ++ x :: post ∧ pre.length < n := by
  constructor
  · intro h
    obtain ⟨pre, post, hsplit⟩ := append_of_mem h
    have hlen := congrArg length hsplit
    simp only [length_take, length_append, length_cons] at hlen
    refine ⟨pre, post ++ xs.drop n, ?_, by omega⟩
    rw [← cons_append, ← append_assoc, ← hsplit, take_append_drop]
  · rintro ⟨pre, post, rfl, hlen⟩
    rw [take_append, mem_append]
    right
    obtain ⟨k, hk⟩ := Nat.exists_eq_add_of_lt hlen
    rw [show n - pre.length = k + 1 by omega]
    simp

theorem exists_split_drop {n : Nat} {x : α} {xs : List α} {P : List α → Prop} :
    (∃ pre post, xs.drop n = pre ++ x :: post ∧ P pre) ↔
      ∃ pre post, xs = pre ++ x :: post ∧ n ≤ pre.length ∧ P (pre.drop n) := by
  constructor
  · rintro ⟨pre, post, hdrop, hP⟩
    have hn : n ≤ xs.length := by
      by_contra hlt
      rw [drop_eq_nil_of_le (by omega)] at hdrop
      simp at hdrop
    have hlen : (xs.take n).length = n := by simp [hn]
    refine ⟨xs.take n ++ pre, post, ?_, by simp [hn], ?_⟩
    · rw [append_assoc, ← hdrop, take_append_drop]
    · rwa [drop_append_of_le_length (by omega), drop_eq_nil_of_le (by omega),
        nil_append]
  · rintro ⟨pre, post, rfl, hn, hP⟩
    exact ⟨pre.drop n, post, drop_append_of_le_length hn, hP⟩

theorem sublist_split {xs pre post : List α} {x : α}
    (hsub : xs.Sublist (pre ++ x :: post)) (hx : x ∈ xs) (hnodup : (pre ++ x :: post).Nodup) :
    ∃ pre' post', xs = pre' ++ x :: post' ∧ pre'.Sublist pre := by
  obtain ⟨pre', rest, rfl, hpre, hrest⟩ := sublist_append_iff.mp hsub
  have hnotin := nodup_middle.mp hnodup
  rw [nodup_cons, mem_append, not_or] at hnotin
  have hxrest : x ∈ rest := (mem_append.mp hx).resolve_left fun h =>
    hnotin.1.1 (hpre.subset h)
  rcases sublist_cons_iff.mp hrest with hpost | ⟨post', rfl, -⟩
  · exact absurd (hpost.subset hxrest) hnotin.1.2
  · exact ⟨pre', post', rfl, hpre⟩

theorem lookup_filter {β : Type} [BEq α] [LawfulBEq α] (keep : α → Bool)
    (l : List (α × β)) (k : α) :
    (l.filter fun e => keep e.1).lookup k = if keep k then l.lookup k else none := by
  induction l with
  | nil => simp
  | cons e l ih =>
    obtain ⟨k', x⟩ := e
    by_cases hk : k = k'
    · subst hk
      cases hkeep : keep k with
      | true => simp [hkeep]
      | false => simp [hkeep, ih]
    · have hne : (k == k') = false := beq_false_of_ne hk
      cases hkeep : keep k' with
      | true | false => simp [hkeep, List.lookup_cons, hne, ih]

theorem flatMap_eq_flatMap_iff {β : Type} {f g : α → List β} {l : List α}
    (h : ∀ a ∈ l, (f a).length ≤ (g a).length) :
    l.flatMap f = l.flatMap g ↔ ∀ a ∈ l, f a = g a := by
  induction l with
  | nil => simp
  | cons a l ih =>
    rw [forall_mem_cons] at h ⊢
    rw [flatMap_cons, flatMap_cons, ← ih h.2]
    constructor
    · intro heq
      have hle : (l.flatMap f).length ≤ (l.flatMap g).length := by
        rw [length_flatMap, length_flatMap]
        exact sum_le_sum h.2
      have hlen := congrArg length heq
      rw [length_append, length_append] at hlen
      exact append_inj heq (by omega)
    · rintro ⟨hhead, htail⟩
      rw [hhead, htail]

theorem forM_eq_ok {ε : Type} {f : α → Except ε PUnit} {as : List α} :
    forM as f = .ok () ↔ ∀ a ∈ as, f a = .ok () := by
  induction as with
  | nil => simp [pure, Except.pure]
  | cons a as ih =>
    rw [List.forM_cons, List.forall_mem_cons, ← ih]
    cases f a with
    | error | ok => simp [bind, Except.bind]

end Lists
