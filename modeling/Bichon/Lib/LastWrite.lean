import Mathlib.Data.List.Induction

/-!
# Tables written by a log of updates

A table is a function, an update sets it at one key, and `setAll t us` replays
the updates `us` in order, so that the last update of a key wins. Replaying once
more any end of the log that was just replayed changes nothing, which is what
makes recovery from a log idempotent.
-/

namespace LastWrite

open List

variable {κ β : Type} [DecidableEq κ]

section

variable (t : κ → β)

def setAll (us : List (κ × β)) : κ → β := us.foldl (fun t u => Function.update t u.1 u.2) t

@[simp] theorem setAll_nil : setAll t [] = t := rfl

@[simp] theorem setAll_cons (u : κ × β) (us : List (κ × β)) :
    setAll t (u :: us) = setAll (Function.update t u.1 u.2) us := rfl

theorem setAll_append (us vs : List (κ × β)) : setAll t (us ++ vs) = setAll (setAll t us) vs := by
  simp [setAll]

theorem setAll_concat (us : List (κ × β)) (k : κ) (b : β) :
    setAll t (us ++ [(k, b)]) = Function.update (setAll t us) k b := by
  rw [setAll_append, setAll_cons, setAll_nil]

end

/-- The update of `k` that is in force after the log, if any. -/
def lastFor (k : κ) (us : List (κ × β)) : Option β :=
  us.foldl (fun b u => if u.1 = k then some u.2 else b) none

theorem lastFor_concat (k : κ) (us : List (κ × β)) (u : κ × β) :
    lastFor k (us ++ [u]) = if u.1 = k then some u.2 else lastFor k us := by
  simp [lastFor]

@[simp] theorem lastFor_nil (k : κ) : lastFor k ([] : List (κ × β)) = none := rfl

theorem setAll_apply (t : κ → β) (us : List (κ × β)) (k : κ) :
    setAll t us k = (lastFor k us).getD (t k) := by
  induction us using reverseRecOn with
  | nil => simp
  | append_singleton us u ih =>
    rw [setAll_concat, lastFor_concat, Function.update_apply, ih]
    by_cases hk : u.1 = k
    · simp [hk]
    · simp [hk, Ne.symm hk]

theorem lastFor_append (k : κ) (us vs : List (κ × β)) :
    lastFor k (us ++ vs) = (lastFor k vs).or (lastFor k us) := by
  induction vs using reverseRecOn with
  | nil => simp
  | append_singleton vs v ih =>
    rw [← append_assoc, lastFor_concat, lastFor_concat, ih]
    by_cases hk : v.1 = k
    · simp [hk]
    · simp [hk]

/-- Replaying an end of the log again changes nothing. -/
theorem setAll_setAll_of_suffix (t : κ → β) {us vs : List (κ × β)}
    (h : vs <:+ us) : setAll (setAll t us) vs = setAll t us := by
  obtain ⟨ws, rfl⟩ := h
  funext k
  rw [setAll_apply, setAll_apply, lastFor_append]
  cases lastFor k vs <;> simp

/-- Filtering a list along which the condition, once true, stays true cuts off its
front. -/
theorem filter_suffix_of_pairwise {α : Type} {p : α → Bool} {l : List α}
    (h : l.Pairwise fun a b => p a = true → p b = true) : l.filter p <:+ l := by
  induction h with
  | nil => exact suffix_refl []
  | @cons a l ha _ ih =>
    by_cases hp : p a = true
    · have hall : (a :: l).filter p = a :: l :=
        filter_eq_self.mpr (forall_mem_cons.mpr ⟨hp, fun b hb => ha b hb hp⟩)
      exact ⟨[], hall⟩
    · rw [filter_cons_of_neg hp]
      exact ih.trans (suffix_cons a l)

/-- The last update of a key is one of the updates. -/
theorem mem_of_lastFor {k : κ} {us : List (κ × β)} {b : β}
    (h : lastFor k us = some b) : (k, b) ∈ us := by
  induction us using reverseRecOn with
  | nil => cases h
  | append_singleton us u ih =>
    rw [lastFor_concat] at h
    by_cases hk : u.1 = k
    · rw [if_pos hk] at h
      cases h
      simp [← hk]
    · rw [if_neg hk] at h
      exact mem_append_left _ (ih h)

theorem lastFor_eq_none_iff {k : κ} {us : List (κ × β)} :
    lastFor k us = none ↔ ∀ u ∈ us, u.1 ≠ k := by
  induction us using reverseRecOn with
  | nil => simp
  | append_singleton us u ih =>
    rw [lastFor_concat]
    by_cases hk : u.1 = k
    · rw [if_pos hk]
      constructor
      · intro h
        cases h
      · intro h
        exact absurd hk (h u (by simp))
    · rw [if_neg hk, ih]
      constructor
      · intro h v hv
        rcases mem_append.mp hv with hv | hv
        · exact h v hv
        · rw [mem_singleton.mp hv]
          exact hk
      · intro h v hv
        exact h v (mem_append_left _ hv)

/-- A key no update names keeps its entry. -/
theorem setAll_of_notMem (t : κ → β) {us : List (κ × β)} {k : κ}
    (h : ∀ u ∈ us, u.1 ≠ k) : setAll t us k = t k := by
  rw [setAll_apply, lastFor_eq_none_iff.mpr h]
  rfl

end LastWrite
