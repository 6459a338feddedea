import Mathlib.Data.Set.Card

/-!
# Counting program counters

Any number of parties run the same program, and `pc i` is where the party `i`
stands. `census P pc` is the number of parties that stand at a place in `P`. One
party moves at a time, so the census changes by one at most.
-/

namespace Census

variable {ι π : Type*} {P : π → Prop} {pc : ι → π} {i : ι} {v : π}

/-- How many parties stand at a place in `P`. -/
noncomputable def census (P : π → Prop) (pc : ι → π) : ℕ := {i | P (pc i)}.ncard

/-- Only finitely many parties do. -/
def Finitely (P : π → Prop) (pc : ι → π) : Prop := {i | P (pc i)}.Finite

theorem census_eq_zero (hfin : Finitely P pc) : census P pc = 0 ↔ ∀ i, ¬ P (pc i) := by
  rw [census, Set.ncard_eq_zero hfin, Set.eq_empty_iff_forall_notMem]
  rfl

variable [DecidableEq ι]

theorem setOf_update_of_pos (hv : P v) :
    {j | P (Function.update pc i v j)} = insert i {j | P (pc j)} := by
  ext j
  by_cases hj : j = i
  · subst hj
    simp [hv]
  · simp [hj]

theorem setOf_update_of_neg (hv : ¬ P v) :
    {j | P (Function.update pc i v j)} = {j | P (pc j)} \ {i} := by
  ext j
  by_cases hj : j = i
  · subst hj
    simp [hv]
  · simp [hj]

theorem Finitely.update (h : Finitely P pc) (i : ι) (v : π) :
    Finitely P (Function.update pc i v) := by
  unfold Finitely
  by_cases hv : P v
  · rw [setOf_update_of_pos hv]
    exact h.insert i
  · rw [setOf_update_of_neg hv]
    exact h.sdiff

theorem census_update_stay (h : P (pc i) ↔ P v) :
    census P (Function.update pc i v) = census P pc := by
  unfold census
  congr 1
  ext j
  by_cases hj : j = i
  · subst hj
    simp [h]
  · simp [Function.update_of_ne hj]

theorem census_update_enter (hfin : Finitely P pc) (h : ¬ P (pc i)) (hv : P v) :
    census P (Function.update pc i v) = census P pc + 1 := by
  unfold census
  rw [setOf_update_of_pos hv]
  exact Set.ncard_insert_of_notMem (show i ∉ {j | P (pc j)} from h) hfin

theorem census_update_leave (hfin : Finitely P pc) (h : P (pc i)) (hv : ¬ P v) :
    census P (Function.update pc i v) + 1 = census P pc := by
  unfold census
  rw [setOf_update_of_neg hv]
  exact Set.ncard_sdiff_singleton_add_one h hfin

end Census
