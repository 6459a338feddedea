/-!
# The texts with a given beginning

In the lexicographic order the lists that begin with `p` stand behind one another, and
`p` itself would be the first of them. So in a list that is sorted by a key, the
elements whose key begins with `p` are found by skipping what is smaller than `p` and
then taking elements as long as they fit (`takeWhile_dropWhile_eq_filter`).
-/

namespace PrefixRange

open List

variable {α ρ : Type} [LE α] [LT α] [Std.IsLinearOrder α] [Std.LawfulOrderLT α]

/-- What stands between `p` and a list that begins with `p` begins with `p`. -/
theorem isPrefix_of_le_of_le {p k l : List α} (hpk : p ≤ k) (hkl : k ≤ l) (hpl : p <+: l) :
    p <+: k := by
  induction p generalizing k l with
  | nil => exact nil_prefix
  | cons a p ih =>
    obtain ⟨rest, rfl⟩ := hpl
    cases k with
    | nil => exact absurd (nil_lt_cons a p) hpk
    | cons c k =>
      rw [cons_le_cons_iff] at hpk
      rw [cons_append, cons_le_cons_iff] at hkl
      rcases hpk with hac | ⟨rfl, hpk⟩
      · rcases hkl with hca | ⟨rfl, -⟩
        · exact absurd hca (Std.Asymm.asymm _ _ hac)
        · exact absurd hac (Std.Irrefl.irrefl _)
      · rcases hkl with haa | ⟨-, hkl⟩
        · exact absurd haa (Std.Irrefl.irrefl _)
        · rw [cons_prefix_cons]
          exact ⟨rfl, ih hpk hkl (prefix_append _ _)⟩

variable [DecidableEq α] {key : ρ → List α} {p : List α}

/-- From the first key that is not below `p` on, the keys that begin with `p` come first. -/
theorem takeWhile_eq_filter {xs : List ρ} (hs : xs.Pairwise fun x y => key x ≤ key y)
    (hp : ∀ x ∈ xs, p ≤ key x) :
    xs.takeWhile (fun x => p.isPrefixOf (key x)) = xs.filter fun x => p.isPrefixOf (key x) := by
  induction xs with
  | nil => rfl
  | cons x xs ih =>
    rw [pairwise_cons] at hs
    rw [forall_mem_cons] at hp
    by_cases hx : p.isPrefixOf (key x) = true
    · rw [takeWhile_cons, filter_cons, if_pos hx, if_pos hx, ih hs.2 hp.2]
    · have hnone : ∀ y ∈ xs, ¬ p.isPrefixOf (key y) = true := by
        intro y hy hpre
        have hle := isPrefix_of_le_of_le hp.1 (hs.1 y hy) <| isPrefixOf_iff_prefix.mp hpre
        exact hx <| isPrefixOf_iff_prefix.mpr hle
      rw [takeWhile_cons, filter_cons, if_neg hx, if_neg hx,
        filter_eq_nil_iff.mpr hnone]

/-- The elements of a sorted list whose key begins with `p`. -/
theorem takeWhile_dropWhile_eq_filter [DecidableLT α] {xs : List ρ}
    (hs : xs.Pairwise fun x y => key x ≤ key y) :
    (xs.dropWhile fun x => decide (key x < p)).takeWhile (fun x => p.isPrefixOf (key x)) =
      xs.filter fun x => p.isPrefixOf (key x) := by
  induction xs with
  | nil => rfl
  | cons x xs ih =>
    by_cases hx : key x < p
    · have hnot : ¬ p.isPrefixOf (key x) = true := by
        intro hpre
        have hle := isPrefixOf_iff_prefix.mp hpre
        exact hle.le hx
      rw [dropWhile_cons, if_pos (decide_eq_true hx), filter_cons, if_neg hnot,
        ih (pairwise_cons.mp hs).2]
    · have hle : ∀ y ∈ x :: xs, p ≤ key y := by
        rw [List.forall_mem_cons]
        exact ⟨hx, fun y hy => List.le_trans hx ((List.pairwise_cons.mp hs).1 y hy)⟩
      rw [List.dropWhile_cons, if_neg (by simpa using hx), takeWhile_eq_filter hs hle]

end PrefixRange
