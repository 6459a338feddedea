import Mathlib.Data.Finset.Card

/-!
# The first element of each bucket

Elements of a list fall into buckets, or into none. `firstPerBucket keep bucket xs`
goes through the list and takes the first element of every bucket it meets, until
`keep` buckets have been met. `mem_firstPerBucket` says which elements these are in
terms of what stands in front of them, and `Leads.of_subset` says that an element
that is taken is still taken when others are left out of the list.
-/

namespace Buckets

open List

variable {α β : Type} [DecidableEq β]

/-- The loop: the buckets met so far, and the elements taken so far. -/
def firstPerBucketLoop (keep : Nat) (bucket : α → Option β) :
    List α → List β → List α → List α
  | [], _, out => out
  | x :: xs, seen, out =>
    match bucket x with
    | none => firstPerBucketLoop keep bucket xs seen out
    | some b =>
      if b ∈ seen then firstPerBucketLoop keep bucket xs seen out
      else if keep ≤ (out ++ [x]).length then out ++ [x]
      else firstPerBucketLoop keep bucket xs (b :: seen) (out ++ [x])

def firstPerBucket (keep : Nat) (bucket : α → Option β) (xs : List α) : List α :=
  if keep = 0 then [] else firstPerBucketLoop keep bucket xs [] []

def met (bucket : α → Option β) (xs : List α) : Finset β := (xs.filterMap bucket).toFinset

@[simp] theorem met_nil (bucket : α → Option β) : met bucket [] = ∅ := rfl

variable {bucket : α → Option β} {x : α}

theorem met_concat_none (h : bucket x = none) (xs : List α) :
    met bucket (xs ++ [x]) = met bucket xs := by
  simp [met, h]

theorem met_concat_some {b : β} (h : bucket x = some b)
    (xs : List α) : met bucket (xs ++ [x]) = insert b (met bucket xs) := by
  ext c
  simp [met, h]

variable {xs : List α}

theorem met_mono (bucket : α → Option β) {ys : List α} (h : xs ⊆ ys) :
    met bucket xs ⊆ met bucket ys :=
  fun _ hb => mem_toFinset.mpr (filterMap_subset bucket h (mem_toFinset.mp hb))

/-- The element is the first one of its bucket, and fewer than `keep` buckets were
met before it. -/
def Leads (keep : Nat) (bucket : α → Option β) (before : List α) (x : α) : Prop :=
  ∃ b, bucket x = some b ∧ b ∉ met bucket before ∧ (met bucket before).card < keep

variable {keep : Nat}

theorem Leads.of_subset {before before' : List α}
    (h : Leads keep bucket before x) (hsub : before' ⊆ before) :
    Leads keep bucket before' x := by
  obtain ⟨b, hb, hnew, hlen⟩ := h
  have hmet := met_mono bucket hsub
  exact ⟨b, hb, fun hmem => hnew (hmet hmem), (Finset.card_le_card hmet).trans_lt hlen⟩

/-- The places of an element in a list, the first one apart. -/
theorem exists_split_cons {y : α} {P : List α → Prop} :
    (∃ pre post, y :: xs = pre ++ x :: post ∧ P pre) ↔
      (y = x ∧ P []) ∨ ∃ pre post, xs = pre ++ x :: post ∧ P (y :: pre) := by
  constructor
  · rintro ⟨pre, post, hxs, hP⟩
    cases pre with
    | nil =>
      obtain ⟨rfl, -⟩ := cons.inj hxs
      exact .inl ⟨rfl, hP⟩
    | cons z pre =>
      obtain ⟨rfl, hrest⟩ := cons.inj hxs
      exact .inr ⟨pre, post, hrest, hP⟩
  · rintro (⟨rfl, hP⟩ | ⟨pre, post, rfl, hP⟩)
    · exact ⟨[], xs, rfl, hP⟩
    · exact ⟨y :: pre, post, rfl, hP⟩

/-- What the loop takes after the elements `before`. -/
theorem mem_firstPerBucketLoop (xs : List α)
    (before out : List α) (seen : List β) (hseen : ∀ b, b ∈ seen ↔ b ∈ met bucket before)
    (hout : out.length = (met bucket before).card) (hkeep : out.length < keep) :
    x ∈ firstPerBucketLoop keep bucket xs seen out ↔
      x ∈ out ∨ ∃ pre post, xs = pre ++ x :: post ∧ Leads keep bucket (before ++ pre) x := by
  induction xs generalizing before out seen with
  | nil => simp [firstPerBucketLoop]
  | cons y xs ih =>
    have hbehind : (∃ pre post, xs = pre ++ x :: post ∧
          Leads keep bucket (before ++ y :: pre) x) ↔
        ∃ pre post, xs = pre ++ x :: post ∧ Leads keep bucket (before ++ [y] ++ pre) x := by
      simp
    rw [exists_split_cons, firstPerBucketLoop, hbehind, append_nil]
    cases hb : bucket y with
    | none =>
      have hnot : ¬ (y = x ∧ Leads keep bucket before x) := by
        rintro ⟨rfl, b, hsome, -⟩
        cases hb.symm.trans hsome
      have hmet := met_concat_none hb before
      simp only [hnot, false_or]
      exact ih (before ++ [y]) out seen (by rw [hmet]; exact hseen) (by rw [hmet]; exact hout) hkeep
    | some b =>
      have hmet := met_concat_some hb before
      by_cases hmem : b ∈ seen
      · have hold : b ∈ met bucket before := (hseen b).mp hmem
        have hnot : ¬ (y = x ∧ Leads keep bucket before x) := by
          rintro ⟨rfl, b', hsome, hnew, -⟩
          cases hb.symm.trans hsome
          exact hnew hold
        rw [Finset.insert_eq_of_mem hold] at hmet
        simp only [hmem, if_true, hnot, false_or]
        exact ih (before ++ [y]) out seen (by rw [hmet]; exact hseen)
          (by rw [hmet]; exact hout) hkeep
      · have hfresh : b ∉ met bucket before := fun h => hmem ((hseen b).mpr h)
        have hlead : Leads keep bucket before y := ⟨b, hb, hfresh, by omega⟩
        have hcard : (met bucket (before ++ [y])).card = out.length + 1 := by
          rw [hmet, Finset.card_insert_of_notMem hfresh, hout]
        have hfirst : (y = x ∧ Leads keep bucket before x) ↔ x = y := by
          constructor
          · exact fun h => h.1.symm
          · rintro rfl
            exact ⟨rfl, hlead⟩
        simp only [hmem, if_false, hfirst, length_append, length_singleton]
        by_cases hfull : keep ≤ out.length + 1
        · -- The last bucket was met: nothing behind this element leads any more.
          have hnone : ¬ ∃ pre post, xs = pre ++ x :: post ∧
              Leads keep bucket (before ++ [y] ++ pre) x := by
            rintro ⟨pre, post, -, b', -, -, hlt⟩
            have hle := Finset.card_le_card (met_mono bucket
              (subset_append_left (before ++ [y]) pre))
            omega
          rw [if_pos hfull, mem_append, mem_singleton]
          simp only [hnone, or_false]
        · rw [if_neg hfull, ih (before ++ [y]) (out ++ [y]) (b :: seen) ?_ (by simp [hcard])
            (by simp; omega)]
          · simp [or_assoc]
          · intro c
            rw [hmet]
            simp [hseen]

/-- The elements taken are those that lead their bucket. -/
theorem mem_firstPerBucket :
    x ∈ firstPerBucket keep bucket xs ↔
      ∃ pre post, xs = pre ++ x :: post ∧ Leads keep bucket pre x := by
  by_cases hkeep : keep = 0
  · simp [firstPerBucket, hkeep, Leads]
  · rw [firstPerBucket, if_neg hkeep, mem_firstPerBucketLoop xs [] [] [] (by simp) rfl
      (Nat.pos_of_ne_zero hkeep)]
    simp

end Buckets
