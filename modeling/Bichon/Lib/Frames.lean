import Mathlib.Data.List.Basic

/-!
# Frames between separators

A sequence is written as frames, each behind a separator, and read back by cutting it at the
separators. `frames_flatMap` is the way back; it needs that no frame holds a separator, and
`forall_of_length_frames` says that this is the only way to get as many frames as were
written.
-/

namespace Frames

open List

variable {α : Type*} {sep : α → Bool}

/-- What stands behind each separator. What stands before the first one is dropped. -/
def frames (sep : α → Bool) (xs : List α) : List (List α) := (xs.splitOnP sep).tail

def written (b : α × List α) : List α := b.1 :: b.2

/-- A front and frames: the separators are the ones the frames are written behind. -/
structure Delimited (sep : α → Bool) (front : List α) (bs : List (α × List α)) : Prop where
  front : ∀ x ∈ front, sep x = false
  mark : ∀ b ∈ bs, sep b.1 = true
  body : ∀ b ∈ bs, ∀ x ∈ b.2, sep x = false

theorem length_splitOnP (xs : List α) : (xs.splitOnP sep).length = xs.countP sep + 1 := by
  induction xs with
  | nil => rfl
  | cons x xs ih =>
    rw [splitOnP_cons_eq_if_modifyHead, countP_cons]
    split
    · rw [length_cons, ih]
    · rw [length_modifyHead, ih, Nat.add_zero]

theorem length_frames (xs : List α) : (frames sep xs).length = xs.countP sep := by
  rw [frames, length_tail, length_splitOnP, Nat.add_sub_cancel]

section

variable {bs : List (α × List α)}

theorem Delimited.splitOnP_eq {front : List α} (h : Delimited sep front bs) :
    (front ++ bs.flatMap written).splitOnP sep = front :: bs.map Prod.snd := by
  obtain ⟨hfront, hsep, hbody⟩ := h
  induction bs generalizing front with
  | nil => rw [flatMap_nil, append_nil, splitOnP_eq_singleton hfront, map_nil]
  | cons b bs ih =>
    rw [forall_mem_cons] at hsep hbody
    rw [flatMap_cons, written, cons_append,
      splitOnP_append_cons_of_forall_mem hfront b.1 hsep.1, ih hbody.1 hsep.2 hbody.2, map_cons]

/-- The frames are read back when no separator stands in one. -/
theorem frames_flatMap (hsep : ∀ b ∈ bs, sep b.1 = true)
    (hbody : ∀ b ∈ bs, ∀ x ∈ b.2, sep x = false) :
    frames sep (bs.flatMap written) = bs.map Prod.snd := by
  have h : Delimited sep [] bs := ⟨by simp, hsep, hbody⟩
  rw [frames, ← nil_append (bs.flatMap written), h.splitOnP_eq, tail_cons]

/-- Every sequence is some front and frames behind their separators. -/
theorem exists_delimited (sep : α → Bool) (xs : List α) :
    ∃ front bs, xs = front ++ flatMap written bs ∧ Delimited sep front bs := by
  induction xs with
  | nil => exact ⟨[], [], rfl, by simp, by simp, by simp⟩
  | cons x xs ih =>
    obtain ⟨front, bs, rfl, hfront, hsep, hbody⟩ := ih
    cases hx : sep x with
    | true =>
      exact ⟨[], (x, front) :: bs, rfl, by simp, forall_mem_cons.mpr ⟨hx, hsep⟩,
        forall_mem_cons.mpr ⟨hfront, hbody⟩⟩
    | false => exact ⟨x :: front, bs, rfl, forall_mem_cons.mpr ⟨hx, hfront⟩, hsep, hbody⟩

/-- Each frame is behind a separator, so that one more is one too many. -/
theorem length_le_countP_flatMap (hsep : ∀ b ∈ bs, sep b.1 = true) :
    bs.length ≤ (bs.flatMap written).countP sep := by
  induction bs with
  | nil => exact Nat.zero_le _
  | cons b bs ih =>
    rw [forall_mem_cons] at hsep
    have hle := ih hsep.2
    rw [flatMap_cons, countP_append, written, countP_cons_of_pos hsep.1,
      length_cons]
    omega

theorem forall_of_length_frames (hsep : ∀ b ∈ bs, sep b.1 = true)
    (hlen : (frames sep (bs.flatMap written)).length = bs.length) :
    ∀ b ∈ bs, ∀ x ∈ b.2, sep x = false := by
  rw [length_frames] at hlen
  induction bs with
  | nil => simp
  | cons b bs ih =>
    rw [forall_mem_cons] at hsep
    have hle := length_le_countP_flatMap hsep.2
    rw [flatMap_cons, countP_append, written, countP_cons_of_pos hsep.1,
      length_cons] at hlen
    have hbody : b.2.countP sep = 0 := by omega
    rw [forall_mem_cons]
    refine ⟨fun x hx => ?_, ih hsep.2 (by omega)⟩
    exact Bool.eq_false_iff.mpr (countP_eq_zero.mp hbody x hx)

end

end Frames
