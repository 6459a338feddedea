import Mathlib.Data.List.Infix

/-!
# Splicing a text from right to left

`splice start stop new text` puts `new` in the place of the part of `text`
between `start` and `stop`; it is not defined when that part is not there. A
list of edits whose places lie apart and come from right to left can be spliced
one after the other, since none of them moves the places of those behind it. The
result is `rewrite`, the text with all edits made at once.

`sides` cuts the text along the edits and pairs each piece with what stands
there afterwards. Two texts cut in that way are equal only when all pairs are,
provided that no piece that is replaced occurs in its own replacement.
-/

namespace Splice

open List

variable {α : Type*}

/-- `Vec::splice` over the range from `start` to `stop`, which has to lie inside
of the text. -/
def splice (start stop : Nat) (new text : List α) : Option (List α) :=
  if start ≤ stop ∧ stop ≤ text.length then
    some (text.take start ++ new ++ text.drop stop)
  else
    none

/-- One replacement: `new` for what stands between `start` and `stop`. -/
structure Edit (α : Type*) where
  start : Nat
  stop : Nat
  new : List α

/-- The edits lie below `limit`, from right to left, and do not meet. -/
def Descends : Nat → List (Edit α) → Prop
  | _, [] => True
  | limit, e :: es => e.start ≤ e.stop ∧ e.stop ≤ limit ∧ Descends e.start es

variable {es : List (Edit α)} {n : Nat}

theorem Descends.mono {m : Nat} (h : Descends n es) (hnm : n ≤ m) : Descends m es := by
  cases es with
  | nil => trivial
  | cons e es => exact ⟨h.1, h.2.1.trans hnm, h.2.2⟩

/-- Edits that are pairwise from right to left, each of them inside of the text. -/
theorem descends_of_pairwise (hpair : es.Pairwise fun e f => f.stop ≤ e.start)
    (h : ∀ e ∈ es, e.start ≤ e.stop ∧ e.stop ≤ n) : Descends n es := by
  induction es generalizing n with
  | nil => trivial
  | cons e es ih =>
    rw [pairwise_cons] at hpair
    rw [forall_mem_cons] at h
    exact ⟨h.1.1, h.1.2, ih hpair.2 fun f hf => ⟨(h.2 f hf).1, hpair.1 f hf⟩⟩

/-- The text with all edits made. -/
def rewrite : List (Edit α) → List α → List α
  | [], text => text
  | e :: es, text => rewrite es (text.take e.start) ++ e.new ++ text.drop e.stop

/-- The edits of the first part are made there, whatever follows it. -/
theorem rewrite_append {xs : List α} (h : Descends xs.length es)
    (ys : List α) : rewrite es (xs ++ ys) = rewrite es xs ++ ys := by
  cases es with
  | nil => rfl
  | cons e es =>
    rw [rewrite, rewrite, take_append_of_le_length (h.1.trans h.2.1),
      drop_append_of_le_length h.2.1]
    simp only [append_assoc]

variable {text : List α} {e : Edit α}

theorem Descends.tail (h : Descends text.length (e :: es)) :
    Descends (text.take e.start).length es := by
  rw [length_take_of_le (h.1.trans h.2.1)]
  exact h.2.2

theorem foldlM_splice (h : Descends text.length es) :
    es.foldlM (fun t e => splice e.start e.stop e.new t) text = some (rewrite es text) := by
  induction es generalizing text with
  | nil => rfl
  | cons e es ih =>
    have hrest : Descends (text.take e.start ++ e.new ++ text.drop e.stop).length es := by
      apply h.tail.mono
      simp only [length_append]
      omega
    have hsplice : splice e.start e.stop e.new text =
        some (text.take e.start ++ e.new ++ text.drop e.stop) := by
      rw [splice, if_pos ⟨h.1, h.2.1⟩]
    rw [foldlM_cons, hsplice]
    change es.foldlM _ _ = _
    rw [ih hrest, rewrite, append_assoc, rewrite_append h.tail, append_assoc]

/-- Edits of the second part, moved behind the first one. -/
def Edit.shift (n : Nat) (e : Edit α) : Edit α :=
  { e with start := n + e.start, stop := n + e.stop }

theorem rewrite_shift_append {fs : List (Edit α)} {xs ys : List α} (hes : Descends xs.length es) :
    rewrite (fs.map (Edit.shift xs.length) ++ es) (xs ++ ys) = rewrite es xs ++ rewrite fs ys := by
  induction fs generalizing ys with
  | nil => exact rewrite_append hes ys
  | cons f fs ih =>
    simp only [map_cons, cons_append, rewrite, Edit.shift]
    rw [take_length_add_append, drop_length_add_append]
    rw [ih]
    simp only [append_assoc]

def Edit.old (e : Edit α) (text : List α) : List α := (text.take e.stop).drop e.start

theorem Edit.old_take (h : e.stop ≤ n) (text : List α) : e.old (text.take n) = e.old text := by
  rw [Edit.old, Edit.old, take_take, Nat.min_eq_left h]

theorem Edit.take_append_old (h : e.start ≤ e.stop) (text : List α) :
    text.take e.start ++ e.old text = text.take e.stop := by
  have htake : text.take e.start = (text.take e.stop).take e.start := by
    rw [take_take, Nat.min_eq_left h]
  rw [Edit.old, htake, take_append_drop]

/-- The pieces of the text along the edits, each with what stands there afterwards. -/
def sides : List (Edit α) → List α → List (List α × List α)
  | [], text => [(text, text)]
  | e :: es, text => sides es (text.take e.start) ++
      [(e.old text, e.new), (text.drop e.stop, text.drop e.stop)]

theorem flatten_sides_fst (h : Descends text.length es) :
    ((sides es text).map Prod.fst).flatten = text := by
  induction es generalizing text with
  | nil => simp [sides]
  | cons e es ih =>
    simp only [sides, map_append, flatten_append, ih h.tail, map_cons,
      map_nil, flatten_cons, flatten_nil, append_nil]
    rw [← append_assoc, e.take_append_old h.1, take_append_drop]

theorem flatten_sides_snd (es : List (Edit α)) (text : List α) :
    ((sides es text).map Prod.snd).flatten = rewrite es text := by
  induction es generalizing text with
  | nil => simp [sides, rewrite]
  | cons e es ih => simp [sides, rewrite, ih]

theorem Descends.stop_le (h : Descends n es) (he : e ∈ es) : e.stop ≤ n := by
  induction es generalizing n with
  | nil => cases he
  | cons f es ih =>
    rcases mem_cons.mp he with rfl | htail
    · exact h.2.1
    · exact (ih h.2.2 htail).trans (h.1.trans h.2.1)

/-- A property of pairs that holds of all equal ones holds of all pieces when it
holds of the edits. -/
theorem forall_mem_sides {P : List α × List α → Prop} (hrefl : ∀ xs, P (xs, xs))
    (h : Descends text.length es) :
    (∀ p ∈ sides es text, P p) ↔ ∀ e ∈ es, P (e.old text, e.new) := by
  induction es generalizing text with
  | nil => simp [sides, hrefl]
  | cons e es ih =>
    have hold : ∀ f ∈ es, f.old (text.take e.start) = f.old text :=
      fun f hf => Edit.old_take (h.2.2.stop_le hf) text
    have htail : (∀ p ∈ sides es (text.take e.start), P p) ↔ ∀ f ∈ es, P (f.old text, f.new) := by
      rw [ih h.tail]
      exact forall₂_congr fun f hf => by rw [hold f hf]
    simp only [sides, forall_mem_append, forall_mem_cons, htail, hrefl]
    exact ⟨fun ⟨hes, he, _⟩ => ⟨he, hes⟩, fun ⟨he, hes⟩ => ⟨hes, he, trivial, forall_mem_nil _⟩⟩

/-- What is left of two texts when one piece on the left is longer: it never
becomes even again. -/
theorem flatten_ne_of_lag {ps : List (List α × List α)} (h : ∀ p ∈ ps, p.1 = p.2 ∨ ¬ p.1 <:+: p.2)
    {w : List α} (hw : w ≠ []) :
    (ps.map Prod.snd).flatten ≠ w ++ (ps.map Prod.fst).flatten := by
  induction ps generalizing w with
  | nil => simpa using hw
  | cons p ps ih =>
    intro heq
    simp only [map_cons, flatten_cons, ← append_assoc] at heq
    rcases append_eq_append_iff.mp heq with ⟨w', hlong, hrest⟩ | ⟨w', hshort, hrest⟩
    · -- `p.2` ends inside of `w ++ p.1`, so the lag goes on unless nothing is left over.
      by_cases hw' : w' = []
      · subst hw'
        rw [append_nil] at hlong
        rcases h p (mem_cons_self ..) with hp | hp
        · have hlen := congrArg length hlong
          have hpos := length_pos_of_ne_nil hw
          rw [length_append, hp] at hlen
          omega
        · exact hp ⟨w, [], by rw [append_nil, hlong]⟩
      · exact ih (fun q hq => h q (mem_cons_of_mem p hq)) hw' hrest
    · -- `p.2` covers `p.1`, which only an equal pair may do.
      rcases h p (mem_cons_self ..) with hp | hp
      · have hlen := congrArg length hshort
        have hpos := length_pos_of_ne_nil hw
        simp only [length_append, hp] at hlen
        omega
      · exact hp ⟨w, w', hshort.symm⟩

/-- Texts cut into pieces are equal only when the pieces are, provided that no
piece occurs in a different one that it is paired with. -/
theorem flatten_eq_iff {ps : List (List α × List α)} (h : ∀ p ∈ ps, p.1 = p.2 ∨ ¬ p.1 <:+: p.2) :
    (ps.map Prod.snd).flatten = (ps.map Prod.fst).flatten ↔ ∀ p ∈ ps, p.1 = p.2 := by
  induction ps with
  | nil => simp
  | cons p ps ih =>
    have htail : ∀ q ∈ ps, q.1 = q.2 ∨ ¬ q.1 <:+: q.2 := fun q hq => h q (mem_cons_of_mem p hq)
    rw [map_cons, map_cons, flatten_cons, flatten_cons, forall_mem_cons,
      ← ih htail]
    constructor
    · intro heq
      rcases h p (mem_cons_self ..) with hp | hp
      · rw [hp] at heq
        exact ⟨hp, append_cancel_left heq⟩
      · exfalso
        rcases append_eq_append_iff.mp heq with ⟨w, hlong, hrest⟩ | ⟨w, hshort, -⟩
        · have hw : w ≠ [] := by
            rintro rfl
            exact hp ⟨[], [], by simp [hlong]⟩
          exact flatten_ne_of_lag htail hw hrest
        · exact hp ⟨[], w, by simp [hshort]⟩
    · rintro ⟨hp, hrest⟩
      rw [hp, hrest]

end Splice
