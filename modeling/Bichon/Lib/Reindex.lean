import Mathlib.Data.List.Perm.Basic

/-!
# Rewriting documents of an index

An index has no update: a document is replaced by deleting its id and adding a new document
that is built from the old one. `Index.update` does so for a list of names. Every name is looked
up through a searcher, and its id is deleted, whatever document the lookup has found.

`frame_iff` says on which contents every update replaces the named documents and leaves all
others alone.
-/

namespace Reindex

variable {D I U : Type} [DecidableEq I]

/-- How names are looked up. `rebuild` may panic. -/
structure Index (D I U : Type) where
  id : D → I
  key : D → I
  owns : U → D → Bool
  target : U → I
  rebuild : D → Option D
  id_rebuild : ∀ {d d'}, rebuild d = some d' → id d' = id d

namespace Index

open List

variable (X : Index D I U)

def finds (u : U) (d : D) : Bool := X.owns u d && decide (X.key d = X.target u)

def without (i : I) (docs : List D) : List D := docs.filter fun d => X.id d ≠ i

/-- What is done for one name: the id is deleted and the new document added. -/
def step (searcher docs : List D) (u : U) : Option (List D) :=
  match searcher.find? (X.finds u) with
  | none => some docs
  | some d => (X.rebuild d).map fun d' => X.without (X.target u) docs ++ [d']

/-- All names. The operations are run at the end, so that nothing has happened after a panic. -/
def update (searcher docs : List D) (us : List U) : Option (List D) :=
  us.foldlM (X.step searcher) docs

/-- The named documents are replaced by ones that are the same to `Same`, the others are the
ones they were. -/
def Frame (Same : D → D → Prop) (us : List U) (docs result : List D) : Prop :=
  ∃ l, l.Perm result ∧ List.Forall₂ (fun d d' => Same d d' ∧
    ((∀ u ∈ us, ¬ (X.owns u d = true ∧ X.id d = X.target u)) → d' = d)) docs l

def count (i : I) (docs : List D) : Nat := docs.countP fun d => X.id d = i

/-- Whatever is found has the id that is deleted, alone, and stays the same. -/
structure Clean (Same : D → D → Prop) (docs : List D) (u : U) (d : D) : Prop where
  id : X.id d = X.target u
  alone : X.count (X.target u) docs = 1
  same : ∀ d', X.rebuild d = some d' → Same d d'

variable {X} {searcher docs result : List D} {us : List U} {u : U} {d : D} {i : I}

theorem update_cons : X.update searcher docs (u :: us) =
    (X.step searcher docs u).bind fun docs => X.update searcher docs us :=
  foldlM_cons

/-- The operations depend on what is found only. -/
theorem update_congr {other : List D}
    (h : ∀ u ∈ us, searcher.find? (X.finds u) = other.find? (X.finds u)) :
    X.update searcher docs us = X.update other docs us := by
  induction us generalizing docs with
  | nil => rfl
  | cons u us ih =>
    rw [forall_mem_cons] at h
    simp only [update_cons, step, h.1, ih h.2]

/-- No id is new that the searcher does not know. -/
theorem exists_of_mem_update (h : X.update searcher docs us = some result) (hd : d ∈ result) :
    d ∈ docs ∨ ∃ e ∈ searcher, X.id d = X.id e := by
  induction us generalizing docs with
  | nil =>
    cases h
    exact .inl hd
  | cons u us ih =>
    obtain ⟨mid, hmid, h⟩ := Option.bind_eq_some_iff.mp h
    rcases ih h with hmem | hmem
    · unfold step at hmid
      split at hmid
      · cases hmid
        exact .inl hmem
      next e hfind =>
        obtain ⟨new, hnew, rfl⟩ := Option.map_eq_some_iff.mp hmid
        rcases mem_append.mp hmem with hmem | hmem
        · exact .inl (mem_filter.mp hmem).1
        · rw [mem_singleton.mp hmem]
          exact .inr ⟨e, mem_of_find?_eq_some hfind, X.id_rebuild hnew⟩
    · exact .inr hmem

/-! ## Counting ids -/

theorem count_append (xs ys : List D) : X.count i (xs ++ ys) = X.count i xs + X.count i ys :=
  countP_append

theorem count_without_self : X.count i (X.without i docs) = 0 := by
  simp [count, without, countP_eq_zero]

theorem count_without_of_ne {j : I} (h : j ≠ i) :
    X.count i (X.without j docs) = X.count i docs := by
  rw [count, without, countP_filter]
  refine countP_congr fun d _ => ?_
  simp only [decide_eq_true_eq, Bool.and_eq_true, and_iff_left_iff_imp]
  rintro rfl
  exact h.symm

/-! ## When the update is a frame -/

theorem exists_of_forall₂ {R : D → D → Prop} {l : List D} (h : List.Forall₂ R docs l)
    (hd : d ∈ docs) : ∃ d' ∈ l, R d d' := by
  induction h with
  | nil => cases hd
  | cons hhead _ ih =>
    rcases mem_cons.mp hd with rfl | hd
    · exact ⟨_, mem_cons_self, hhead⟩
    · obtain ⟨d', hd', hr⟩ := ih hd
      exact ⟨d', mem_cons_of_mem _ hd', hr⟩

theorem count_eq_of_forall₂ {R : D → D → Prop} (hid : ∀ d d', R d d' → X.id d' = X.id d)
    {l : List D} (h : List.Forall₂ R docs l) (i : I) : X.count i l = X.count i docs := by
  induction h with
  | nil => rfl
  | cons hhead _ ih =>
    rw [count, count] at ih
    rw [count, count, countP_cons, countP_cons, ih, hid _ _ hhead]

/-- Replacing the one document of an id in its place. -/
theorem perm_replace {l : List D} (h : X.count i l = 1) (new : D) :
    (l.map fun d => if X.id d = i then new else d).Perm (X.without i l ++ [new]) := by
  induction l with
  | nil => cases h
  | cons d l ih =>
    by_cases hd : X.id d = i
    · have hrest : X.count i l = 0 := by simpa [count, hd] using h
      have hne : ∀ e ∈ l, X.id e ≠ i := by simpa [count, countP_eq_zero] using hrest
      have hmap : (l.map fun e => if X.id e = i then new else e) = l := by
        refine (map_congr_left fun e he => if_neg (hne e he)).trans (map_id l)
      have hfilter : X.without i (d :: l) = l := by
        rw [without, filter_cons_of_neg (by simpa using hd)]
        exact filter_eq_self.mpr (by simpa using hne)
      rw [map_cons, if_pos hd, hmap, hfilter]
      exact (perm_append_singleton new l).symm
    · have hrest : X.count i l = 1 := by simpa [count, hd] using h
      simpa [hd, without] using (ih hrest).cons d

variable {Same : D → D → Prop}

theorem Frame.count (hid : ∀ d d', Same d d' → X.id d' = X.id d)
    (h : X.Frame Same us docs result) (i : I) : X.count i result = X.count i docs := by
  obtain ⟨l, hperm, hall⟩ := h
  rw [← count_eq_of_forall₂ (fun d d' h => hid d d' h.1) hall i]
  exact (hperm.countP_eq _).symm

/-- What is found is clean if looking it up alone is a frame. -/
theorem clean_of_frame {d' : D} (hid : ∀ d d', Same d d' → X.id d' = X.id d)
    (hfind : docs.find? (X.finds u) = some d) (hd' : X.rebuild d = some d')
    (h : X.Frame Same us docs (X.without (X.target u) docs ++ [d'])) : X.Clean Same docs u d := by
  have hone : X.count (X.id d) [d'] = 1 := by simp [count, X.id_rebuild hd']
  have heq : X.id d = X.target u := by
    by_contra hne
    have hcount := h.count hid (X.id d)
    rw [count_append, count_without_of_ne (Ne.symm hne), hone] at hcount
    omega
  refine ⟨heq, ?_, fun e he => ?_⟩
  · rw [← h.count hid, count_append, count_without_self, ← heq, hone]
  · obtain rfl : d' = e := Option.some.inj (hd'.symm.trans he)
    obtain ⟨l, hperm, hall⟩ := h
    obtain ⟨e, he, hsame, -⟩ := exists_of_forall₂ hall (mem_of_find?_eq_some hfind)
    rcases mem_append.mp (hperm.mem_iff.mp he) with he | he
    · have hne : X.id e ≠ X.target u := by simpa using (mem_filter.mp he).2
      exact (hne ((hid d e hsame).trans heq)).elim
    · exact mem_singleton.mp he ▸ hsame

theorem eq_of_count_eq_one {e : D} (h : X.count i docs = 1) (hd : d ∈ docs) (he : e ∈ docs)
    (hid : X.id d = i) (hie : X.id e = i) : e = d := by
  rw [count, countP_eq_length_filter, length_eq_one_iff] at h
  obtain ⟨x, hx⟩ := h
  have hmem : ∀ y ∈ docs, X.id y = i → y = x := by
    intro y hy hi
    rw [← mem_singleton, ← hx]
    exact mem_filter.mpr ⟨hy, decide_eq_true hi⟩
  rw [hmem d hd hid, hmem e he hie]

/-- A document of the index and what has become of it. -/
def Kept (X : Index D I U) (docs : List D) (us : List U) (d d' : D) : Prop :=
  d ∈ docs ∧ (d' = d ∨ ∃ u ∈ us, docs.find? (X.finds u) = some d ∧ X.rebuild d = some d')

theorem Kept.id_eq {d' : D} (h : X.Kept docs us d d') : X.id d' = X.id d := by
  obtain ⟨-, rfl | ⟨-, -, -, hd'⟩⟩ := h
  · rfl
  · exact X.id_rebuild hd'

/-- Clean documents are replaced in their places. -/
theorem kept_update {order : List U} {cur l : List D}
    (hclean : ∀ u d d', docs.find? (X.finds u) = some d → X.rebuild d = some d' →
      X.Clean Same docs u d)
    (horder : order ⊆ us) (hperm : l.Perm cur) (hall : List.Forall₂ (X.Kept docs us) docs l)
    (h : X.update docs cur order = some result) :
    ∃ l, l.Perm result ∧ List.Forall₂ (X.Kept docs us) docs l := by
  induction order generalizing cur l with
  | nil =>
    cases h
    exact ⟨l, hperm, hall⟩
  | cons u order ih =>
    obtain ⟨hu, horder⟩ := cons_subset.mp horder
    obtain ⟨mid, hmid, h⟩ := Option.bind_eq_some_iff.mp h
    unfold step at hmid
    split at hmid
    · cases hmid
      exact ih horder hperm hall h
    next d hfind =>
      obtain ⟨new, hnew, rfl⟩ := Option.map_eq_some_iff.mp hmid
      have hd := hclean u d new hfind hnew
      have hmem := mem_of_find?_eq_some hfind
      have hcount : X.count (X.target u) l = 1 :=
        (count_eq_of_forall₂ (fun _ _ => Kept.id_eq) hall _).trans hd.alone
      refine ih horder ((perm_replace hcount new).trans ((hperm.filter _).append_right _)) ?_ h
      refine forall₂_map_right_iff.mpr (hall.imp fun e e' hkept => ?_)
      split
      next he' =>
        obtain rfl := eq_of_count_eq_one hd.alone hmem hkept.1 hd.id (hkept.id_eq ▸ he')
        exact ⟨hmem, .inr ⟨u, hu, hfind, hnew⟩⟩
      next => exact hkept

/-- Every update that comes to its end replaces the named documents and nothing else, if and
only if everything that can be found and rebuilt is clean. -/
theorem frame_iff (X : Index D I U) (hrefl : ∀ d, Same d d)
    (hid : ∀ d d', Same d d' → X.id d' = X.id d) (docs : List D) :
    (∀ us result, X.update docs docs us = some result → X.Frame Same us docs result) ↔
      ∀ u d d', docs.find? (X.finds u) = some d → X.rebuild d = some d' →
        X.Clean Same docs u d := by
  constructor
  · intro h u d d' hfind hd'
    exact clean_of_frame hid hfind hd' (h [u] _ (by simp [update, step, hfind, hd']))
  · intro hclean us result hresult
    obtain ⟨l, hperm, hall⟩ := kept_update hclean (List.Subset.refl us) (List.Perm.refl docs)
      (forall₂_same.mpr fun d hd => ⟨hd, .inl rfl⟩) hresult
    refine ⟨l, hperm, hall.imp fun d d' hkept => ?_⟩
    obtain ⟨-, rfl | ⟨u, hu, hfind, hnew⟩⟩ := hkept
    · exact ⟨hrefl _, fun _ => rfl⟩
    · have hd := hclean u d d' hfind hnew
      have hfinds : X.finds u d = true := find?_some hfind
      have howns : X.owns u d = true := (Bool.and_eq_true_iff.mp hfinds).1
      exact ⟨hd.same d' hnew, fun hnone => (hnone u hu ⟨howns, hd.id⟩).elim⟩

end Index

end Reindex
