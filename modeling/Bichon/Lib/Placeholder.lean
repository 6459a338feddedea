import Bichon.Lib.Splice
import Mathlib.Data.List.Destutter
import Mathlib.Data.List.Sort

/-!
# Placeholders in a text

Parts of a text are cut out and a placeholder `pat k` is left for each of them;
later every placeholder that is found in the text is filled with `fill k`. The
placeholders are found by searching, so those that stood in the text from the
beginning are filled as well.

`Separated` says that no two placeholders can overlap, `Marks` lists the places
of all placeholders of a text from right to left, and `restore_eq` says when the
filled text is the one that the parts were cut out of: when no placeholder stood
between the parts, and only then if no part contains its own placeholder.
-/

namespace Splice

open List

variable {α κ : Type*}

/-- The placeholders of `keys` are not empty, none of them starts inside of
another one, and two of them at one place are the same. -/
structure Separated (pat : κ → List α) (keys : κ → Prop) : Prop where
  ne_nil : ∀ {k : κ}, keys k → pat k ≠ []
  apart : ∀ {k l : κ} {text : List α} {i j : Nat}, keys k → keys l → pat k <+: text.drop i →
    pat l <+: text.drop j →
    i < j → i + (pat k).length ≤ j
  inj : ∀ {k l : κ} {text : List α}, keys k → keys l → pat k <+: text → pat l <+: text → k = l

theorem Separated.mono {pat : κ → List α} {keys keys' : κ → Prop} (h : Separated pat keys)
    (hsub : ∀ {k}, keys' k → keys k) : Separated pat keys' where
  ne_nil hk := h.ne_nil (hsub hk)
  apart hk hl := h.apart (hsub hk) (hsub hl)
  inj hk hl := h.inj (hsub hk) (hsub hl)

/-- `ms` lists the places of all placeholders in the text, from right to left. -/
structure Marks (pat : κ → List α) (keys : κ → Prop) (text : List α) (ms : List (Nat × κ)) :
    Prop where
  sorted : ms.Pairwise fun m n => n.1 < m.1
  mem_iff : ∀ i k, (i, k) ∈ ms ↔ keys k ∧ pat k <+: text.drop i

variable {pat : κ → List α} {keys : κ → Prop} {text : List α}

variable {ms ns : List (Nat × κ)}

theorem Marks.nodup (h : Marks pat keys text ms) : ms.Nodup := by
  refine h.sorted.imp ?_
  rintro m n hlt rfl
  exact absurd hlt (lt_irrefl _)

theorem Marks.unique (hm : Marks pat keys text ms) (hn : Marks pat keys text ns) : ms = ns := by
  have hperm : ms.Perm ns := by
    rw [perm_ext_iff_of_nodup hm.nodup hn.nodup]
    rintro ⟨i, k⟩
    rw [hm.mem_iff, hn.mem_iff]
  refine hperm.eq_of_pairwise ?_ hm.sorted hn.sorted
  intro m n _ _ hmn hnm
  omega

theorem isPrefix_drop_length {p : List α} {i : Nat} (hp : p ≠ []) (h : p <+: text.drop i) :
    i + p.length ≤ text.length := by
  have hlen := h.length_le
  have hpos := length_pos_of_ne_nil hp
  rw [length_drop] at hlen
  omega

theorem exists_marks (hsep : Separated pat keys) (text : List α) :
    ∃ ms, Marks pat keys text ms := by
  classical
  refine ⟨(range text.length).reverse.filterMap fun i =>
    if h : ∃ k, keys k ∧ pat k <+: text.drop i then some (i, h.choose) else none, ?_, ?_⟩
  · refine pairwise_filterMap.mpr ((pairwise_reverse.mpr pairwise_lt_range).imp ?_)
    intro i j hlt m hm n hn
    obtain ⟨-, ⟨⟩⟩ := Option.dite_none_right_eq_some.mp hm
    obtain ⟨-, ⟨⟩⟩ := Option.dite_none_right_eq_some.mp hn
    exact hlt
  · intro i k
    simp only [mem_filterMap, mem_reverse, mem_range, Option.dite_none_right_eq_some,
      Option.some.injEq, Prod.mk.injEq]
    constructor
    · rintro ⟨i, -, h, rfl, rfl⟩
      exact h.choose_spec
    · rintro ⟨hk, hpat⟩
      have hlen := isPrefix_drop_length (hsep.ne_nil hk) hpat
      have hpos := length_pos_of_ne_nil (hsep.ne_nil hk)
      have h : ∃ k, keys k ∧ pat k <+: text.drop i := ⟨k, hk, hpat⟩
      exact ⟨i, by omega, h, rfl, hsep.inj h.choose_spec.1 hk h.choose_spec.2 hpat⟩

variable {k : κ}

/-- A placeholder inside of `xs ++ pat k ++ ys` is inside of `xs`, the one in the
middle, or inside of `ys`. -/
theorem isPrefix_drop_append (hsep : Separated pat keys) {l : κ} (hk : keys k) (hl : keys l)
    (xs ys : List α) (i : Nat) :
    pat l <+: (xs ++ (pat k ++ ys)).drop i ↔
      pat l <+: xs.drop i ∨ (i = xs.length ∧ l = k) ∨
        ∃ j, i = xs.length + (pat k).length + j ∧ pat l <+: ys.drop j := by
  have hmid : pat k <+: (xs ++ (pat k ++ ys)).drop xs.length := by
    rw [drop_left]
    exact prefix_append _ _
  constructor
  · intro hpat
    rcases lt_trichotomy i xs.length with hlt | rfl | hgt
    · -- It starts in `xs` and ends before the one in the middle starts.
      have hend := hsep.apart hl hk hpat hmid hlt
      left
      rw [drop_append_of_le_length hlt.le] at hpat
      apply prefix_of_prefix_length_le hpat (prefix_append _ _)
      rw [length_drop]
      omega
    · exact .inr (.inl ⟨rfl, hsep.inj hl hk hpat hmid⟩)
    · have hstart := hsep.apart hk hl hmid hpat hgt
      refine .inr (.inr ⟨i - (xs.length + (pat k).length), by omega, ?_⟩)
      have hdrop : (xs ++ (pat k ++ ys)).drop i = ys.drop (i - (xs.length + (pat k).length)) := by
        rw [← append_assoc, drop_append, drop_eq_nil_of_le, nil_append,
          length_append]
        rw [length_append]
        omega
      rwa [hdrop] at hpat
  · rintro (hxs | ⟨rfl, rfl⟩ | ⟨j, rfl, hys⟩)
    · have hlen := isPrefix_drop_length (hsep.ne_nil hl) hxs
      rw [drop_append_of_le_length (by omega)]
      exact hxs.trans (prefix_append _ _)
    · exact hmid
    · rw [← append_assoc, ← length_append, drop_length_add_append]
      exact hys

variable {xs : List α}

/-- The marks of a text around a placeholder. -/
theorem Marks.append (hsep : Separated pat keys) (hk : keys k) {ys : List α}
    (hms : Marks pat keys xs ms) (hns : Marks pat keys ys ns) :
    Marks pat keys (xs ++ (pat k ++ ys))
      (ns.map (fun m => (xs.length + (pat k).length + m.1, m.2)) ++ (xs.length, k) :: ms) := by
  have hlt : ∀ m ∈ ms, m.1 < xs.length := by
    rintro ⟨i, l⟩ hmem
    obtain ⟨hl, hpat⟩ := (hms.mem_iff i l).mp hmem
    have hlen := isPrefix_drop_length (hsep.ne_nil hl) hpat
    have hpos := length_pos_of_ne_nil (hsep.ne_nil hl)
    change i < xs.length
    omega
  have hpos := length_pos_of_ne_nil (hsep.ne_nil hk)
  constructor
  · rw [pairwise_append, pairwise_cons, pairwise_map]
    refine ⟨hns.sorted.imp fun h => by simpa using h, ⟨hlt, hms.sorted⟩, ?_⟩
    simp only [mem_map, mem_cons]
    rintro m ⟨n, -, rfl⟩ m' (rfl | hm')
    · omega
    · have := hlt m' hm'
      omega
  · intro i l
    simp only [mem_append, mem_map, mem_cons, Prod.mk.injEq, Prod.exists,
      hms.mem_iff, hns.mem_iff]
    constructor
    · rintro (⟨j, l', ⟨hl, hj⟩, rfl, rfl⟩ | ⟨rfl, rfl⟩ | ⟨hl, hi⟩)
      · exact ⟨hl, (isPrefix_drop_append hsep hk hl xs ys _).mpr (.inr (.inr ⟨j, rfl, hj⟩))⟩
      · exact ⟨hk, (isPrefix_drop_append hsep hk hk xs ys _).mpr (.inr (.inl ⟨rfl, rfl⟩))⟩
      · exact ⟨hl, (isPrefix_drop_append hsep hk hl xs ys _).mpr (.inl hi)⟩
    · rintro ⟨hl, hi⟩
      rcases (isPrefix_drop_append hsep hk hl xs ys i).mp hi with hxs | ⟨rfl, rfl⟩ | ⟨j, rfl, hys⟩
      · exact .inr (.inr ⟨hl, hxs⟩)
      · exact .inr (.inl ⟨rfl, rfl⟩)
      · exact .inl ⟨j, l, ⟨hl, hys⟩, rfl, rfl⟩

/-- The edit that fills the placeholder at a mark. -/
def fillEdit (pat fill : κ → List α) (m : Nat × κ) : Edit α :=
  ⟨m.1, m.1 + (pat m.2).length, fill m.2⟩

theorem Marks.descends (hsep : Separated pat keys) (fill : κ → List α)
    (h : Marks pat keys text ms) : Descends text.length (ms.map (fillEdit pat fill)) := by
  have hmem : ∀ m ∈ ms, keys m.2 ∧ pat m.2 <+: text.drop m.1 :=
    fun m hm => (h.mem_iff m.1 m.2).mp hm
  refine descends_of_pairwise (pairwise_map.mpr ?_) (forall_mem_map.mpr fun m hm => ?_)
  · refine h.sorted.imp_of_mem fun {m n} hm hn hlt => ?_
    exact hsep.apart (hmem n hn).1 (hmem m hm).1 (hmem n hn).2 (hmem m hm).2 hlt
  · exact ⟨Nat.le_add_right _ _, isPrefix_drop_length (hsep.ne_nil (hmem m hm).1) (hmem m hm).2⟩

/-- A mark is where its placeholder stands. -/
theorem Marks.old_eq (h : Marks pat keys text ms) (fill : κ → List α)
    {m : Nat × κ} (hm : m ∈ ms) : (fillEdit pat fill m).old text = pat m.2 := by
  obtain ⟨-, hpat⟩ := (h.mem_iff m.1 m.2).mp hm
  rw [Edit.old, fillEdit, drop_take, Nat.add_sub_cancel_left]
  exact (prefix_iff_eq_take.mp hpat).symm

theorem fillEdit_shift (fill : κ → List α) (n : Nat) (ms : List (Nat × κ)) :
    (ms.map fun m => (n + m.1, m.2)).map (fillEdit pat fill) =
      (ms.map (fillEdit pat fill)).map (Edit.shift n) := by
  simp only [map_map, Function.comp_def, fillEdit, Edit.shift, Nat.add_assoc]

/-- Filling the placeholders around one of them. -/
theorem Marks.rewrite_append (hsep : Separated pat keys) (fill : κ → List α)
    {ys : List α} (hms : Marks pat keys xs ms) :
    rewrite ((ns.map (fun m => (xs.length + (pat k).length + m.1, m.2)) ++
        (xs.length, k) :: ms).map (fillEdit pat fill)) (xs ++ (pat k ++ ys)) =
      rewrite (ms.map (fillEdit pat fill)) xs ++
        (fill k ++ rewrite (ns.map (fillEdit pat fill)) ys) := by
  have hfirst : Descends (xs ++ pat k).length
      (((xs.length, k) :: ms).map (fillEdit pat fill)) :=
    ⟨Nat.le_add_right _ _, by simp [fillEdit], hms.descends hsep fill⟩
  rw [map_append, fillEdit_shift, ← append_assoc, ← length_append,
    rewrite_shift_append hfirst]
  simp [rewrite, fillEdit]

/-- A part of the text that is cut out, with the key it is kept under. -/
structure Cut (κ : Type*) where
  start : Nat
  stop : Nat
  key : κ

/-- The edit that leaves the placeholder of a cut. -/
def cutEdit (pat : κ → List α) (c : Cut κ) : Edit α := ⟨c.start, c.stop, pat c.key⟩

/-- Cuts of a text from right to left, each of something, under one of the keys. -/
structure Cuts (pat : κ → List α) (keys : κ → Prop) (text : List α) (cuts : List (Cut κ)) :
    Prop where
  descends : Descends text.length (cuts.map (cutEdit pat))
  lt : ∀ c ∈ cuts, c.start < c.stop
  keys : ∀ c ∈ cuts, keys c.key

/-- A placeholder that stands in the text outside of all cuts. -/
def Literal (pat : κ → List α) (cuts : List (Cut κ)) (text : List α) (i : Nat) (k : κ) : Prop :=
  pat k <+: text.drop i ∧ ∀ c ∈ cuts, i + (pat k).length ≤ c.start ∨ c.stop ≤ i

/-- The pieces of a text in which placeholders were filled: only the places of the
placeholders change. -/
theorem Marks.forall_sides (hsep : Separated pat keys) (fill : κ → List α)
    (h : Marks pat keys text ms) {P : List α × List α → Prop} (hrefl : ∀ xs, P (xs, xs)) :
    (∀ p ∈ sides (ms.map (fillEdit pat fill)) text, P p) ↔
      ∀ i k, keys k → pat k <+: text.drop i → P (pat k, fill k) := by
  rw [forall_mem_sides hrefl (h.descends hsep fill), forall_mem_map, Prod.forall]
  refine forall₂_congr fun i k => ?_
  rw [← and_imp, ← h.mem_iff]
  exact forall_congr' fun hm => by rw [h.old_eq fill hm, fillEdit]

variable {cuts : List (Cut κ)}

variable {c : Cut κ}

theorem Cuts.tail (h : Cuts pat keys text (c :: cuts)) :
    Cuts pat keys (text.take c.start) cuts where
  descends := h.descends.tail
  lt := fun d hd => h.lt d (mem_cons_of_mem c hd)
  keys := fun d hd => h.keys d (mem_cons_of_mem c hd)

/-- A placeholder outside of a cut and those before it stands in front of the
cut, outside of the others, or behind it. -/
theorem literal_cons (hcuts : Cuts pat keys text (c :: cuts)) {i : Nat} (hk : pat k ≠ []) :
    Literal pat (c :: cuts) text i k ↔
      Literal pat cuts (text.take c.start) i k ∨
        ∃ j, i = c.stop + j ∧ pat k <+: (text.drop c.stop).drop j := by
  have hpos := length_pos_of_ne_nil hk
  have hc := hcuts.lt c (mem_cons_self ..)
  rw [Literal, forall_mem_cons]
  constructor
  · rintro ⟨hpat, hleft | hright, hcs⟩
    · left
      refine ⟨?_, hcs⟩
      rw [drop_take]
      exact prefix_take_iff.mpr ⟨hpat, by omega⟩
    · refine .inr ⟨i - c.stop, by omega, ?_⟩
      rw [drop_drop, Nat.add_sub_cancel' hright]
      exact hpat
  · rintro (⟨hpat, hcs⟩ | ⟨j, rfl, hpat⟩)
    · rw [drop_take, prefix_take_iff] at hpat
      exact ⟨hpat.1, .inl (by omega), hcs⟩
    · rw [drop_drop] at hpat
      refine ⟨hpat, .inr (Nat.le_add_right _ _), fun d hd => .inr ?_⟩
      have hd' : d.stop ≤ c.start := hcuts.descends.2.2.stop_le (mem_map_of_mem hd)
      omega

/-- A placeholder is found after the cuts when it was left by one of them or
stood in the text. -/
theorem exists_isPrefix_rewrite_iff (hsep : Separated pat keys) (hcuts : Cuts pat keys text cuts)
    (hk : keys k) :
    (∃ i, pat k <+: (rewrite (cuts.map (cutEdit pat)) text).drop i) ↔
      (∃ c ∈ cuts, c.key = k) ∨ ∃ i, Literal pat cuts text i k := by
  induction cuts generalizing text with
  | nil => simp [rewrite, Literal]
  | cons c cuts ih =>
    have hck := hcuts.keys c (mem_cons_self ..)
    simp only [map_cons, rewrite, append_assoc]
    simp only [cutEdit, isPrefix_drop_append hsep hck hk, literal_cons hcuts (hsep.ne_nil hk),
      exists_or, mem_cons, or_and_right, exists_eq_left]
    rw [ih hcuts.tail]
    constructor
    · rintro ((hcut | hlit) | rfl | ⟨-, j, -, hj⟩)
      · exact .inl (.inr hcut)
      · exact .inr (.inl hlit)
      · exact .inl (.inl rfl)
      · exact .inr (.inr ⟨_, j, rfl, hj⟩)
    · rintro ((rfl | hcut) | hlit | ⟨-, j, -, hj⟩)
      · exact .inr (.inl rfl)
      · exact .inl (.inl hcut)
      · exact .inl (.inr hlit)
      · exact .inr (.inr ⟨_, j, rfl, hj⟩)

/-- The text along the cuts, each piece with what stands there after the
placeholders were filled: only the placeholders between the cuts have changed. -/
theorem exists_sides (hsep : Separated pat keys) {fill : κ → List α} {text : List α}
    (hcuts : Cuts pat keys text cuts) (hfill : ∀ c ∈ cuts, fill c.key = (cutEdit pat c).old text)
    (hms : Marks pat keys (rewrite (cuts.map (cutEdit pat)) text) ms) :
    ∃ ps : List (List α × List α), (ps.map Prod.fst).flatten = text ∧
      (ps.map Prod.snd).flatten =
        rewrite (ms.map (fillEdit pat fill)) (rewrite (cuts.map (cutEdit pat)) text) ∧
      ∀ P : List α × List α → Prop, (∀ xs, P (xs, xs)) →
        ((∀ p ∈ ps, P p) ↔ ∀ i k, keys k → Literal pat cuts text i k → P (pat k, fill k)) := by
  induction cuts generalizing text ms with
  | nil =>
    refine ⟨_, flatten_sides_fst (hms.descends hsep fill), flatten_sides_snd _ _, ?_⟩
    intro P hrefl
    apply (hms.forall_sides hsep fill hrefl).trans
    simp [Literal, rewrite]
  | cons c cuts ih =>
    obtain ⟨ns, hns⟩ := exists_marks hsep (text.drop c.stop)
    obtain ⟨us, hus⟩ := exists_marks hsep (rewrite (cuts.map (cutEdit pat)) (text.take c.start))
    have hck := hcuts.keys c (mem_cons_self ..)
    have hold : ∀ d ∈ cuts, (cutEdit pat d).old (text.take c.start) = (cutEdit pat d).old text :=
      fun d hd => Edit.old_take (hcuts.descends.2.2.stop_le (mem_map_of_mem hd)) text
    obtain ⟨ps, hfst, hsnd, hpieces⟩ := ih hcuts.tail
      (fun d hd => (hfill d (mem_cons_of_mem c hd)).trans (hold d hd).symm) hus
    have hmarks := hms.unique (by
      have := Marks.append hsep hck hus hns
      simpa only [map_cons, rewrite, cutEdit, append_assoc] using this)
    refine ⟨ps ++ (fill c.key, fill c.key) ::
      sides (ns.map (fillEdit pat fill)) (text.drop c.stop), ?_, ?_, fun P hrefl => ?_⟩
    · have hcut := (cutEdit pat c).take_append_old hcuts.descends.1 text
      rw [map_append, flatten_append, hfst, map_cons, flatten_cons,
        flatten_sides_fst (hns.descends hsep fill), hfill c (mem_cons_self ..),
        ← append_assoc]
      change text.take (cutEdit pat c).start ++ _ ++ _ = _
      rw [hcut]
      exact take_append_drop c.stop text
    · rw [hmarks, map_append, flatten_append, hsnd, map_cons, flatten_cons,
        flatten_sides_snd]
      simp only [map_cons, rewrite, cutEdit, append_assoc]
      exact (Marks.rewrite_append hsep fill hus).symm
    · rw [forall_mem_append, forall_mem_cons, hpieces P hrefl, hns.forall_sides hsep fill hrefl]
      constructor
      · rintro ⟨hleft, -, hright⟩ i k hk hlit
        rcases (literal_cons hcuts (hsep.ne_nil hk)).mp hlit with hin | ⟨j, -, hj⟩
        · exact hleft i k hk hin
        · exact hright j k hk hj
      · intro h
        refine ⟨fun i k hk hlit => ?_, hrefl _, fun j k hk hj => ?_⟩
        · exact h i k hk ((literal_cons hcuts (hsep.ne_nil hk)).mpr (.inl hlit))
        · exact h _ k hk ((literal_cons hcuts (hsep.ne_nil hk)).mpr (.inr ⟨j, rfl, hj⟩))

/-- The parts come back when no placeholder stood between them, and only then if
no placeholder occurs in what it is filled with. -/
theorem restore_eq (hsep : Separated pat keys) {fill : κ → List α} {text : List α}
    (hcuts : Cuts pat keys text cuts) (hfill : ∀ c ∈ cuts, fill c.key = (cutEdit pat c).old text)
    (hms : Marks pat keys (rewrite (cuts.map (cutEdit pat)) text) ms) :
    ((∀ i k, keys k → ¬ Literal pat cuts text i k) →
      rewrite (ms.map (fillEdit pat fill)) (rewrite (cuts.map (cutEdit pat)) text) = text) ∧
    ((∀ k, keys k → ¬ pat k <:+: fill k) →
      rewrite (ms.map (fillEdit pat fill)) (rewrite (cuts.map (cutEdit pat)) text) = text →
        ∀ i k, keys k → ¬ Literal pat cuts text i k) := by
  obtain ⟨ps, hfst, hsnd, hpieces⟩ := exists_sides hsep hcuts hfill hms
  have hequal := hpieces (fun p => p.1 = p.2) fun _ => rfl
  rw [← hsnd]
  constructor
  · intro hnone
    have heq := hequal.mpr fun i k hk hlit => absurd hlit (hnone i k hk)
    rw [← map_congr_left heq, hfst]
  · intro hself hrestored i k hk hlit
    have hinfix := (hpieces (fun p => p.1 = p.2 ∨ ¬ p.1 <:+: p.2) fun _ => .inl rfl).mpr
      fun _ l hl _ => .inr (hself l hl)
    have heq := (flatten_eq_iff hinfix).mp (hrestored.trans hfst.symm)
    have hsame : pat k = fill k := hequal.mp heq i k hk hlit
    exact hself k hk (by rw [hsame])

section Destutter

/-- Sorting by a place puts the last one first. -/
theorem pairwise_insertionSort_desc {β : Type*} (key : β → Nat) (l : List β) :
    (l.insertionSort fun a b => key b ≤ key a).Pairwise fun a b => key b ≤ key a := by
  exact pairwise_insertionSort _ l

variable {β : Type*} (R : β → β → Prop) [DecidableRel R]

variable {l : List β}

variable {γ : Type*} {f : β → γ}

theorem mem_map_destutter' {a : β} (h : ∀ y ∈ a :: l, ∀ z ∈ a :: l, ¬ R y z → f y = f z) {x : γ} :
    x ∈ (l.destutter' R a).map f ↔ x ∈ (a :: l).map f := by
  induction l generalizing a with
  | nil => rfl
  | cons b l ih =>
    rw [destutter'_cons]
    by_cases hab : R a b
    · rw [if_pos hab, map_cons, mem_cons, map_cons, mem_cons,
        ih fun y hy z hz => h y (mem_cons_of_mem a hy) z (mem_cons_of_mem a hz)]
    · have hsub : a :: l ⊆ a :: b :: l := ((sublist_cons_self b l).cons_cons a).subset
      have heq : f a = f b := h a (by simp) b (by simp) hab
      rw [if_neg hab, ih fun y hy z hz => h y (hsub hy) z (hsub hz)]
      simp [heq]

/-- Without repetitions a list that descends does so strictly. -/
theorem pairwise_destutter {key : β → Nat}
    (hsorted : l.Pairwise fun y z => key z ≤ key y) (h : ∀ y ∈ l, ∀ z ∈ l, R y z → key y ≠ key z) :
    (l.destutter R).Pairwise fun y z => key z < key y := by
  have hmem := (destutter_sublist R l).subset
  have hle := (hsorted.sublist (destutter_sublist R l)).isChain
  have : Trans (fun y z : β => key z < key y) (fun y z => key z < key y)
    (fun y z => key z < key y) := ⟨fun hyz hzw => hzw.trans hyz⟩
  rw [← isChain_iff_pairwise, isChain_iff_getElem]
  intro i hi
  refine lt_of_le_of_ne (isChain_iff_getElem.mp hle i hi) (Ne.symm ?_)
  exact h _ (hmem (getElem_mem _)) _ (hmem (getElem_mem _))
    (isChain_iff_getElem.mp (isChain_destutter R l) i hi)

/-- Dropping the repetitions keeps what is looked at of the elements, if it is the same for all
that repeat each other. -/
theorem mem_map_destutter (h : ∀ y ∈ l, ∀ z ∈ l, ¬ R y z → f y = f z) {x : γ} :
    x ∈ (l.destutter R).map f ↔ x ∈ l.map f := by
  cases l with
  | nil => simp
  | cons a l =>
    exact mem_map_destutter' R h

end Destutter

end Splice
