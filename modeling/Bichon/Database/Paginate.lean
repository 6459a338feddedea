import Bichon.Database.Update
import Bichon.Lib.Binary64
import Bichon.Lib.Pages
import Bichon.Lib.U64
import Bichon.MemDb.Reads

/-!
# Pages of a listing

`paginate_vec` cuts a page out of a list in memory, `paginate_impl` out of a collection.
Both compute the place of the first item as a 64-bit product. The number of pages is
rounded up with integers in the one and through `f64` in the other. The results are the
exact page in every build as long as the product, and for `paginate_vec` the sum of the
number of items and the page size, fit into 64 bits.
-/

namespace Bichon.Database

open MemDb Pages U64 Option

variable {α V T : Type}

structure Paginated (α : Type) where
  page : Option Nat
  pageSize : Option Nat
  totalItems : Nat
  totalPages : Option Nat
  items : List α
  deriving DecidableEq, Repr

def zeroPage : BichonError := ⟨"'page' and 'page_size' must be greater than 0.", .invalidParameter⟩

/-- The number of pages. The two functions differ in `ceil`, which gives it for a list
that is not empty. -/
def pagesOf (ceil : Nat → Nat → Option Nat) (totalItems s : Nat) : Option Nat :=
  if 0 < totalItems then ceil totalItems s else some 0

/-- The offset and the number of pages. -/
def pageBounds (build : Build) (ceil : Nat → Nat → Option Nat) (totalItems : Nat)
    (page pageSize : Option Nat) : Option (Except BichonError (Option Nat × Option Nat)) :=
  match page, pageSize with
  | some p, some s =>
    if 0 < p ∧ 0 < s then do
      let offset ← mul build (← sub build p 1) s
      let totalPages ← pagesOf ceil totalItems s
      return .ok (some offset, some totalPages)
    else some (.error zeroPage)
  | some 0, none | none, some 0 => some (.error zeroPage)
  | _, _ => some (.ok (none, none))

/-- `(total_items + s - 1) / s` -/
def ceilPages (build : Build) (totalItems s : Nat) : Option Nat := do
  let sum ← add build totalItems s
  let sum ← sub build sum 1
  return sum / s

/-- `items[start..stop].to_vec()`, which panics when the bounds are not in order. -/
def sliceItems (items : List α) (start stop : Nat) : Option (List α) :=
  if start ≤ stop ∧ stop ≤ items.length then some ((items.drop start).take (stop - start))
  else none

/-- The items from the offset on; all of them without one. -/
def dataFrom (build : Build) (items : List α) (pageSize : Option Nat) :
    Option Nat → Option (List α)
  | none => some items
  | some offset =>
    if items.length ≤ offset then some []
    else do
      let stop ← add build offset (pageSize.getD items.length)
      sliceItems items offset (min stop items.length)

/-- The result of a call, or nothing when it panics. -/
def paginateVec (build : Build) (items : List α) (page pageSize : Option Nat) :
    Option (Except BichonError (Paginated α)) := do
  match ← pageBounds build (ceilPages build) items.length page pageSize with
  | .error e => return .error e
  | .ok (offset, totalPages) =>
    let data ← dataFrom build items pageSize offset
    return .ok ⟨page, pageSize, items.length, totalPages, data⟩

def paginateImpl (M : Model) (build : Build) (fromValue : V → Except DbError T) (data : Data V)
    (page pageSize : Option Nat) (desc : Option Bool) :
    Option (Except BichonError (Paginated T)) := do
  let totalItems := count data M.collection
  match ← pageBounds build (fun n s => some (Binary64.ceilDiv n s)) totalItems page pageSize with
  | .error e => return .error e
  | .ok (offset, totalPages) =>
    match listAll fromValue data M.collection with
    | .error e => return .error (M.raise e)
    | .ok all =>
      let all := if desc = some true then all.reverse else all
      let items := (all.drop (offset.getD 0)).take (pageSize.getD totalItems)
      return .ok ⟨page, pageSize, totalItems, totalPages, items⟩

/-- A page as it is in exact arithmetic. -/
def exactPage (items : List α) (p s : Nat) : Paginated α :=
  ⟨some p, some s, items.length, some (pageCount items.length s), window items s p⟩

section

variable {build : Build} {p s : Nat} (hp : 0 < p) (hs : 0 < s)

include hp hs

theorem pageBounds_of_lt {ceil : Nat → Nat → Option Nat} {n : Nat} (hlt : (p - 1) * s < 2 ^ 64)
    (hceil : 0 < n → ceil n s = some (pageCount n s)) :
    pageBounds build ceil n (some p) (some s) =
      some (.ok (some ((p - 1) * s), some (pageCount n s))) := by
  have hpages : pagesOf ceil n s = some (pageCount n s) := by
    rcases Nat.eq_zero_or_pos n with rfl | hn
    · rw [pagesOf, if_neg (lt_irrefl 0), pageCount_zero]
    · rw [pagesOf, if_pos hn, hceil hn]
  rw [pageBounds, if_pos ⟨hp, hs⟩, sub_of_le hp]
  simp only [mul, fit_of_lt hlt, hpages, bind_eq_bind, bind_some]
  rfl

theorem pageBounds_debug_of_le {ceil : Nat → Nat → Option Nat} {n : Nat}
    (hle : 2 ^ 64 ≤ (p - 1) * s) : pageBounds .debug ceil n (some p) (some s) = none := by
  rw [pageBounds, if_pos ⟨hp, hs⟩, sub_of_le hp]
  simp only [mul, fit_debug_of_le hle, bind_eq_bind, bind_some, bind_none]

end

theorem ceilPages_of_lt {build : Build} {n s : Nat} (hn : 0 < n) (h : n + s < 2 ^ 64) :
    ceilPages build n s = some (pageCount n s) := by
  simp only [ceilPages, add, fit_of_lt h, sub_of_le (show 1 ≤ n + s by omega),
    bind_eq_bind, bind_some]
  rfl

theorem ceilPages_debug_of_le {n s : Nat} (h : 2 ^ 64 ≤ n + s) : ceilPages .debug n s = none := by
  simp only [ceilPages, add, fit_debug_of_le h, bind_eq_bind, bind_none]

theorem sliceItems_eq_window {items : List α} {p s : Nat} (h : (p - 1) * s < items.length) :
    sliceItems items ((p - 1) * s) (min ((p - 1) * s + s) items.length) =
      some (window items s p) := by
  rw [sliceItems, if_pos ⟨by omega, Nat.min_le_right _ _⟩, window]
  congr 1
  rcases Nat.le_total ((p - 1) * s + s) items.length with hle | hle
  · rw [Nat.min_eq_left hle, Nat.add_sub_cancel_left]
  · rw [Nat.min_eq_right hle, List.take_of_length_le (by simp),
      List.take_of_length_le (by simp; omega)]

/-- The result is the exact page in every build, so that nothing has wrapped around, if
and only if the product and the sum fit. -/
theorem paginateVec_eq_exactPage_iff {items : List α} {p s : Nat} (hp : 0 < p) (hs : 0 < s) :
    (∀ build, paginateVec build items (some p) (some s) = some (.ok (exactPage items p s))) ↔
      (p - 1) * s < 2 ^ 64 ∧ (items = [] ∨ items.length + s < 2 ^ 64) := by
  constructor
  · intro h
    have hdebug := h .debug
    constructor
    · by_contra hge
      rw [paginateVec, pageBounds_debug_of_le hp hs (Nat.not_lt.mp hge)] at hdebug
      cases hdebug
    · by_contra hnot
      rw [not_or] at hnot
      have hpos : 0 < items.length := List.length_pos_of_ne_nil hnot.1
      have hnone : pageBounds .debug (ceilPages .debug) items.length (some p) (some s) = none := by
        rw [pageBounds, if_pos ⟨hp, hs⟩, pagesOf, if_pos hpos,
          ceilPages_debug_of_le (Nat.not_lt.mp hnot.2)]
        simp only [bind_eq_bind, bind_none, bind_fun_none]
      rw [paginateVec, hnone] at hdebug
      cases hdebug
  · rintro ⟨hlt, hfit⟩ build
    have hceil : 0 < items.length →
        ceilPages build items.length s = some (pageCount items.length s) := by
      intro hn
      refine ceilPages_of_lt hn (hfit.resolve_left ?_)
      rintro rfl
      exact lt_irrefl 0 hn
    rw [paginateVec, pageBounds_of_lt hp hs hlt hceil]
    simp only [bind_eq_bind, bind_some, getD_some, dataFrom]
    by_cases hbehind : items.length ≤ (p - 1) * s
    · rw [if_pos hbehind, exactPage, window, List.drop_eq_nil_of_le hbehind, List.take_nil]
      rfl
    · have hbefore : (p - 1) * s < items.length := Nat.not_le.mp hbehind
      have hsum : (p - 1) * s + s < 2 ^ 64 := by
        have hne : items ≠ [] := List.ne_nil_of_length_pos (by omega)
        have := hfit.resolve_left hne
        omega
      rw [if_neg hbehind, add, fit_of_lt hsum, bind_some, sliceItems_eq_window hbefore]
      rfl

/-! ### Collections -/

theorem length_of_mapM_eq_ok {ε β : Type} {f : α → Except ε β} {xs : List α} {ys : List β}
    (h : xs.mapM f = .ok ys) : ys.length = xs.length := by
  induction xs generalizing ys with
  | nil =>
    cases h
    rfl
  | cons x xs ih =>
    rw [List.mapM_cons] at h
    obtain ⟨y, -, h⟩ := ByteFile.bind_eq_ok h
    obtain ⟨zs, hzs, h⟩ := ByteFile.bind_eq_ok h
    cases h
    rw [List.length_cons, List.length_cons, ih hzs]

theorem count_eq_length {fromValue : V → Except DbError T} {data : Data V} {name : String}
    {all : List T} (h : listAll fromValue data name = .ok all) : count data name = all.length := by
  rw [listAll_eq] at h
  rw [length_of_mapM_eq_ok h, count, Data.records, length_inOrder]
  cases data.lookup name with
  | none | some => rfl

/-- The records in the order of the call. -/
def directed (desc : Option Bool) (all : List T) : List T :=
  if desc = some true then all.reverse else all

theorem length_directed (desc : Option Bool) (all : List T) :
    (directed desc all).length = all.length := by
  unfold directed
  split
  · exact List.length_reverse
  · rfl

theorem paginateImpl_eq_exactPage_iff {M : Model} {fromValue : V → Except DbError T}
    {data : Data V} {all : List T} (hall : listAll fromValue data M.collection = .ok all)
    (hsmall : all.length < 2 ^ 53) (desc : Option Bool) {p s : Nat} (hp : 0 < p) (hs : 0 < s) :
    (∀ build, paginateImpl M build fromValue data (some p) (some s) desc =
        some (.ok (exactPage (directed desc all) p s))) ↔ (p - 1) * s < 2 ^ 64 := by
  constructor
  · intro h
    have hdebug := h .debug
    by_contra hge
    rw [paginateImpl, pageBounds_debug_of_le hp hs (Nat.not_lt.mp hge)] at hdebug
    cases hdebug
  · intro hlt build
    have hcount := count_eq_length hall
    have hceil : 0 < all.length → some (Binary64.ceilDiv all.length s) =
        some (pageCount all.length s) := fun hn => by
      rw [Binary64.ceilDiv_eq hn hsmall hs, pageCount]
    rw [paginateImpl, hcount, pageBounds_of_lt hp hs hlt hceil, hall]
    simp only [bind_eq_bind, bind_some, getD_some, exactPage, window,
      length_directed]
    rfl

/-- The items a call of `paginate_vec` returns. -/
def vecItems (build : Build) (items : List α) (page s : Nat) : List α :=
  match paginateVec build items (some page) (some s) with
  | some (.ok paginated) => paginated.items
  | _ => []

theorem flatMap_vecItems {items : List α} {s : Nat} (hs : 0 < s)
    (hfit : items = [] ∨ items.length + s < 2 ^ 64) (build : Build) :
    (List.range (pageCount items.length s)).flatMap (fun i => vecItems build items (i + 1) s) =
      items := by
  have hpage : ∀ i ∈ List.range (pageCount items.length s),
      vecItems build items (i + 1) s = window items s (i + 1) := by
    intro i hi
    have hlt := mul_lt_of_lt_pageCount (List.mem_range.mp hi)
    have hfits : (i + 1 - 1) * s < 2 ^ 64 := by
      have hne : items ≠ [] := List.ne_nil_of_length_pos (by omega)
      have := hfit.resolve_left hne
      rw [Nat.add_sub_cancel]
      omega
    rw [vecItems, (paginateVec_eq_exactPage_iff (Nat.succ_pos i) hs).mpr ⟨hfits, hfit⟩ build]
    rfl
  rw [List.flatMap_congr hpage, flatMap_window hs]

/-- Both functions return the exact page in every build if and only if the product and,
for a list that is not empty, the sum fit. The pages of a list are then the list once,
and a page behind them is empty. -/
theorem paginate_exact_iff (items : List α) (M : Model) (fromValue : V → Except DbError T)
    (data : Data V) (all : List T) (desc : Option Bool) (p s : Nat) (hp : 0 < p) (hs : 0 < s)
    (hall : listAll fromValue data M.collection = .ok all) (hsmall : all.length < 2 ^ 53) :
    ((∀ build, paginateVec build items (some p) (some s) = some (.ok (exactPage items p s))) ↔
        (p - 1) * s < 2 ^ 64 ∧ (items = [] ∨ items.length + s < 2 ^ 64)) ∧
      ((∀ build, paginateImpl M build fromValue data (some p) (some s) desc =
        some (.ok (exactPage (directed desc all) p s))) ↔ (p - 1) * s < 2 ^ 64) ∧
      ((items = [] ∨ items.length + s < 2 ^ 64) → ∀ build,
        (List.range (pageCount items.length s)).flatMap
          (fun i => vecItems build items (i + 1) s) = items) ∧
      (pageCount items.length s < p → (exactPage items p s).items = []) :=
  ⟨paginateVec_eq_exactPage_iff hp hs, paginateImpl_eq_exactPage_iff hall hsmall desc hp hs,
    fun hfit build => flatMap_vecItems hs hfit build, fun hbehind => window_eq_nil hs hbehind⟩

def oneRecord : Data Nat := (∅ : Data Nat).insert "items" ((∅ : Finmap fun _ => Nat).insert "1" 5)

def itemsModel : Model where
  collection := "items"
  debug := fun _ => ""

/-- The first item of page `2 ^ 63 + 1` has the number `2 ^ 64`, which wraps around to the
first item of all. A page size that reaches to the end of the numbers leaves no pages. -/
theorem far_page_repeats_first :
    paginateVec .release [7, 8, 9] (some (2 ^ 63 + 1)) (some 2) =
        some (.ok ⟨some (2 ^ 63 + 1), some 2, 3, some 2, [7, 8]⟩) ∧
      paginateVec .debug [7, 8, 9] (some (2 ^ 63 + 1)) (some 2) = none ∧
      (exactPage [7, 8, 9] (2 ^ 63 + 1) 2).items = [] ∧
      paginateVec .release [7, 8, 9] (some 1) (some (2 ^ 64 - 1)) =
        some (.ok ⟨some 1, some (2 ^ 64 - 1), 3, some 0, [7, 8, 9]⟩) ∧
      (paginateImpl itemsModel .release .ok oneRecord (some (2 ^ 63 + 1)) (some 2) none).map
          (fun r => r.toOption.map Paginated.items) = some (some [5]) := by
  decide +kernel

/-- The second page of three items and the only page of one record. -/
theorem paginate_exact_iff_small :
    (∀ build, paginateVec build [7, 8, 9] (some 2) (some 2) =
        some (.ok ⟨some 2, some 2, 3, some 2, [9]⟩)) ∧
      ∀ build, paginateImpl itemsModel build (.ok : Nat → Except DbError Nat) oneRecord (some 1)
        (some 2) none = some (.ok ⟨some 1, some 2, 1, some 1, [5]⟩) := by
  have hall : listAll (.ok : Nat → Except DbError Nat) oneRecord itemsModel.collection =
      .ok [5] := by
    decide +kernel
  exact ⟨(paginate_exact_iff [7, 8, 9] itemsModel .ok oneRecord [5] none 2 2 (by decide) (by decide)
      hall (by decide)).1.mpr (by decide),
    (paginate_exact_iff [7, 8, 9] itemsModel .ok oneRecord [5] none 1 2 (by decide) (by decide)
      hall (by decide)).2.1.mpr (by decide)⟩

end Bichon.Database
