import Mathlib.Data.Finset.Sort
import Bichon.Lib.PrefixRange
import Bichon.Lib.Utf8
import Bichon.MemDb.Db

/-!
# Reading a collection

A collection is a `BTreeMap`, so a reader goes through it in the order of its keys, and
keys are compared by their UTF-8 bytes. `inOrder` is that order of the records.
`scan_prefix` asks the map for the keys from the prefix on and stops at the first one
that does not begin with it. `fromValue` is `serde_json::from_value` at the type of the
caller; the first record it refuses ends the call.
-/

namespace Bichon.MemDb

open ByteFile List

variable {V T : Type}

def keyBytes (key : String) : Bytes := Utf8.encode key.toList

def startsWith (key start : String) : Bool := (keyBytes start).isPrefixOf (keyBytes key)

def KeyLe (a b : String) : Prop := keyBytes a ≤ keyBytes b

instance : DecidableRel KeyLe := fun a b => inferInstanceAs (Decidable (keyBytes a ≤ keyBytes b))

theorem keyBytes_injective : Function.Injective keyBytes := by
  intro a b h
  have hdecode := congrArg Utf8.decode h
  simp only [keyBytes, Utf8.decode_encode, Option.some.injEq] at hdecode
  exact String.toList_injective hdecode

instance : IsTrans String KeyLe := ⟨fun _ _ _ => List.le_trans⟩

instance : Std.Antisymm KeyLe := ⟨fun _ _ h h' => keyBytes_injective (List.le_antisymm h h')⟩

instance : Std.Total KeyLe := ⟨fun a b => List.le_total (keyBytes a) (keyBytes b)⟩

def inOrder (col : Finmap fun _ : String => V) : List (String × V) :=
  (col.keys.sort KeyLe).filterMap fun key => (col.lookup key).map (key, ·)

section

variable (fromValue : V → Except DbError T) (data : Data V) (name : String)

def listAll : Except DbError (List T) :=
  match data.lookup name with
  | none => .ok []
  | some col => (inOrder col).mapM fun r => fromValue r.2

/-- `col.range(prefix..)`, as far as the keys begin with the prefix. -/
def scanPrefix (start : String) : Except DbError (List T) :=
  match data.lookup name with
  | none => .ok []
  | some col =>
    (((inOrder col).dropWhile fun r => decide (keyBytes r.1 < keyBytes start)).takeWhile
      fun r => startsWith r.1 start).mapM fun r => fromValue r.2

def count : Nat := ((data.lookup name).map fun col => col.keys.card).getD 0

end

theorem startsWith_iff {key start : String} :
    startsWith key start = true ↔ start.toList <+: key.toList := by
  rw [startsWith, isPrefixOf_iff_prefix]
  constructor
  · rintro ⟨rest, hrest⟩
    have hdecode := Utf8.decode_encode key.toList
    rw [← keyBytes, ← hrest, keyBytes, Utf8.decode_encode_append] at hdecode
    obtain ⟨text, -, htext⟩ := Option.map_eq_some_iff.mp hdecode
    exact ⟨text, htext⟩
  · rintro ⟨text, htext⟩
    exact ⟨Utf8.encode text, by rw [keyBytes, keyBytes, ← htext, Utf8.encode_append]⟩

@[simp] theorem inOrder_empty : inOrder (∅ : Finmap fun _ : String => V) = [] := by
  rw [inOrder, Finmap.keys_empty, Finset.sort_empty, filterMap_nil]

section

variable (col : Finmap fun _ : String => V)

theorem mem_inOrder {key : String} {value : V} :
    (key, value) ∈ inOrder col ↔ col.lookup key = some value := by
  simp only [inOrder, mem_filterMap, Finset.mem_sort, Finmap.mem_keys, Option.map_eq_some_iff]
  constructor
  · rintro ⟨_, -, _, hlookup, heq⟩
    cases heq
    exact hlookup
  · exact fun h => ⟨key, Finmap.mem_of_lookup_eq_some h, value, h, rfl⟩

/-- Every key has its record, so none is left out. -/
theorem map_fst_inOrder : (inOrder col).map Prod.fst = col.keys.sort KeyLe := by
  rw [inOrder, map_filterMap]
  refine (filterMap_congr fun key hkey => ?_).trans filterMap_some
  rw [Finset.mem_sort, Finmap.mem_keys, Finmap.mem_iff] at hkey
  obtain ⟨value, hvalue⟩ := hkey
  rw [hvalue]
  rfl

theorem pairwise_le_inOrder : (inOrder col).Pairwise fun r t => keyBytes r.1 ≤ keyBytes t.1 := by
  have hsorted := Finset.pairwise_sort col.keys KeyLe
  rw [← map_fst_inOrder] at hsorted
  exact (pairwise_map (R := KeyLe)).mp hsorted

theorem nodup_keys_inOrder : ((inOrder col).map Prod.fst).Nodup := by
  rw [map_fst_inOrder]
  exact Finset.sort_nodup _ _

theorem length_inOrder : (inOrder col).length = col.keys.card := by
  rw [← length_map Prod.fst, map_fst_inOrder, Finset.length_sort]

theorem pairwise_lt_inOrder : (inOrder col).Pairwise fun r t => keyBytes r.1 < keyBytes t.1 := by
  have hne := pairwise_map.mp (nodup_keys_inOrder col)
  refine ((pairwise_le_inOrder col).and hne).imp ?_
  rintro r t ⟨hle, hne⟩
  by_contra hlt
  exact hne (keyBytes_injective (List.le_antisymm hle hlt))

end

/-- All records of a collection in the order of their keys; a collection that does not
exist has none. -/
def Data.records (data : Data V) (name : String) : List (String × V) :=
  inOrder ((data.lookup name).getD ∅)

theorem Data.mem_records {data : Data V} {name key : String} {value : V} :
    (key, value) ∈ data.records name ↔ data.get name key = some value := by
  rw [Data.records, mem_inOrder, Data.get]
  cases data.lookup name with
  | none => simp
  | some col => rfl

theorem listAll_eq (fromValue : V → Except DbError T) (data : Data V) (name : String) :
    listAll fromValue data name = (data.records name).mapM fun r => fromValue r.2 := by
  rw [listAll, Data.records]
  cases data.lookup name with
  | none => simp [pure, Except.pure]
  | some col => rfl

/-- A scan returns what a listing of the records that begin with the prefix returns. The
listing holds the records of the collection, each one once and with the keys ascending. -/
theorem scanPrefix_eq_filter (fromValue : V → Except DbError T) (data : Data V)
    (name start : String) :
    scanPrefix fromValue data name start =
        ((data.records name).filter fun r => start.toList.isPrefixOf r.1.toList).mapM
          (fun r => fromValue r.2) ∧
      listAll fromValue data name = (data.records name).mapM (fun r => fromValue r.2) ∧
      (data.records name).Pairwise (fun r t => keyBytes r.1 < keyBytes t.1) ∧
      ∀ key value, (key, value) ∈ data.records name ↔ data.get name key = some value := by
  have hstarts (r : String × V) : start.toList.isPrefixOf r.1.toList = startsWith r.1 start := by
    rw [Bool.eq_iff_iff, isPrefixOf_iff_prefix, startsWith_iff]
  refine ⟨?_, listAll_eq fromValue data name, pairwise_lt_inOrder _, fun _ _ => Data.mem_records⟩
  simp only [hstarts]
  rw [scanPrefix, Data.records]
  cases data.lookup name with
  | none => simp [pure, Except.pure]
  | some col =>
    exact congrArg (mapM fun r => fromValue r.2)
      (PrefixRange.takeWhile_dropWhile_eq_filter (pairwise_le_inOrder col))

end Bichon.MemDb
