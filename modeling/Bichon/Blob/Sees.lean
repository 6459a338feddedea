import Bichon.Blob.Log

/-!
# What readers see

`v.Sees X m` says that a reader gets from the view what the map `m` holds.
Appending to the log does not change what is seen, inserting records of the log
changes it as the entries say, and so a view is determined by the map it shows and
the records that are pending.
-/

namespace Bichon.Blob

open ByteFile LastWrite List

/-- The log of `w` continues the one of `v`. -/
structure View.Extends (v w : View) : Prop where
  active_le : v.active ≤ w.active
  grows : ∀ {id es}, v.layout id = some es → ∃ fs, w.layout id = some (es ++ fs)
  absent : ∀ {id}, id ≤ v.active → v.layout id = none → w.layout id = none

namespace View

section

variable {X : Extern} {v w : View}

theorem Extends.refl (v : View) : v.Extends v where
  active_le := le_refl _
  grows := fun {_ es} h => ⟨[], by simpa using h⟩
  absent := fun _ h => h

theorem Extends.trans {u : View} (h : u.Extends v) (h' : v.Extends w) : u.Extends w where
  active_le := h.active_le.trans h'.active_le
  grows := by
    intro id es hes
    obtain ⟨fs, hfs⟩ := h.grows hes
    obtain ⟨gs, hgs⟩ := h'.grows hfs
    exact ⟨fs ++ gs, by rw [hgs, append_assoc]⟩
  absent := fun hid hnone => h'.absent (hid.trans h.active_le) (h.absent hid hnone)

theorem extends_push (ho : v.Open) (e : Entry) : v.Extends (v.push e) where
  active_le := le_refl _
  grows := by
    intro id es hes
    by_cases hid : id = v.active
    · subst hid
      exact ⟨[e], by simp [push, hes]⟩
    · exact ⟨[], by simp [push, hid, hes]⟩
  absent := by
    intro id _ hnone
    have hid : id ≠ v.active := by
      rintro rfl
      exact ho.active hnone
    simpa [push, hid] using hnone

theorem extends_roll (ho : v.Open) : v.Extends v.roll where
  active_le := Nat.le_succ _
  grows := by
    intro id es hes
    have hid : id ≠ v.active + 1 := by
      rintro rfl
      rw [ho.above (Nat.lt_succ_self _)] at hes
      cases hes
    exact ⟨[], by simp [roll, hid, hes]⟩
  absent := by
    intro id hle hnone
    have hid : id ≠ v.active + 1 := by omega
    simpa [roll, hid] using hnone

theorem extends_room (ho : v.Open) : v.Extends v.room := by
  unfold room
  split
  · exact extends_roll ho
  · exact Extends.refl v

theorem extends_appendOne (ho : v.Open) (e : Entry) : v.Extends (v.appendOne e) :=
  (extends_room ho).trans (extends_push (open_room ho) e)

theorem extends_appendAll (ho : v.Open) (es : List Entry) : v.Extends (v.appendAll es) := by
  induction es generalizing v with
  | nil => exact Extends.refl v
  | cons e es ih => exact (extends_appendOne ho e).trans (ih (open_appendOne ho e))

variable {record : IndexRecord}

theorem EntryOf.extends {e : Entry} (h : v.EntryOf record e)
    (hext : v.Extends w) : w.EntryOf record e := by
  obtain ⟨es, hes, hmem⟩ := h
  obtain ⟨fs, hfs⟩ := hext.grows hes
  refine ⟨es ++ fs, hfs, ?_⟩
  rw [offsetsFrom_append]
  exact mem_append_left _ hmem

theorem Leads.extends (h : v.Leads record) (hext : v.Extends w) : w.Leads record := by
  refine ⟨h.1.trans hext.active_le, ?_⟩
  intro hsome
  have hv : v.layout record.segmentId ≠ none := fun hnone => hsome (hext.absent h.1 hnone)
  obtain ⟨e, he, heq⟩ := h.2 hv
  exact ⟨e, he.extends hext, heq⟩

theorem Sound.extends (h : v.Sound) (hext : v.Extends w) (ht : w.table = v.table) : w.Sound := by
  intro key record hrecord hlive
  rw [ht] at hrecord
  obtain ⟨hkey, hleads⟩ := h key record hrecord hlive
  exact ⟨hkey, hleads.extends hext⟩

theorem EntryOf.valid (hv : v.Valid) {e : Entry} (h : v.EntryOf record e) : e.Valid := by
  obtain ⟨es, hes, hmem⟩ := h
  exact hv record.segmentId e (by simpa [entriesAt, hes] using mem_of_mem_offsetsFrom hmem)

theorem readRecord_extends (hv : v.Valid) (hw : w.Valid) (hext : v.Extends w) (h : v.Leads record) :
    w.readRecord X record = v.readRecord X record := by
  by_cases hsome : v.layout record.segmentId = none
  · have hw : w.layout record.segmentId = none := hext.absent h.1 hsome
    rw [readRecord, readRecord, hsome, hw]
  · obtain ⟨e, he, -⟩ := h.2 hsome
    rw [readRecord_of_entryOf he (he.valid hv),
      readRecord_of_entryOf (he.extends hext) ((he.extends hext).valid hw)]

theorem readSlot_extends (hv : v.Valid) (hw : w.Valid) (hext : v.Extends w)
    (h : record.isTombstone = false → v.Leads record) :
    w.readSlot X (some record) = v.readSlot X (some record) := by
  dsimp only [readSlot]
  by_cases ht : record.isTombstone = true
  · rw [if_pos ht, if_pos ht]
  · rw [if_neg ht, if_neg ht, readRecord_extends hv hw hext (h (Bool.eq_false_iff.mpr ht))]

theorem lookup_extends (hs : v.Sound) (hv : v.Valid) (hw : w.Valid) (hext : v.Extends w)
    (ht : w.table = v.table) (key : Key) : w.lookup X key = v.lookup X key := by
  rw [lookup, lookup, ht]
  cases hrecord : v.table key with
  | none => rfl
  | some record =>
    exact readSlot_extends hv hw hext fun hlive => (hs key record hrecord hlive).2

/-- A reader gets from the view what the map holds. -/
def Sees (X : Extern) (v : View) (m : Key → Option Bytes) : Prop :=
  ∀ key, v.lookup X key = .ok (m key)

/-- The record says about its key what the update says. -/
def Carries (X : Extern) (v : View) (record : IndexRecord) (u : Key × Option Bytes) : Prop :=
  record.key = u.1 ∧ v.readSlot X (some record) = .ok u.2

/-- Reading from `w` gives what the last update of the key says, or what `v` gives. -/
def Updates (X : Extern) (us : List (Key × Option Bytes)) (v w : View) : Prop :=
  ∀ key, w.lookup X key =
    match lastFor key us with
    | some value => .ok value
    | none => v.lookup X key

variable {rs : List IndexRecord} {us : List (Key × Option Bytes)}

theorem Updates.sees (hu : Updates X us v w) {m : Key → Option Bytes} (h : v.Sees X m) :
    w.Sees X (setAll m us) := by
  intro key
  rw [hu key, setAll_apply]
  cases lastFor key us with
  | some value => rfl
  | none => exact h key

theorem updates_insertAll (hc : List.Forall₂ (v.Carries X) rs us) :
    Updates X us v (v.insertAll rs) := by
  intro key
  induction rs generalizing v us with
  | nil =>
    cases hc
    rfl
  | cons r rs ih =>
    obtain ⟨u, us, hru, hrest, rfl⟩ := forall₂_cons_left_iff.mp hc
    have hstep : (v.insertAll [r]).lookup X key =
        if u.1 = key then .ok u.2 else v.lookup X key := by
      change v.readSlot X (Function.update v.table r.key (some r) key) = _
      rw [hru.1, Function.update_apply]
      by_cases hkey : key = u.1
      · rw [if_pos hkey, if_pos hkey.symm]
        exact hru.2
      · rw [if_neg hkey, if_neg (Ne.symm hkey)]
        rfl
    have hlast : lastFor key (u :: us) =
        (lastFor key us).or (if u.1 = key then some u.2 else none) :=
      lastFor_append key [u] us
    refine (ih (v := v.insertAll [r]) hrest).trans ?_
    rw [hstep, hlast]
    cases lastFor key us with
    | some value => rfl
    | none => by_cases hkey : u.1 = key <;> simp [hkey]

theorem Sound.insertAll (h : v.Sound)
    (hrs : ∀ record ∈ rs, v.Leads record) : (v.insertAll rs).Sound := by
  intro key record hrecord hlive
  change setAll v.table (IndexStore.updates rs) key = some record at hrecord
  rw [setAll_apply] at hrecord
  cases hlast : lastFor key (IndexStore.updates rs) with
  | none =>
    rw [hlast] at hrecord
    exact h key record hrecord hlive
  | some slot =>
    rw [hlast] at hrecord
    have hmem := mem_of_lastFor hlast
    obtain ⟨r, hr, heq⟩ := mem_map.mp hmem
    cases heq
    cases hrecord
    exact ⟨rfl, hrs record hr⟩

theorem leads_of_mem_records (h : record ∈ v.records) : v.Leads record := by
  obtain ⟨hle, hmem⟩ := mem_records.mp h
  refine ⟨hle, ?_⟩
  intro hsome
  obtain ⟨e, offset, he, heq⟩ := mem_recordsIn.mp hmem
  obtain ⟨es, hes⟩ := Option.ne_none_iff_exists'.mp hsome
  have hoffset : record.offset = offset := by rw [heq]; rfl
  refine ⟨e, ⟨es, hes, ?_⟩, by rw [hoffset]; exact heq⟩
  rw [hoffset]
  simpa [entriesAt, hes] using he

end

end View

/-! ## Appended entries -/

/-- The entry says about its key what the update says. -/
def Entry.Says (X : Extern) (e : Entry) (u : Key × Option Bytes) : Prop :=
  e.key = u.1 ∧ if e.isTombstone then u.2 = none else e.value X = .ok u.2

namespace View

section

variable {X : Extern} {v w : View}

theorem valid_appendOne (ho : v.Open) (hv : v.Valid) {e : Entry} (he : e.Valid) :
    (v.appendOne e).Valid := by
  have hroom : ∀ id, v.room.entriesAt id = v.entriesAt id := by
    intro id
    unfold room
    split
    · exact entriesAt_roll ho id
    · rfl
  intro id f hf
  by_cases hid : id = v.room.active
  · subst hid
    rw [appendOne, entriesAt_push_active (open_room ho), hroom] at hf
    rcases mem_append.mp hf with hf | hf
    · exact hv _ f hf
    · rw [mem_singleton.mp hf]
      exact he
  · rw [appendOne, entriesAt_push_ne _ _ hid, hroom] at hf
    exact hv id f hf

theorem valid_appendAll (ho : v.Open) (hv : v.Valid) {es : List Entry}
    (hes : ∀ e ∈ es, e.Valid) : (v.appendAll es).Valid := by
  induction es generalizing v with
  | nil => exact hv
  | cons e es ih =>
    exact ih (open_appendOne ho e) (valid_appendOne ho hv (hes e mem_cons_self))
      fun f hf => hes f (mem_cons_of_mem _ hf)

theorem entryOf_recordFor (ho : v.Open) (e : Entry) :
    (v.appendOne e).EntryOf (v.recordFor e) e := by
  obtain ⟨es, hes⟩ := Option.ne_none_iff_exists'.mp (open_room ho).active
  refine ⟨es ++ [e], by simp [appendOne, push, recordFor, IndexRecord.ofEntry, hes], ?_⟩
  have hsize : (v.recordFor e).offset = sizeAll es := by
    simp [recordFor, IndexRecord.ofEntry, activeSize, hes]
  rw [hsize, offsetsFrom_append, Nat.zero_add]
  exact mem_append_right _ mem_cons_self

/-- The records of appended entries carry what the entries say, in any continuation
of the log. -/
theorem carries_recordsFor {es : List Entry} {us : List (Key × Option Bytes)}
    (hcarry : List.Forall₂ (Entry.Says X) es us) (ho : v.Open)
    (hext : (v.appendAll es).Extends w) (hw : w.Valid) :
    List.Forall₂ (w.Carries X) (v.recordsFor es) us := by
  induction hcarry generalizing v with
  | nil => exact List.Forall₂.nil
  | @cons e u es us heu hrest ih =>
    refine List.Forall₂.cons ?_ (ih (open_appendOne ho e) hext)
    have he : w.EntryOf (v.recordFor e) e :=
      ((entryOf_recordFor ho e).extends (extends_appendAll (open_appendOne ho e) es)).extends hext
    refine ⟨heu.1, ?_⟩
    have hflag : (v.recordFor e).isTombstone = e.isTombstone := rfl
    have hvalue := heu.2
    dsimp only [readSlot]
    split at hvalue
    · rw [if_pos ‹_›, hvalue]
    · rw [if_neg ‹_›, readRecord_of_entryOf he (he.valid hw), hvalue]

end

end View

end Bichon.Blob
