import Mathlib.Data.List.TakeWhile
import Bichon.Blob.Closed
import Bichon.Blob.Ops

/-!
# What an operation does to the view

`Op` is the list of operations a user has apart from compaction, and `Op.view` says
for each of them which view it leads to. The rest of the development takes
`Op.runs_view` for what an operation does: it never looks into the programs again.

`View.Coherent` is what holds of every running store, `View.Steady` says in addition
that the marks are up to date; both are kept by every operation.
-/

namespace Bichon.Blob

open ByteFile LastWrite Durable List

inductive Op where
  | put (key : Key) (value : Bytes) (codec : Codec)
  | putBatch (entries : List (Key × Bytes × Codec))
  | delete (key : Key)
  | deleteBatch (keys : List Key)
  | flush
  | sealActiveSegment
  | get (key : Key)

namespace Op

section

variable (X : Extern) (config : Config)

def run : Op → EngineM Unit
  | put key value codec => Engine.put X config none key value codec
  | putBatch entries => Engine.putBatch X config noFaults entries
  | delete key => Engine.delete X none key
  | deleteBatch keys => Engine.deleteBatch X noFaults keys
  | flush => Engine.flushActive
  | sealActiveSegment => Engine.sealActiveSegment X none
  | get key => do
      let _ ← Engine.get X key
      pure ()

/-- The same when sealing may fail, at the entries the faults name. -/
def runWith (faults : Nat → Option SealFault) : Op → EngineM Unit
  | put key value codec => Engine.put X config (faults 0) key value codec
  | putBatch entries => Engine.putBatch X config faults entries
  | delete key => Engine.delete X (faults 0) key
  | deleteBatch keys => Engine.deleteBatch X faults keys
  | flush => Engine.flushActive
  | sealActiveSegment => Engine.sealActiveSegment X (faults 0)
  | get key => do
      let _ ← Engine.get X key
      pure ()

theorem runWith_noFaults (op : Op) : op.runWith X config noFaults = op.run X config := by
  cases op <;> rfl

end

theorem keeps {X : Extern} {I J K : Engine → Prop} (h : Engine.Closed X I J K) (config : Config)
    (faults : Nat → Option SealFault) (op : Op) : Keeps I J K (op.runWith X config faults) := by
  cases op with
  | put key value codec => exact h.keeps_put config _ key value codec
  | putBatch entries => exact h.keeps_putBatch config faults entries
  | delete key => exact h.keeps_delete _ key
  | deleteBatch keys => exact h.keeps_deleteBatch faults keys
  | flush => exact h.keeps_save
  | sealActiveSegment => exact h.sealing _
  | get key => exact Keeps.bind (h.keeps_get key) fun _ => Keeps.pure ()

def Fits : Op → Prop
  | put _ value _ => value.length ≤ MAX_VALUE_SIZE
  | putBatch entries => ∀ entry ∈ entries, entry.2.1.length ≤ MAX_VALUE_SIZE
  | _ => True

instance : DecidablePred Fits
  | put .. => inferInstanceAs (Decidable (_ ≤ _))
  | putBatch _ => inferInstanceAs (Decidable (∀ _ ∈ _, _ ≤ _))
  | delete _ => .isTrue trivial
  | deleteBatch _ => .isTrue trivial
  | flush => .isTrue trivial
  | sealActiveSegment => .isTrue trivial
  | get _ => .isTrue trivial

/-- What the operation does to the map, entry by entry. -/
def updates : Op → List (Key × Option Bytes)
  | put key value _ => [(key, some value)]
  | putBatch entries => entries.map fun entry => (entry.1, some entry.2.1)
  | delete key => [(key, none)]
  | deleteBatch keys => keys.map fun key => (key, none)
  | _ => []

end Op

/-- Run operations one after the other, whatever they return. -/
def runOps (X : Extern) (config : Config) (ops : List Op) (s : Engine) : Engine :=
  ops.foldl (fun s op => (op.run X config s).state) s

section

variable {X : Extern} {v w : View} {s : Engine}

theorem says_putEntries (config : Config) {entries : List (Key × Bytes × Codec)}
    (hsize : ∀ entry ∈ entries, entry.2.1.length ≤ MAX_VALUE_SIZE) :
    List.Forall₂ (Entry.Says X) (entries.map (putEntry X config))
      (entries.map fun entry => (entry.1, some entry.2.1)) := by
  rw [forall₂_map_left_iff, forall₂_map_right_iff, forall₂_same]
  exact fun entry hmem => says_putEntry X config (hsize entry hmem)

theorem says_tombstones (keys : List Key) :
    List.Forall₂ (Entry.Says X) (keys.map Entry.tombstone) (keys.map fun key => (key, none)) := by
  rw [forall₂_map_left_iff, forall₂_map_right_iff, forall₂_same]
  exact fun key _ => says_tombstone X key

theorem valid_putEntries (config : Config) {entries : List (Key × Bytes × Codec)}
    (hsize : ∀ entry ∈ entries, entry.2.1.length ≤ MAX_VALUE_SIZE) :
    ∀ e ∈ entries.map (putEntry X config), e.Valid := by
  intro e he
  obtain ⟨entry, hmem, rfl⟩ := mem_map.mp he
  exact valid_putEntry X config (hsize entry hmem)

theorem valid_tombstones (keys : List Key) : ∀ e ∈ keys.map Entry.tombstone, e.Valid := by
  intro e he
  obtain ⟨key, -, rfl⟩ := mem_map.mp he
  exact Entry.valid_tombstone key

/-! ## The effect of an operation -/

namespace Op

section

variable (X : Extern) (config : Config)

def entries : Op → List Entry
  | put key value codec => [putEntry X config (key, value, codec)]
  | putBatch entries => entries.map (putEntry X config)
  | delete key => [Entry.tombstone key]
  | deleteBatch keys => keys.map Entry.tombstone
  | _ => []

def ends (v : View) : Op → List (Nat × Nat)
  | putBatch batch => Engine.dedupEnds (markEnds (v.recordsFor ((putBatch batch).entries X config)))
  | op => markEnds (v.recordsFor (op.entries X config))

def view (v : View) : Op → View
  | sealActiveSegment => v.sealActive
  | op => v.write (op.entries X config) (op.ends X config v)

/-- What a crash inside the operation can leave. -/
def Interrupts (op : Op) (v w : View) : Prop :=
  w = v.roll ∨ v.Interrupted (op.entries X config) (op.ends X config v) w

end

variable {op : Op}

theorem valid_entries (h : op.Fits) (config : Config) : ∀ e ∈ op.entries X config, e.Valid := by
  cases op with
  | put key value codec => exact forall_mem_singleton.mpr (valid_putEntry X config h)
  | putBatch entries => exact valid_putEntries config h
  | delete key => exact valid_tombstones [key]
  | deleteBatch keys => exact valid_tombstones keys
  | _ => exact fun e he => by cases he

theorem says_entries (h : op.Fits) (config : Config) :
    List.Forall₂ (Entry.Says X) (op.entries X config) op.updates := by
  cases op with
  | put key value codec => exact .cons (says_putEntry X config h) .nil
  | putBatch entries => exact says_putEntries config h
  | delete key => exact says_tombstones [key]
  | deleteBatch keys => exact says_tombstones keys
  | _ => exact List.Forall₂.nil

theorem runs_view (hfits : op.Fits) (config : Config)
    (h : InMemory X v s) (hget : ∀ key, op = .get key → ∃ value, v.lookup X key = .ok value) :
    Runs (op.run X config) s (fun _ t => InMemory X (op.view X config v) t)
      (fun t => ∃ w, op.Interrupts X config v w ∧ OnDisk X w t.disk) := by
  cases op with
  | put key value codec =>
    exact (writes_put h config (key, value, codec) hfits).weaken (Engine.Leaves.imp fun _ => .inr)
  | putBatch entries =>
    exact (writes_putBatch h config hfits).weaken (Engine.Leaves.imp fun _ => .inr)
  | delete key => exact (writes_delete h key).weaken (Engine.Leaves.imp fun _ => .inr)
  | deleteBatch keys => exact (writes_deleteBatch h keys).weaken (Engine.Leaves.imp fun _ => .inr)
  | flush =>
    exact (runs_save h).weaken fun _ ht => ⟨v, .inr (.inl (View.Appending.here [] v)), ht⟩
  | sealActiveSegment =>
    exact (runs_sealActive h).weaken fun _ ht => ⟨v.roll, .inl rfl, ht⟩
  | get key =>
    obtain ⟨value, hvalue⟩ := hget key rfl
    have hread : Runs (Engine.get X key) s (fun _ t => InMemory X v t)
        (fun t => ∃ w, (Op.get key).Interrupts X config v w ∧ OnDisk X w t.disk) :=
      ⟨_, (get_eq_lookup h key).trans hvalue, h.get key, by rw [(get_state X key s).1]; simp⟩
    exact Runs.seq hread fun _ t ht => Runs.pure ht

theorem state_view (hfits : op.Fits) (config : Config) (h : InMemory X v s) :
    InMemory X (op.view X config v) (op.run X config s).state ∧
      ∀ t ∈ (op.run X config s).passed,
        ∃ w, op.Interrupts X config v w ∧ OnDisk X w t.disk := by
  by_cases hget : ∃ key, op = .get key
  · obtain ⟨key, rfl⟩ := hget
    have hstate := h.get key
    have hpassed := (get_state X key s).1
    cases hr : (Engine.get X key s).result with
    | error err =>
      rw [Op.run, Prog.bind_of_error hr, hpassed]
      exact ⟨hstate, fun t ht => by cases ht⟩
    | ok value =>
      rw [Op.run, Prog.bind_of_ok hr, hpassed]
      exact ⟨hstate, fun t ht => by cases ht⟩
  · obtain ⟨_, -, hstate, hpassed⟩ := runs_view hfits config h
      fun key heq => absurd ⟨key, heq⟩ hget
    exact ⟨hstate, hpassed⟩

/-- What an operation with a value that is too large has appended when it gives up. -/
def accepted (X : Extern) (config : Config) : Op → List Entry
  | putBatch entries =>
    (entries.takeWhile fun entry => decide (entry.2.1.length ≤ MAX_VALUE_SIZE)).map
      (putEntry X config)
  | _ => []

theorem length_le_of_mem_takeWhile (entries : List (Key × Bytes × Codec)) :
    ∀ entry ∈ entries.takeWhile fun entry => decide (entry.2.1.length ≤ MAX_VALUE_SIZE),
      entry.2.1.length ≤ MAX_VALUE_SIZE := by
  intro entry hmem
  have hsize := mem_takeWhile_imp hmem
  exact of_decide_eq_true hsize

/-- A batch with a value that is too large is written up to that value and then refused. -/
theorem exists_putBatchLoop_eq (X : Extern) (config : Config)
    {entries : List (Key × Bytes × Codec)}
    (hlarge : ∃ entry ∈ entries, MAX_VALUE_SIZE < entry.2.1.length) :
    ∃ entry ∈ entries, MAX_VALUE_SIZE < entry.2.1.length ∧
      ∀ batch, Engine.putBatchLoop X config noFaults entries batch =
        Engine.putBatchLoop X config noFaults
          (entries.takeWhile fun entry => decide (entry.2.1.length ≤ MAX_VALUE_SIZE)) batch >>=
            fun _ => Prog.fail (.valueTooLarge entry.2.1.length) := by
  induction entries with
  | nil => simp at hlarge
  | cons entry entries ih =>
    by_cases hvalue : entry.2.1.length ≤ MAX_VALUE_SIZE
    · obtain ⟨huge, hmem, hlt, hloop⟩ := ih (by simpa [Nat.not_lt.mpr hvalue] using hlarge)
      refine ⟨huge, mem_cons_of_mem _ hmem, hlt, fun batch => ?_⟩
      simp only [takeWhile_cons, hvalue, decide_true, if_true, Engine.putBatchLoop,
        if_neg (Nat.not_lt.mpr hvalue), hloop, bind_assoc]
    · refine ⟨entry, mem_cons_self, Nat.lt_of_not_le hvalue, fun batch => ?_⟩
      simp [hvalue, Engine.putBatchLoop, Nat.lt_of_not_le hvalue]

theorem fails_of_not_fits (hfits : ¬ op.Fits) (config : Config) (h : InMemory X v s) :
    Fails (op.run X config) s (fun t => InMemory X (v.appendAll (op.accepted X config)) t)
      (fun t => ∃ w, v.Appending (op.accepted X config) w ∧ OnDisk X w t.disk) := by
  cases op with
  | put key value codec =>
    have hlarge : MAX_VALUE_SIZE < value.length := Nat.lt_of_not_le hfits
    rw [run, Engine.put, if_pos hlarge]
    exact Fails.fail h
  | putBatch entries =>
    have hlarge : ∃ entry ∈ entries, MAX_VALUE_SIZE < entry.2.1.length := by
      simpa [Fits] using hfits
    have hempty : entries.isEmpty = false := by
      obtain ⟨entry, hmem, -⟩ := hlarge
      exact isEmpty_eq_false_iff_exists_mem.mpr ⟨entry, hmem⟩
    rw [run, Engine.putBatch, hempty, if_neg Bool.false_ne_true]
    obtain ⟨huge, -, -, hloop⟩ := exists_putBatchLoop_eq X config hlarge
    have haccepted := runs_putBatchLoop h config (length_le_of_mem_takeWhile entries) ([], [])
    rw [hloop]
    exact (Fails.seq haccepted fun _ _ ht => Fails.fail ht.2).bind
  | _ => exact absurd trivial hfits

end Op

/-! ## What every operation keeps -/

/-- What holds of the view of every running store. -/
structure View.Coherent (v : View) : Prop where
  isOpen : v.Open
  valid : v.Valid
  sound : v.Sound

/-- In addition, every segment is recorded as indexed to its end. -/
structure View.Steady (v : View) : Prop extends v.Coherent where
  settled : v.Settled

namespace View

variable {es : List Entry}

section

variable (h : v.Coherent)

include h

theorem Coherent.appendAll (hes : ∀ e ∈ es, e.Valid) : (v.appendAll es).Coherent where
  isOpen := open_appendAll h.isOpen es
  valid := valid_appendAll h.isOpen h.valid hes
  sound := h.sound.extends (extends_appendAll h.isOpen es) (table_appendAll es v)

theorem valid_roll : v.roll.Valid := by
  intro id e he
  rw [entriesAt_roll h.isOpen] at he
  exact h.valid id e he

theorem Coherent.roll : v.roll.Coherent where
  isOpen := open_roll h.isOpen
  valid := valid_roll h
  sound := h.sound.extends (extends_roll h.isOpen) rfl

theorem Coherent.inserted (hes : ∀ e ∈ es, e.Valid) :
    ((v.appendAll es).insertAll (v.recordsFor es)).Coherent := by
  have happ := h.appendAll hes
  refine ⟨⟨happ.isOpen.active, happ.isOpen.above⟩, happ.valid, happ.sound.insertAll ?_⟩
  intro record hrecord
  apply leads_of_mem_records
  rw [records_appendAll h.isOpen]
  exact mem_append_right _ hrecord

theorem Coherent.markAll (ends : List (Nat × Nat)) : (v.markAll ends).Coherent := by
  rw [markAll_eq]
  exact ⟨⟨h.isOpen.active, h.isOpen.above⟩, h.valid, h.sound⟩

theorem Coherent.write (hes : ∀ e ∈ es, e.Valid)
    (ends : List (Nat × Nat)) : (v.write es ends).Coherent :=
  (h.inserted hes).markAll ends

theorem Coherent.appending (hes : ∀ e ∈ es, e.Valid) (hw : v.Appending es w) : w.Coherent := by
  obtain ⟨n, rfl | rfl⟩ := hw
  · exact h.appendAll fun e he => hes e (mem_of_mem_take he)
  · exact (h.appendAll fun e he => hes e (mem_of_mem_take he)).roll

end

variable {ends : List (Nat × Nat)}

theorem Coherent.interrupted (h : v.Coherent) (hes : ∀ e ∈ es, e.Valid)
    (hw : v.Interrupted es ends w) : w.Coherent := by
  rcases hw with hw | ⟨n, rfl⟩
  · exact h.appending hes hw
  · exact (h.inserted hes).markAll _

theorem lookup_appendAll (h : v.Coherent) (hes : ∀ e ∈ es, e.Valid)
    (key : Key) : (v.appendAll es).lookup X key = v.lookup X key :=
  lookup_extends h.sound h.valid (h.appendAll hes).valid (extends_appendAll h.isOpen es)
    (table_appendAll es v) key

theorem lookup_roll (h : v.Coherent) (key : Key) : v.roll.lookup X key = v.lookup X key :=
  lookup_extends h.sound h.valid h.roll.valid (extends_roll h.isOpen) rfl key

theorem lookup_markAll (v : View) (ends : List (Nat × Nat)) (key : Key) :
    (v.markAll ends).lookup X key = v.lookup X key := by
  rw [markAll_eq]
  rfl

theorem updates_write (h : v.Coherent) (hes : ∀ e ∈ es, e.Valid) {us : List (Key × Option Bytes)}
    (hcarry : List.Forall₂ (Entry.Says X) es us) (ends : List (Nat × Nat)) :
    Updates X us v (v.write es ends) := by
  intro key
  have hinsert := updates_insertAll (carries_recordsFor hcarry h.isOpen (Extends.refl _)
    (h.appendAll hes).valid) key
  have happend := lookup_appendAll (X := X) h hes key
  rw [write, lookup_markAll]
  refine hinsert.trans ?_
  cases lastFor key us with
  | some value => rfl
  | none => exact happend

theorem Steady.pending_appendAll (h : v.Steady) (es : List Entry) :
    (v.appendAll es).pending = v.recordsFor es := by
  rw [View.pending_appendAll h.isOpen h.settled.marked, h.settled.pending_eq_nil h.valid,
    nil_append]

theorem Steady.roll (h : v.Steady) : v.roll.Steady where
  toCoherent := h.toCoherent.roll
  settled := by
    intro id
    rw [entriesAt_roll h.isOpen]
    exact h.settled id

theorem pending_roll (ho : v.Open) : v.roll.pending = v.pending := by
  simp only [pending, records_roll ho, scanFrom, entriesAt_roll ho]
  rfl

section

variable (h : v.Steady) (hes : ∀ e ∈ es, e.Valid) (hc : Covers (v.recordsFor es) ends)

include h hes hc

theorem Steady.marking (n : Nat) :
    (((v.appendAll es).insertAll (v.recordsFor es)).markAll (ends.take n)).Marked ∧
      (((v.appendAll es).insertAll (v.recordsFor es)).markAll (ends.take n)).pending <:+
        v.recordsFor es := by
  have hpending : ((v.appendAll es).insertAll (v.recordsFor es)).pending = v.recordsFor es :=
    h.pending_appendAll es
  have htake := pending_markAll_take (h.toCoherent.inserted hes).valid
    (v := (v.appendAll es).insertAll (v.recordsFor es))
    (h.settled.marked.appendAll h.isOpen es) (by rw [hpending]; exact hc) n
  rw [hpending] at htake
  exact htake

theorem Steady.write : (v.write es ends).Steady where
  toCoherent := h.toCoherent.write hes ends
  settled := by
    have hins := h.toCoherent.inserted hes
    have hpending : ((v.appendAll es).insertAll (v.recordsFor es)).pending = v.recordsFor es :=
      h.pending_appendAll es
    exact settled_markAll hins.valid hins.isOpen (h.settled.marked.appendAll h.isOpen es)
      (by rw [hpending]; exact hc)

theorem Steady.interrupted (hw : v.Interrupted es ends w) : w.Marked := by
  rcases hw with ⟨n, rfl | rfl⟩ | ⟨n, rfl⟩
  · exact h.settled.marked.appendAll h.isOpen _
  · intro id
    rw [entriesAt_roll (open_appendAll h.isOpen _)]
    exact h.settled.marked.appendAll h.isOpen _ id
  · exact (h.marking hes hc n).1

end

end View

namespace Op

variable {op : Op}

theorem covers (hfits : op.Fits) (config : Config) (h : v.Coherent) :
    Covers (v.recordsFor (op.entries X config)) (op.ends X config v) := by
  have hrecords := covers_markEnds
    (View.recordsFor_pairwise h.isOpen h.valid (valid_entries (X := X) hfits config))
  cases op with
  | putBatch entries => exact covers_dedupEnds _
  | _ => exact hrecords

theorem view_cases (op : Op) (X : Extern) (config : Config) (v : View) :
    (op.updates = [] ∧ op.view X config v = v.roll) ∨
      (op.updates = [] ∧ op.view X config v = v) ∨
      op.view X config v = v.write (op.entries X config) (op.ends X config v) := by
  cases op with
  | sealActiveSegment =>
    rw [view, View.sealActive]
    split
    · exact .inr (.inl ⟨rfl, rfl⟩)
    · exact .inl ⟨rfl, rfl⟩
  | _ => exact .inr (.inr rfl)

@[elab_as_elim]
theorem view_induction {P : View → Prop} (op : Op) (X : Extern) (config : Config) (v : View)
    (roll : P v.roll) (same : P v)
    (write : P (v.write (op.entries X config) (op.ends X config v))) :
    P (op.view X config v) := by
  rcases op.view_cases X config v with ⟨-, heq⟩ | ⟨-, heq⟩ | heq
  · rwa [heq]
  · rwa [heq]
  · rwa [heq]

section

variable (hfits : op.Fits) (config : Config)

include hfits config

theorem coherent_view (h : v.Coherent) :
    (op.view X config v).Coherent :=
  op.view_induction X config v h.roll h (h.write (valid_entries hfits config) _)

theorem steady_view (h : v.Steady) :
    (op.view X config v).Steady :=
  op.view_induction X config v h.roll h
    (h.write (valid_entries hfits config) (covers hfits config h.toCoherent))

theorem updates_view (h : v.Coherent) : View.Updates X op.updates v (op.view X config v) := by
  rcases op.view_cases X config v with ⟨hnil, heq⟩ | ⟨hnil, heq⟩ | heq
  · rw [heq, hnil]
    exact View.lookup_roll h
  · rw [heq, hnil]
    exact fun _ => rfl
  · rw [heq]
    exact View.updates_write h (valid_entries hfits config) (says_entries hfits config) _

theorem coherent_interrupts (h : v.Coherent) (hw : op.Interrupts X config v w) : w.Coherent := by
  rcases hw with rfl | hw
  · exact h.roll
  · exact h.interrupted (valid_entries hfits config) hw

theorem marked_interrupts (h : v.Steady) (hw : op.Interrupts X config v w) : w.Marked := by
  rcases hw with rfl | hw
  · exact h.roll.settled.marked
  · exact h.interrupted (valid_entries hfits config) (covers hfits config h.toCoherent) hw

end

theorem valid_accepted (op : Op) (config : Config) : ∀ e ∈ op.accepted X config, e.Valid := by
  cases op with
  | putBatch entries => exact valid_putEntries config (length_le_of_mem_takeWhile entries)
  | _ => exact fun e he => by cases he

/-- What an operation that completes does to the map; a refused one does nothing. -/
def completed (op : Op) : List (Key × Option Bytes) := if op.Fits then op.updates else []

/-- The view after an operation that returns, refused or not. -/
def after (X : Extern) (config : Config) (v : View) (op : Op) : View :=
  if op.Fits then op.view X config v else v.appendAll (op.accepted X config)

section

variable (op : Op) (config : Config)

theorem inMemory_after (h : InMemory X v s) :
    InMemory X (op.after X config v) (op.run X config s).state := by
  unfold after
  split
  · rename_i hfits
    exact (op.state_view hfits config h).1
  · rename_i hfits
    exact (op.fails_of_not_fits hfits config h).2.1

theorem coherent_after (h : v.Coherent) : (op.after X config v).Coherent := by
  unfold after
  split
  · rename_i hfits
    exact op.coherent_view hfits config h
  · exact h.appendAll (op.valid_accepted config)

theorem updates_after (h : v.Coherent) : View.Updates X op.completed v (op.after X config v) := by
  unfold after completed
  by_cases hfits : op.Fits
  · rw [if_pos hfits, if_pos hfits]
    exact op.updates_view hfits config h
  · rw [if_neg hfits, if_neg hfits]
    exact View.lookup_appendAll h (op.valid_accepted config)

end

end Op

end

end Bichon.Blob
