import Bichon.Blob.OpenSpec
import Bichon.Blob.OpViews
import Bichon.Blob.Reference

/-!
# The store is a map that survives crashes

A history without compaction is a list of events: an operation that completes, an
operation that is cut short by a crash after some of its durable steps, or a plain
reopen. After a crash the store is opened again, and the opening may crash any
number of times before it goes through. `runEvents_refines`: every such history
succeeds, and what can be read at its end is the map one gets from the completed
operations and, for each operation that was cut short, some prefix of its entries.

The step lemma is `Op.runs`, for one operation, and `refines_openFully`, for the
openings behind a crash; both preserve `Shows`.
-/

namespace Bichon.Blob

open ByteFile LastWrite Durable Function View

/-- What a user of the store sees: the value of every key, if any. -/
abbrev Contents := Key → Option Bytes

/-! ## Histories -/

/-- Open a directory, after some attempts that crashed after the given numbers of
durable steps. -/
def openFully (X : Extern) (config : Config) : List Nat → Disk → Except Error Engine
  | [], d =>
    match (openStore X config d).result with
    | .ok out => .ok (Engine.opened (openStore X config d).state out)
    | .error err => .error err
  | n :: crashes, d => openFully X config crashes ((openStore X config).crashPoint d n)

inductive Event where
  /-- the operation completes -/
  | done (op : Op)
  /-- the operation is cut short after some durable steps -/
  | crash (op : Op) (steps : Nat) (crashes : List Nat)
  | reopen (crashes : List Nat)

namespace Event

def step (X : Extern) (config : Config) (s : Engine) : Event → Except Error Engine
  | done op =>
    match (op.run X config s).result with
    | .ok _ => .ok (op.run X config s).state
    | .error err => .error err
  | crash op steps crashes =>
    openFully X config crashes ((op.run X config).crashPoint s steps).disk
  | reopen crashes => openFully X config crashes s.disk

def Fits : Event → Prop
  | done op => op.Fits
  | crash op _ _ => op.Fits
  | reopen _ => True

instance : DecidablePred Fits
  | done op => inferInstanceAs (Decidable op.Fits)
  | crash op _ _ => inferInstanceAs (Decidable op.Fits)
  | reopen _ => .isTrue trivial

/-- What the event may do to the map. -/
def Allows (event : Event) (m m' : Contents) : Prop :=
  match event with
  | done op => m' = setAll m op.updates
  | crash op _ _ => ∃ n, m' = setAll m (op.updates.take n)
  | reopen _ => m' = m

end Event

def runEvents (X : Extern) (config : Config) : List Event → Engine → Except Error Engine
  | [], s => .ok s
  | event :: events, s =>
    match event.step X config s with
    | .ok s' => runEvents X config events s'
    | .error err => .error err

/-- A history from the first open of an empty directory on. -/
def startStore (X : Extern) (config : Config) (events : List Event) : Except Error Engine := do
  let s ← openFully X config [] Disk.empty
  runEvents X config events s

/-- The maps a history may lead to. -/
inductive Allowed : List Event → Contents → Contents → Prop where
  | nil (m : Contents) : Allowed [] m m
  | cons {event : Event} {events : List Event} {m m₁ m₂ : Contents} :
      event.Allows m m₁ → Allowed events m₁ m₂ → Allowed (event :: events) m m₂

/-! ## What a state stands for -/

/-- The view between two operations: it shows the map and nothing is pending. -/
structure View.Quiet (X : Extern) (m : Contents) (v : View) : Prop extends v.Steady where
  sees : v.Sees X m

/-- The view after a crash: it shows some prefix of the updates, and after recovery
it shows some prefix of them too. -/
structure View.SeesPrefix (X : Extern) (m : Contents) (us : List (Key × Option Bytes))
    (v : View) : Prop where
  marked : v.Marked
  sound : v.Sound
  before : ∃ n, v.Sees X (setAll m (us.take n))
  recovered : ∃ n, (v.insertAll v.pending).Sees X (setAll m (us.take n))

def Shows (X : Extern) (m : Contents) (s : Engine) : Prop := ∃ v, InMemory X v s ∧ v.Quiet X m

/-- The directory shows some prefix of the updates, now and after recovery. -/
def ShowsPrefix (X : Extern) (m : Contents) (us : List (Key × Option Bytes)) (d : Disk) : Prop :=
  ∃ v, OnDisk X v d ∧ v.SeesPrefix X m us

section

variable {X : Extern} {v w : View} {m : Contents} {us : List (Key × Option Bytes)}

/-! ## Appending and indexing -/

variable {es : List Entry}

theorem View.insertAll_of_suffix (rs : List IndexRecord) (t : Key → Option IndexRecord)
    (htable : w.table = setAll t (IndexStore.updates rs)) (h : w.pending <:+ rs) :
    w.insertAll w.pending = w := by
  have hsame : setAll w.table (IndexStore.updates w.pending) = w.table := by
    rw [htable]
    exact setAll_setAll_of_suffix t (h.map _)
  rw [insertAll, hsame]

/-- What is read of an operation that was cut short, at once and after recovery. -/
theorem View.Steady.updates_interrupted (h : v.Steady) (hes : ∀ e ∈ es, e.Valid)
    (hcarry : List.Forall₂ (Entry.Says X) es us) {ends : List (Nat × Nat)}
    (hc : Covers (v.recordsFor es) ends) (hw : v.Interrupted es ends w) :
    (∃ n, Updates X (us.take n) v w) ∧ ∃ n, Updates X (us.take n) v (w.insertAll w.pending) := by
  have hcoherent := h.toCoherent.interrupted hes hw
  -- a number of entries is in the log, and recovery finds their records
  have happended : ∀ n, (v.appendAll (es.take n)).Extends w → w.table = v.table →
      w.pending = v.recordsFor (es.take n) →
      (∃ n, Updates X (us.take n) v w) ∧
        ∃ n, Updates X (us.take n) v (w.insertAll w.pending) := by
    intro n hext htable hpending
    have hsame := lookup_extends (X := X) h.sound h.valid hcoherent.valid
      ((extends_appendAll h.isOpen _).trans hext) htable
    refine ⟨⟨0, hsame⟩, n, fun key => ?_⟩
    rw [hpending, ← hsame]
    exact updates_insertAll (carries_recordsFor (List.forall₂_take n hcarry) h.isOpen hext
      hcoherent.valid) key
  rcases hw with ⟨n, rfl | rfl⟩ | ⟨n, rfl⟩
  · exact happended n (Extends.refl _) (table_appendAll _ _) (h.pending_appendAll _)
  · have hopen := open_appendAll h.isOpen (es.take n)
    exact happended n (extends_roll hopen) (table_appendAll _ _)
      ((pending_roll hopen).trans (h.pending_appendAll _))
  · -- the records are in the index already
    have hwrite : Updates X (us.take us.length) v (v.write es (ends.take n)) := by
      rw [List.take_length]
      exact updates_write h.toCoherent hes hcarry _
    refine ⟨⟨_, hwrite⟩, us.length, ?_⟩
    rw [insertAll_of_suffix (v.recordsFor es) (v.appendAll es).table ?_ (h.marking hes hc n).2]
    · exact hwrite
    · rw [markAll_eq]
      rfl

/-! ## One operation -/

theorem View.Quiet.seesPrefix (h : v.Quiet X m) (us : List (Key × Option Bytes)) :
    v.SeesPrefix X m us where
  marked := h.settled.marked
  sound := h.sound
  before := ⟨0, h.sees⟩
  recovered := ⟨0, by rw [h.settled.pending_eq_nil h.valid]; exact h.sees⟩

theorem View.Quiet.roll (h : v.Quiet X m) : v.roll.Quiet X m where
  toSteady := h.toSteady.roll
  sees := fun key => (lookup_roll h.toCoherent key).trans (h.sees key)

theorem Op.quiet_view {op : Op} (hfits : op.Fits) (config : Config) (h : v.Quiet X m) :
    (op.view X config v).Quiet X (setAll m op.updates) where
  toSteady := op.steady_view hfits config h.toSteady
  sees := (op.updates_view hfits config h.toCoherent).sees h.sees

variable {s : Engine}

theorem Op.runs {op : Op} (hfits : op.Fits) (config : Config) (h : Shows X m s) :
    Runs (op.run X config) s (fun _ t => Shows X (setAll m op.updates) t)
      (fun t => ShowsPrefix X m op.updates t.disk) := by
  obtain ⟨v, hmem, hq⟩ := h
  refine (op.runs_view hfits config hmem fun key _ => ⟨m key, hq.sees key⟩).mono
    (fun _ t ht => ⟨_, ht, op.quiet_view hfits config hq⟩) ?_
  rintro t ⟨w, rfl | hw, ht⟩
  · exact ⟨v.roll, ht, hq.roll.seesPrefix _⟩
  · have hvalid := op.valid_entries (X := X) hfits config
    have hcovers := op.covers (X := X) hfits config hq.toCoherent
    obtain ⟨⟨n, hnow⟩, n', hlater⟩ := hq.toSteady.updates_interrupted hvalid
      (op.says_entries hfits config) hcovers hw
    exact ⟨w, ht, hq.toSteady.interrupted hvalid hcovers hw,
      (hq.toCoherent.interrupted hvalid hw).sound, ⟨n, hnow.sees hq.sees⟩, n',
      hlater.sees hq.sees⟩

/-! ## Openings -/

theorem View.Marked.settled_caughtUp (h : v.Marked) : v.caughtUp.Settled := by
  intro id
  change v.caughtUpTo id = sizeAll (v.entriesAt id)
  rw [caughtUpTo, scanFrom_of_marked h]
  split
  · exact le_antisymm (h id).le_sizeAll ‹_›
  · rfl

theorem View.layout_of_readSlot_ok {record : IndexRecord} {value : Option Bytes}
    (hlive : record.isTombstone = false) (h : v.readSlot X (some record) = .ok value) :
    v.layout record.segmentId ≠ none := by
  intro hnone
  simp only [readSlot, hlive, Bool.false_eq_true, if_false, readRecord, hnone] at h
  cases h

/-- A new empty file for the active segment is not noticed by anyone whose reads
succeed. -/
theorem View.Sees.create (hsees : v.Sees X m) (hs : v.Sound) {id : Nat}
    (hnone : v.layout id = none) :
    ({ v with layout := Function.update v.layout id (some []) } : View).Sees X m ∧
      ({ v with layout := update v.layout id (some []) } : View).Sound := by
  have hkeep : ∀ {key record}, v.table key = some record → record.isTombstone = false →
      v.layout record.segmentId ≠ none ∧
        update v.layout id (some []) record.segmentId = v.layout record.segmentId := by
    intro key record hrecord hlive
    have hread := hsees key
    rw [lookup, hrecord] at hread
    have hsome := layout_of_readSlot_ok hlive hread
    have hid : record.segmentId ≠ id := by
      rintro rfl
      exact hsome hnone
    exact ⟨hsome, update_of_ne hid _ _⟩
  constructor
  · intro key
    rw [← hsees key, lookup, lookup]
    cases hrecord : v.table key with
    | none => rfl
    | some record =>
      dsimp only [readSlot]
      by_cases ht : record.isTombstone = true
      · rw [if_pos ht, if_pos ht]
      · rw [if_neg ht, if_neg ht]
        exact readRecord_congr (hkeep hrecord (Bool.eq_false_iff.mpr ht)).2
  · intro key record hrecord hlive
    obtain ⟨hsome, hsame⟩ := hkeep hrecord hlive
    obtain ⟨hkey, hle, hleads⟩ := hs key record hrecord hlive
    refine ⟨hkey, hle, fun _ => ?_⟩
    obtain ⟨e, ⟨es, hes, hmem⟩, heq⟩ := hleads hsome
    exact ⟨e, ⟨es, hsame.trans hes, hmem⟩, heq⟩

theorem View.SeesPrefix.stages (h : v.SeesPrefix X m us) (hv : v.Valid)
    (habove : ∀ {id}, v.active < id → v.layout id = none) :
    v.caughtUp.SeesPrefix X m us ∧ (v.caughtUp.insertAll v.pending).SeesPrefix X m us ∧
      ∃ n, v.opened.Quiet X (setAll m (us.take n)) := by
  have hsettled := h.marked.settled_caughtUp
  have hnil : v.caughtUp.pending = [] := hsettled.pending_eq_nil hv
  have hnil' : (v.caughtUp.insertAll v.pending).pending = [] := hnil
  have hsound : (v.caughtUp.insertAll v.pending).Sound :=
    (h.sound : v.caughtUp.Sound).insertAll fun record hrecord =>
      leads_of_mem_records (v := v.caughtUp) (v.pending_sublist.subset hrecord)
  obtain ⟨n, hsees⟩ := h.recovered
  have hsees' : (v.caughtUp.insertAll v.pending).Sees X (setAll m (us.take n)) := hsees
  refine ⟨⟨hsettled.marked, h.sound, h.before, ?_⟩, ⟨hsettled.marked, hsound, ⟨n, hsees'⟩, n, ?_⟩,
    n, ?_⟩
  · rw [hnil]
    exact h.before
  · rw [hnil']
    exact hsees'
  · have hread : v.opened.Sees X (setAll m (us.take n)) ∧ v.opened.Sound := by
      cases hactive : v.layout v.active with
      | none =>
        have hempty : v.entriesAt v.active = [] := by simp [entriesAt, hactive]
        rw [opened, hempty]
        exact hsees'.create hsound hactive
      | some es =>
        have hsame : update v.layout v.active (some (v.entriesAt v.active)) = v.layout := by
          rw [entriesAt, hactive, Option.getD_some, ← hactive]
          exact update_eq_self _ _
        rw [opened, hsame]
        exact ⟨hsees', hsound⟩
    exact
      { isOpen := v.open_opened habove
        valid := v.valid_opened hv
        settled := by
          intro id
          rw [entriesAt_opened]
          exact hsettled id
        sound := hread.2
        sees := hread.1 }

variable {config : Config}

/-- Opening what a crash has left shows a prefix, and so does a crash in the middle
of the opening. -/
theorem ShowsPrefix.runs_openStore (hconfig : config.validate = .ok ())
    {d : Disk} (h : ShowsPrefix X m us d) :
    Runs (openStore X config) d
      (fun out d' => ∃ n, Shows X (setAll m (us.take n)) (Engine.opened d' out))
      (ShowsPrefix X m us) := by
  obtain ⟨v, hd, hsees⟩ := h
  obtain ⟨hcaught, hinserted, n, hquiet⟩ := hsees.stages hd.validView hd.layout_above
  refine (hd.runs_openStore hconfig hsees.marked.aligned).mono
    (fun _ _ ht => ⟨n, v.opened, ht, hquiet⟩) ?_
  rintro c (hc | hc | hc | hc)
  · exact ⟨v, hc, hsees⟩
  · exact ⟨_, hc, hcaught⟩
  · exact ⟨_, hc, hinserted⟩
  · -- the map is already one of the prefixes, and nothing is pending any more
    exact ⟨_, hc, ⟨hquiet.settled.marked, hquiet.sound, ⟨n, hquiet.sees⟩, n, by
      rw [hquiet.settled.pending_eq_nil hquiet.valid]; exact hquiet.sees⟩⟩

theorem refines_openFully (hconfig : config.validate = .ok ())
    (crashes : List Nat) {d : Disk} (h : ShowsPrefix X m us d) :
    ∃ s n, openFully X config crashes d = .ok s ∧ Shows X (setAll m (us.take n)) s := by
  induction crashes generalizing d with
  | nil =>
    obtain ⟨out, hout, ⟨n, hshows⟩, -⟩ := h.runs_openStore hconfig
    exact ⟨_, n, by rw [openFully, hout], hshows⟩
  | cons steps crashes ih => exact ih ((h.runs_openStore hconfig).crashPoint h steps)

/-! ## Histories -/

theorem Event.refines (hconfig : config.validate = .ok ()) {event : Event}
    (hfits : event.Fits) (h : Shows X m s) :
    ∃ s' m', event.step X config s = .ok s' ∧ event.Allows m m' ∧ Shows X m' s' := by
  cases event with
  | done op =>
    obtain ⟨_, hresult, hshows, -⟩ := Op.runs hfits config h
    exact ⟨_, _, by rw [Event.step, hresult], rfl, hshows⟩
  | crash op steps crashes =>
    have hstart : ShowsPrefix X m op.updates s.disk := by
      obtain ⟨v, hmem, hq⟩ := h
      exact ⟨v, hmem.toOnDisk, hq.seesPrefix _⟩
    have hcrash := (Op.runs hfits config h).crashPoint hstart steps
    obtain ⟨s', n, hopen, hshows⟩ := refines_openFully hconfig crashes hcrash
    exact ⟨s', _, hopen, ⟨n, rfl⟩, hshows⟩
  | reopen crashes =>
    obtain ⟨v, hmem, hq⟩ := h
    have hstart : ShowsPrefix X m [] s.disk := ⟨v, hmem.toOnDisk, hq.seesPrefix _⟩
    obtain ⟨s', n, hopen, hshows⟩ := refines_openFully hconfig crashes hstart
    rw [List.take_nil] at hshows
    exact ⟨s', m, hopen, rfl, hshows⟩

theorem Shows.runEvents (hconfig : config.validate = .ok ()) {events : List Event}
    (hfits : ∀ event ∈ events, event.Fits) (h : Shows X m s) :
    ∃ s' m', runEvents X config events s = .ok s' ∧ Allowed events m m' ∧ Shows X m' s' := by
  induction events generalizing s m with
  | nil => exact ⟨s, m, rfl, Allowed.nil m, h⟩
  | cons event events ih =>
    obtain ⟨s₁, m₁, hstep, hallows, h₁⟩ := Event.refines hconfig (hfits event List.mem_cons_self) h
    obtain ⟨s₂, m₂, hrun, hallowed, h₂⟩ := ih (fun e he => hfits e (List.mem_cons_of_mem _ he)) h₁
    exact ⟨s₂, m₂, by rw [Blob.runEvents, hstep]; exact hrun, hallowed.cons hallows, h₂⟩

theorem showsPrefix_empty : ShowsPrefix X (fun _ => none) [] Disk.empty := by
  have hsees : ∀ n, empty.Sees X (setAll (fun _ => none) ([].take n)) := by
    intro n key
    rw [List.take_nil]
    rfl
  refine ⟨empty, onDisk_empty X, ?_, fun _ _ h => (by cases h), ⟨0, hsees 0⟩, 0, ?_⟩
  · exact fun id => boundary_zero _
  · exact hsees 0

end

/-- Every history of the store without compaction succeeds, from the first open of an
empty directory on, and in the end every key reads as in a map the history allows. -/
theorem runEvents_refines (X : Extern) {config : Config} (hconfig : config.validate = .ok ())
    (crashes : List Nat) (events : List Event) (hfits : ∀ event ∈ events, event.Fits) :
    ∃ s₀ s m, openFully X config crashes Disk.empty = .ok s₀ ∧
      runEvents X config events s₀ = .ok s ∧ Allowed events (fun _ => none) m ∧
      ∀ key, (Engine.get X key s).result = .ok (m key) := by
  obtain ⟨s₀, n, hopen, h₀⟩ := refines_openFully hconfig crashes (showsPrefix_empty (X := X))
  rw [List.take_nil] at h₀
  obtain ⟨s, m, hrun, hallowed, v, hmem, hq⟩ := h₀.runEvents hconfig hfits
  exact ⟨s₀, s, m, hopen, hrun, hallowed, fun key => (get_eq_lookup hmem key).trans (hq.sees key)⟩

/-- A history with a batch that is cut short behind its second append, an opening
that crashes once, a delete and a plain reopen. -/
def sampleEvents : List Event :=
  [.done (.put (Key.fill 1) [1, 2, 3] .none),
   .crash (.putBatch [(Key.fill 2, [], .none), (Key.fill 1, [7], .none)]) 2 [1],
   .done (.delete (Key.fill 2)),
   .reopen []]

theorem runEvents_refines_sample :
    ∃ s₀ s m, openFully reference quarterConfig [1] Disk.empty = .ok s₀ ∧
      runEvents reference quarterConfig sampleEvents s₀ = .ok s ∧
      Allowed sampleEvents (fun _ => none) m ∧
      ∀ key, (Engine.get reference key s).result = .ok (m key) :=
  runEvents_refines reference validate_quarterConfig [1] sampleEvents (by decide)

end Bichon.Blob
