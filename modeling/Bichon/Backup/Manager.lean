import Bichon.Backup.Gate

/-!
# A backup run

`run_locked` goes through its phases one after the other: preflight, closing the gate and
draining it, the preparers, reopening the gate, the upload, and the record of the outcome.
Each phase ends well, returns an error where it can, or panics. Once the previous restore
point is known a scope guard lives until the end of the run, and whichever way the run ends,
the guard finalizes the preparers and opens the gate.

The run is one of the tasks of the server. Between any two of its steps other calls pass
through the gate, and further preparers are registered.
-/

namespace Bichon.Backup

open Transition List Option

inductive PreparerKind
  | memdb
  | blob
  | envelopeIndex
  | attachmentIndex
  | other (name : String)
  deriving DecidableEq, Repr

/-- The phases under the scope guard. A preparer is known by its place in the registry. -/
inductive Phase
  /-- `WRITE_GATE.pause()` -/
  | pause
  /-- `WRITE_GATE.drain()` -/
  | drain
  /-- `BLOB_MANAGER.drain()` -/
  | blobDrain
  /-- the `Running` record -/
  | runningRecord
  /-- `prepare` of a preparer, and those that come after it -/
  | preparing (i : Nat) (rest : List Nat)
  /-- the warnings of the preparers, with what became of them -/
  | warnings (failed : Bool)
  /-- `WRITE_GATE.resume()` before the upload -/
  | resume
  /-- `upload` of a preparer -/
  | contributing (i : Nat) (rest : List Nat)
  /-- `upload` of the backend, which commits the manifest and collects garbage -/
  | uploading
  /-- `finish` -/
  | finishing
  deriving DecidableEq, Repr

inductive RunPc
  | idle
  | preflight
  | previousManifest
  /-- `finish` of a run that failed before it had a scope guard -/
  | preflightFinish
  | guarded (phase : Phase)
  /-- the scope guard is dropped: these preparers are still to be finalized -/
  | dropping (rest : List Nat)
  deriving DecidableEq, Repr

/-- What the run shares with the server. `started` and `finalized` are the preparers of this
run whose `prepare` was called and whose `finalize` has returned or panicked. -/
structure Server (ι : Type) where
  gate : WriteGate ι
  gcPaused : Bool
  registry : List PreparerKind
  pc : RunPc
  started : List Nat
  finalized : List Nat

inductive ManagerStep (ι : Type)
  | register (kind : PreparerKind)
  /-- an operation of another task on the gate -/
  | admission (l : GateStep ι)
  | begin
  /-- the phase ends well -/
  | ok
  /-- the phase returns an error -/
  | error
  | panic
  deriving DecidableEq, Repr

/-- `pause`, `resume` and `drain` are called by the run only. -/
def GateStep.IsAdmission {ι : Type} : GateStep ι → Bool
  | .pause | .resume | .drainLoad => false
  | _ => true

namespace Server

variable {ι : Type}

def new : Server ι := ⟨.new, false, [], .idle, [], []⟩

section

variable (s : Server ι)

def preparers : List Nat := List.range s.registry.length

def isBlob (i : Nat) : Bool := s.registry[i]? = some .blob

/-- The loop over `prepare`: the blob preparer begins by pausing the collection. -/
def prepareFrom : List Nat → Server ι
  | [] => { s with pc := .guarded (.warnings false) }
  | i :: rest =>
    { s with
      pc := .guarded (.preparing i rest)
      started := s.started ++ [i]
      gcPaused := s.gcPaused || s.isBlob i }

def uploadFrom : List Nat → Server ι
  | [] => { s with pc := .guarded .uploading }
  | i :: rest => { s with pc := .guarded (.contributing i rest) }

/-- One turn of the loop of the scope guard. The blob preparer does nothing in `finalize` but
to resume the collection, so that no panic can come before that. -/
def finalizeAt (i : Nat) (rest : List Nat) : Server ι :=
  { s with
    pc := .dropping rest
    finalized := s.finalized ++ [i]
    gcPaused := s.gcPaused && !s.isBlob i }

def drop : Server ι := { s with pc := .dropping s.preparers }

end

section

variable [DecidableEq ι]

/-- The end of a phase under the scope guard. -/
def advance (s : Server ι) : Phase → Option (Server ι)
  | .pause => (s.gate.next .pause).map fun gate => { s with gate := gate, pc := .guarded .drain }
  | .drain =>
    if s.gate.inFlight = 0 then
      (s.gate.next .drainLoad).map fun gate => { s with gate := gate, pc := .guarded .blobDrain }
    else none
  | .blobDrain => some { s with pc := .guarded .runningRecord }
  | .runningRecord => some (s.prepareFrom s.preparers)
  | .preparing _ rest => some (s.prepareFrom rest)
  | .warnings failed => some { s with pc := .guarded (if failed then .finishing else .resume) }
  | .resume =>
    (s.gate.next .resume).map fun gate => uploadFrom { s with gate := gate } s.preparers
  | .contributing _ rest => some (s.uploadFrom rest)
  | .uploading => some { s with pc := .guarded .finishing }
  | .finishing => some s.drop

def next (s : Server ι) : ManagerStep ι → Option (Server ι)
  | .register kind => some { s with registry := s.registry ++ [kind] }
  | .admission l =>
    if l.IsAdmission then (s.gate.next l).map fun gate => { s with gate := gate } else none
  | .begin =>
    if s.pc = .idle then some { s with pc := .preflight, started := [], finalized := [] }
    else none
  | .ok =>
    match s.pc with
    | .idle => none
    | .preflight => some { s with pc := .previousManifest }
    | .previousManifest => some { s with pc := .guarded .pause }
    | .preflightFinish => some { s with pc := .idle }
    | .guarded phase => s.advance phase
    | .dropping (i :: rest) => some (s.finalizeAt i rest)
    | .dropping [] =>
      (s.gate.next .resume).map fun gate => { s with gate := gate, pc := .idle }
  | .error =>
    match s.pc with
    | .preflight | .previousManifest => some { s with pc := .preflightFinish }
    | .guarded (.preparing _ _) => some { s with pc := .guarded (.warnings true) }
    | .guarded (.contributing _ _) | .guarded .uploading =>
      some { s with pc := .guarded .finishing }
    | _ => none
  | .panic =>
    match s.pc with
    | .preflight | .previousManifest | .preflightFinish => some { s with pc := .idle }
    | .guarded _ => some s.drop
    | .dropping (i :: rest) => some (s.finalizeAt i rest)
    | _ => none

end

/-! ## What holds of every run -/

/-- The phase is reached with the gate as it should be. After `drain` no write is in flight,
until the gate is opened for the upload. -/
def AtPhase (s : Server ι) : Phase → Prop
  | .pause => s.started = []
  | .drain => s.gate.paused = true
  | .blobDrain | .runningRecord => s.gate.drained = true
  | .preparing _ rest => s.gate.drained = true ∧ ∀ j ∈ rest, j < s.registry.length
  | .warnings _ | .resume | .finishing => True
  | .contributing _ _ | .uploading => s.gate.paused = false

def AtPc (s : Server ι) : RunPc → Prop
  | .idle => s.gate.paused = false ∧ ∀ i ∈ s.started, i ∈ s.finalized
  | .preflight | .previousManifest | .preflightFinish =>
    s.gate.paused = false ∧ s.started = [] ∧ s.finalized = []
  | .guarded phase => s.finalized = [] ∧ s.AtPhase phase
  | .dropping rest => ∀ i ∈ s.started, i ∈ s.finalized ∨ i ∈ rest

/-- The invariant. The collection is paused on behalf of a blob preparer that is still to be
finalized. -/
structure Hygienic (s : Server ι) : Prop where
  counted : s.gate.Counted
  started_lt : ∀ i ∈ s.started, i < s.registry.length
  gc : s.gcPaused = true → ∃ i ∈ s.started, s.isBlob i = true ∧ i ∉ s.finalized
  atPc : s.AtPc s.pc

theorem hygienic_new : Hygienic (new : Server ι) where
  counted := WriteGate.counted_new
  started_lt := by simp [new]
  gc := by simp [new]
  atPc := ⟨rfl, by simp [new]⟩

variable {s t : Server ι}

variable {i : Nat}

theorem isBlob_register {kind : PreparerKind} (hi : i < s.registry.length) :
    isBlob { s with registry := s.registry ++ [kind] } i = s.isBlob i := by
  simp [isBlob, getElem?_append_left hi]

variable {pc : RunPc}

theorem AtPc.register {kind : PreparerKind} (h : s.AtPc pc) :
    AtPc { s with registry := s.registry ++ [kind] } pc := by
  cases pc with
  | guarded phase =>
    cases phase with
    | preparing i rest =>
      refine ⟨h.1, h.2.1, fun j hj => ?_⟩
      have hlt := h.2.2 j hj
      simp only [length_append, length_singleton]
      omega
    | _ => exact h
  | _ => exact h

theorem Hygienic.register (h : Hygienic s) (kind : PreparerKind) :
    Hygienic { s with registry := s.registry ++ [kind] } where
  counted := h.counted
  started_lt := by
    intro i hi
    have hlt := h.started_lt i hi
    simp only [length_append, length_singleton]
    omega
  gc := by
    intro hgc
    obtain ⟨i, hi, hblob, hfin⟩ := h.gc hgc
    exact ⟨i, hi, by rw [isBlob_register (h.started_lt i hi), hblob], hfin⟩
  atPc := h.atPc.register

variable {g : WriteGate ι}

theorem AtPc.of_gate (hp : g.paused = s.gate.paused)
    (hd : g.drained = s.gate.drained) (h : s.AtPc pc) : AtPc { s with gate := g } pc := by
  cases pc with
  | guarded phase =>
    cases phase <;> simp only [AtPc, AtPhase, hp, hd] at h ⊢ <;> exact h
  | _ => simp only [AtPc, hp] at h ⊢; exact h

theorem Hygienic.goto (h : Hygienic s) (hg : g.Counted)
    (hpc : AtPc { s with gate := g } pc) : Hygienic { s with gate := g, pc := pc } :=
  ⟨hg, h.started_lt, h.gc, hpc⟩

theorem Hygienic.at (h : Hygienic s) (hpc : s.pc = pc) : s.AtPc pc := hpc ▸ h.atPc

theorem Hygienic.move (h : Hygienic s) {old : RunPc} (hpc : s.pc = old)
    (hat : s.AtPc old → s.AtPc pc) : Hygienic { s with pc := pc } :=
  h.goto h.counted (hat (h.at hpc))

theorem Hygienic.idle (h : Hygienic s) (hpc : s.pc = .idle) :
    s.gate.paused = false ∧ s.gcPaused = false ∧ ∀ i ∈ s.started, i ∈ s.finalized := by
  obtain ⟨hopen, hfinalized⟩ := h.at hpc
  refine ⟨hopen, Bool.eq_false_iff.mpr fun hgc => ?_, hfinalized⟩
  obtain ⟨i, hi, -, hfin⟩ := h.gc hgc
  exact hfin (hfinalized i hi)

theorem mem_preparers : i ∈ s.preparers ↔ i < s.registry.length := List.mem_range

theorem Hygienic.drop (h : Hygienic s) : Hygienic s.drop :=
  h.goto h.counted fun i hi => .inr (mem_preparers.mpr (h.started_lt i hi))

theorem Hygienic.prepareFrom (h : Hygienic s) (hfin : s.finalized = [])
    (hdrained : s.gate.drained = true) {is : List Nat} (his : ∀ i ∈ is, i < s.registry.length) :
    Hygienic (s.prepareFrom is) := by
  cases is with
  | nil => exact h.goto h.counted ⟨hfin, trivial⟩
  | cons i rest =>
    rw [forall_mem_cons] at his
    refine ⟨h.counted, ?_, ?_, hfin, hdrained, his.2⟩
    · intro j hj
      rcases mem_append.mp hj with hj | hj
      · exact h.started_lt j hj
      · rw [mem_singleton.mp hj]
        exact his.1
    · intro hgc
      rcases Bool.or_eq_true_iff.mp hgc with hgc | hblob
      · obtain ⟨j, hj, hj'⟩ := h.gc hgc
        exact ⟨j, mem_append_left _ hj, hj'⟩
      · refine ⟨i, mem_append_right _ (mem_singleton_self i), hblob, ?_⟩
        show i ∉ s.finalized
        rw [hfin]
        exact not_mem_nil

theorem Hygienic.uploadFrom (h : Hygienic s) (hfin : s.finalized = [])
    (hopen : s.gate.paused = false) (is : List Nat) : Hygienic (s.uploadFrom is) := by
  cases is with
  | nil | cons => exact h.goto h.counted ⟨hfin, hopen⟩

variable {rest : List Nat}

theorem Hygienic.finalizeAt (h : Hygienic s)
    (hpc : s.pc = .dropping (i :: rest)) : Hygienic (s.finalizeAt i rest) where
  counted := h.counted
  started_lt := h.started_lt
  gc := by
    intro hgc
    obtain ⟨hgc, hnot⟩ := Bool.and_eq_true_iff.mp hgc
    obtain ⟨j, hj, hblob, hfin⟩ := h.gc hgc
    refine ⟨j, hj, hblob, fun hmem => ?_⟩
    rcases mem_append.mp hmem with hmem | hmem
    · exact hfin hmem
    · rw [mem_singleton.mp hmem] at hblob
      rw [hblob] at hnot
      cases hnot
  atPc := by
    intro j hj
    rcases h.at hpc j hj with hfin | hrest
    · exact .inl (mem_append_left _ hfin)
    · rcases mem_cons.mp hrest with rfl | hrest
      · exact .inl (mem_append_right _ (mem_singleton_self j))
      · exact .inr hrest

variable [DecidableEq ι]

theorem next_admission {g' : WriteGate ι} {l : GateStep ι} (hl : l.IsAdmission = true)
    (h : g.next l = some g') : g'.paused = g.paused ∧ g'.drained = g.drained := by
  rcases WriteGate.next_cases h with ⟨i, kind, -, -, rfl⟩ | ⟨i, kind, -, -, -, rfl⟩ |
    ⟨i, kind, -, -, -, rfl⟩ | ⟨i, kind, -, -, rfl⟩ | ⟨i, -, -, rfl⟩ | ⟨i, -, -, rfl⟩ |
    ⟨rfl, -⟩ | ⟨rfl, -⟩ | ⟨rfl, -⟩
  · exact ⟨rfl, rfl⟩
  · exact ⟨rfl, rfl⟩
  · exact ⟨rfl, rfl⟩
  · exact ⟨rfl, rfl⟩
  · exact ⟨rfl, rfl⟩
  · exact ⟨rfl, rfl⟩
  · cases hl
  · cases hl
  · cases hl

section

variable (h : Hygienic s)

include h

theorem Hygienic.admission {l : GateStep ι}
    (hl : l.IsAdmission = true) (hg : s.gate.next l = some g) : Hygienic { s with gate := g } where
  counted := WriteGate.counted_next h.counted hg
  started_lt := h.started_lt
  gc := h.gc
  atPc := h.atPc.of_gate (next_admission hl hg).1 (next_admission hl hg).2

theorem Hygienic.advance {phase : Phase} (hpc : s.pc = .guarded phase)
    (ht : s.advance phase = some t) : Hygienic t := by
  obtain ⟨hfin, hat⟩ := h.at hpc
  cases phase with
  | pause =>
    simp only [Server.advance, map_eq_some_iff] at ht
    obtain ⟨g, hg, rfl⟩ := ht
    refine h.goto (WriteGate.counted_next h.counted hg) ⟨hfin, ?_⟩
    cases hg
    rfl
  | drain =>
    simp only [Server.advance, ite_none_right_eq_some] at ht
    obtain ⟨hzero, ht⟩ := ht
    obtain ⟨g, hg, rfl⟩ := map_eq_some_iff.mp ht
    refine h.goto (WriteGate.counted_next h.counted hg) ⟨hfin, ?_⟩
    simp only [WriteGate.next, hzero, if_true, some.injEq] at hg
    rw [← hg, show s.gate.paused = true from hat]
    exact Bool.or_true _
  | blobDrain =>
    cases ht
    exact h.goto h.counted ⟨hfin, hat⟩
  | runningRecord =>
    cases ht
    exact h.prepareFrom hfin hat fun i hi => mem_preparers.mp hi
  | preparing i rest =>
    cases ht
    exact h.prepareFrom hfin hat.1 hat.2
  | warnings failed =>
    cases ht
    refine h.goto h.counted ⟨hfin, ?_⟩
    cases failed <;> trivial
  | resume =>
    simp only [Server.advance, map_eq_some_iff] at ht
    obtain ⟨g, hg, rfl⟩ := ht
    have hcounted := WriteGate.counted_next h.counted hg
    cases hg
    have hopen : Hygienic { s with gate := { s.gate with paused := false, drained := false } } := by
      refine ⟨hcounted, h.started_lt, h.gc, ?_⟩
      rw [hpc]
      exact ⟨hfin, trivial⟩
    exact hopen.uploadFrom hfin rfl s.preparers
  | contributing i rest =>
    cases ht
    exact h.uploadFrom hfin hat rest
  | uploading =>
    cases ht
    exact h.goto h.counted ⟨hfin, trivial⟩
  | finishing =>
    cases ht
    exact h.drop

theorem Hygienic.ok (ht : s.next .ok = some t) : Hygienic t := by
  cases hpc : s.pc with
  | idle => simp [next, hpc] at ht
  | preflight =>
    simp only [next, hpc, some.injEq] at ht
    exact ht ▸ h.move hpc id
  | previousManifest =>
    simp only [next, hpc, some.injEq] at ht
    exact ht ▸ h.move hpc fun hat => ⟨hat.2.2, hat.2.1⟩
  | preflightFinish =>
    simp only [next, hpc, some.injEq] at ht
    exact ht ▸ h.move hpc fun hat => ⟨hat.1, by simp [hat.2.1]⟩
  | guarded phase =>
    simp only [next, hpc] at ht
    exact h.advance hpc ht
  | dropping rest =>
    cases rest with
    | nil =>
      simp only [next, hpc, map_eq_some_iff] at ht
      obtain ⟨g, hg, rfl⟩ := ht
      have hcounted := WriteGate.counted_next h.counted hg
      cases hg
      exact h.goto hcounted ⟨rfl, fun i hi => (h.at hpc i hi).resolve_right not_mem_nil⟩
    | cons i rest =>
      simp only [next, hpc, some.injEq] at ht
      exact ht ▸ h.finalizeAt hpc

theorem Hygienic.error (ht : s.next .error = some t) : Hygienic t := by
  simp only [next] at ht
  split at ht <;> cases ht
  next hpc => exact h.move hpc id
  next hpc => exact h.move hpc id
  next hpc => exact h.move hpc fun hat => ⟨hat.1, trivial⟩
  next hpc => exact h.move hpc fun hat => ⟨hat.1, trivial⟩
  next hpc => exact h.move hpc fun hat => ⟨hat.1, trivial⟩

theorem Hygienic.panic (ht : s.next .panic = some t) : Hygienic t := by
  cases hpc : s.pc with
  | idle => simp [next, hpc] at ht
  | guarded phase =>
    simp only [next, hpc, some.injEq] at ht
    exact ht ▸ h.drop
  | dropping rest =>
    cases rest with
    | nil => simp [next, hpc] at ht
    | cons i rest =>
      simp only [next, hpc, some.injEq] at ht
      exact ht ▸ h.finalizeAt hpc
  | _ =>
    simp only [next, hpc, some.injEq] at ht
    exact ht ▸ h.move hpc fun hat => ⟨hat.1, by simp [hat.2.1]⟩

theorem hygienic_next {l : ManagerStep ι} (ht : s.next l = some t) : Hygienic t := by
  cases l with
  | register kind =>
    cases ht
    exact h.register kind
  | admission l =>
    simp only [next, ite_none_right_eq_some, map_eq_some_iff] at ht
    obtain ⟨hl, g, hg, rfl⟩ := ht
    exact h.admission hl hg
  | begin =>
    simp only [next, ite_none_right_eq_some, some.injEq] at ht
    obtain ⟨hpc, rfl⟩ := ht
    obtain ⟨hopen, hgc, -⟩ := h.idle hpc
    exact ⟨h.counted, by simp, by simp [hgc], hopen, rfl, rfl⟩
  | ok => exact h.ok ht
  | error => exact h.error ht
  | panic => exact h.panic ht

end

variable {ls : List (ManagerStep ι)}

theorem hygienic_run (h : runFrom next new ls = some s) : Hygienic s := by
  have hall : Along next (fun _ _ => True) new ls := .of_forall fun _ _ _ => trivial
  exact hall.invariant (fun hs _ hnext => hygienic_next hs hnext) hygienic_new h

/-- Nobody writes while a preparer is run. -/
theorem capture_quiesced (h : runFrom next new ls = some s)
    (hpc : s.pc = .guarded (.preparing i rest)) (j : ι) :
    s.gate.pc j ≠ .held := by
  have hs := hygienic_run h
  exact (hs.counted.drained (hs.at hpc).2.1).2 j

/-- A run up to the blob preparer. -/
def blobRun : List (ManagerStep ℕ) := [.register .blob, .begin, .ok, .ok, .ok, .ok, .ok, .ok]

theorem capture_quiesced_sample : ∃ s, runFrom next new blobRun = some s ∧ s.gate.pc 0 ≠ .held :=
  have hrun : runFrom next new blobRun = some _ := rfl
  ⟨_, hrun, capture_quiesced hrun rfl 0⟩

theorem dropping_ends (hpc : s.pc = .dropping rest) (hlen : ls.length = rest.length)
    (hls : ∀ l ∈ ls, l = .ok ∨ l = .panic) :
    ∃ t, runFrom next s (ls ++ [.ok]) = some t ∧ t.pc = .idle := by
  induction ls generalizing s rest with
  | nil =>
    rw [eq_nil_of_length_eq_zero hlen.symm] at hpc
    exact ⟨_, by simp [runFrom, next, hpc, WriteGate.next]; rfl, rfl⟩
  | cons l ls ih =>
    obtain ⟨i, rest, rfl⟩ := exists_cons_of_length_eq_add_one hlen.symm
    rw [forall_mem_cons] at hls
    have hstep : s.next l = some (s.finalizeAt i rest) := by
      rcases hls.1 with rfl | rfl <;> simp [next, hpc]
    obtain ⟨t, hrun, ht⟩ := ih (s := s.finalizeAt i rest) rfl (by simpa using hlen) hls.2
    exact ⟨t, by rw [cons_append, runFrom, hstep, bind_some, hrun], ht⟩

/-- Wherever a run under the scope guard panics, and whichever finalizers panic after that, the
server is idle in the end with nothing left undone. -/
theorem panic_restores {outcomes : List (ManagerStep ι)} {phase : Phase}
    (h : runFrom next new ls = some s) (hpc : s.pc = .guarded phase)
    (hlen : outcomes.length = s.registry.length) (hout : ∀ l ∈ outcomes, l = .ok ∨ l = .panic) :
    ∃ t, runFrom next s (.panic :: (outcomes ++ [.ok])) = some t ∧ t.pc = .idle ∧
      t.gate.paused = false ∧ t.gcPaused = false ∧ ∀ i ∈ t.started, i ∈ t.finalized := by
  have hdrop : s.next .panic = some s.drop := by simp [next, hpc]
  obtain ⟨t, hrun, hidle⟩ := dropping_ends (s := s.drop) rfl (by simpa [preparers] using hlen) hout
  have hall : runFrom next s (.panic :: (outcomes ++ [.ok])) = some t := by
    rw [runFrom, hdrop, bind_some, hrun]
  have hwhole : runFrom next new (ls ++ .panic :: (outcomes ++ [.ok])) = some t := by
    rw [runFrom_append, h]
    exact hall
  exact ⟨t, hall, hidle, (hygienic_run hwhole).idle hidle⟩

/-- The blob preparer panics after it has paused the collection. -/
theorem panic_restores_sample :
    ∃ t, runFrom next new (blobRun ++ [.panic, .panic, .ok]) = some t ∧ t.started = [0] ∧
      t.gcPaused = false := by
  have hrun : runFrom next new blobRun = some _ := rfl
  obtain ⟨t, hpanic, -, -, hgc, -⟩ := panic_restores hrun rfl (show [.panic].length = 1 from rfl)
    (by simp)
  exact ⟨t, hpanic, by cases hpanic; rfl, hgc⟩

def Uploading : RunPc → Prop
  | .guarded (.contributing _ _) | .guarded .uploading => True
  | _ => False

/-- Whatever succeeds, fails or panics in the runs of the server: when a run has ended the gate
is open, the collection is not paused and every preparer that was started has been finalized;
and no upload is in progress while the gate is closed. -/
theorem backup_window_hygiene {ls : List (ManagerStep ι)} {s : Server ι}
    (h : runFrom next new ls = some s) :
    (s.pc = .idle →
      s.gate.paused = false ∧ s.gcPaused = false ∧ ∀ i ∈ s.started, i ∈ s.finalized) ∧
    (Uploading s.pc → s.gate.paused = false) := by
  have hs := hygienic_run h
  refine ⟨hs.idle, fun hpc => ?_⟩
  have hat := hs.atPc
  cases hpc' : s.pc with
  | guarded phase =>
    rw [hpc'] at hat hpc
    cases phase with
    | contributing | uploading => exact hat.2
    | _ => exact hpc.elim
  | _ =>
    rw [hpc'] at hpc
    exact hpc.elim

/-- The index preparer panics after the collection was paused, and then the first finalizer. -/
def panickingRun : List (ManagerStep ℕ) :=
  [.register .memdb, .register .blob, .register .envelopeIndex, .begin, .ok, .ok, .ok,
    .admission (.fetchAdd 0 .check), .admission (.loadPaused 0), .admission (.fetchSub 0), .ok,
    .ok, .ok, .ok, .ok, .panic, .panic, .ok, .ok, .ok]

theorem backup_window_hygiene_sample :
    ∃ s, runFrom next new panickingRun = some s ∧ s.started = [0, 1, 2] ∧
      s.gate.paused = false ∧ s.gcPaused = false ∧ ∀ i ∈ s.started, i ∈ s.finalized :=
  have hrun : runFrom next new panickingRun = some _ := rfl
  ⟨_, hrun, rfl, (backup_window_hygiene hrun).1 rfl⟩

end Server

end Bichon.Backup
