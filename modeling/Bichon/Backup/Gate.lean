import Bichon.Lib.Census
import Bichon.Lib.Transition

/-!
# The write gate

Every content write counts itself as in flight while it runs, and a backup closes
the gate and waits until nothing is in flight any more. An admission is three
atomic operations: it counts itself first, then reads the flag, and takes itself
back when the gate is closed. Dropping a guard is one. The operations of any
number of calls are interleaved in any order; each call of `acquire` or `check` has
its own program counter, so that a nested call is another call.

`notify` only decides when a waiting `acquire` tries again and when `drain` looks
at the count again. Both happen at any time here.
-/

namespace Bichon.Backup

open Transition Census Option Function

/-- `acquire` tries again until its deadline, `check` fails at once. -/
inductive Admission
  | acquire
  | check
  deriving DecidableEq, Repr

/-- Where a call stands. -/
inductive GatePc
  | idle
  /-- `in_flight` was incremented, the flag was not read yet -/
  | counted (kind : Admission)
  /-- the flag was set, the increment is still to be undone -/
  | refused (kind : Admission)
  /-- an `acquire` between two attempts -/
  | waiting
  /-- the error was returned -/
  | failed
  /-- the guard was returned and not dropped yet -/
  | held
  | dropped
  deriving DecidableEq, Repr

def GatePc.Held (pc : GatePc) : Prop := pc = .held

/-- The call has counted itself and not finished its attempt. -/
def GatePc.InProgress : GatePc → Prop
  | .counted _ | .refused _ => True
  | _ => False

/-- The gate and all calls. `drained` says that a `drain` has returned since the
last `pause` and no `resume` came after it. -/
structure WriteGate (ι : Type) where
  paused : Bool
  inFlight : Nat
  pc : ι → GatePc
  drained : Bool

inductive GateStep (ι : Type)
  /-- `try_admit`: `in_flight.fetch_add(1)` -/
  | fetchAdd (i : ι) (kind : Admission)
  /-- `try_admit`: `paused.load()` -/
  | loadPaused (i : ι)
  /-- `try_admit`: `in_flight.fetch_sub(1)` of a refused admission -/
  | fetchSub (i : ι)
  /-- the deadline of an `acquire` -/
  | timeout (i : ι)
  /-- `WriteGuard::drop` -/
  | drop (i : ι)
  | pause
  | resume
  /-- `drain`: `in_flight.load()`; it returns when there is nothing in flight -/
  | drainLoad
  deriving DecidableEq, Repr

namespace WriteGate

variable {ι : Type}

def new : WriteGate ι := ⟨false, 0, fun _ => .idle, false⟩

/-- What holds in every state: the count is the number of guards and of attempts
that are not finished, and after a `drain` the gate is closed and no guard is held. -/
structure Counted (s : WriteGate ι) : Prop where
  held : Finitely GatePc.Held s.pc
  inProgress : Finitely GatePc.InProgress s.pc
  count : s.inFlight = census GatePc.Held s.pc + census GatePc.InProgress s.pc
  drained : s.drained = true → s.paused = true ∧ ∀ i, s.pc i ≠ .held

theorem counted_new : Counted (new : WriteGate ι) := by
  have hheld : ∀ i : ι, ¬ GatePc.Held ((new : WriteGate ι).pc i) := fun i h => by cases h
  have hprog : ∀ i : ι, ¬ GatePc.InProgress ((new : WriteGate ι).pc i) := fun i h => h
  have hfin : Finitely GatePc.Held (new : WriteGate ι).pc := by simp [Finitely, hheld]
  have hfin' : Finitely GatePc.InProgress (new : WriteGate ι).pc := by simp [Finitely, hprog]
  refine ⟨hfin, hfin', ?_, fun h => by cases h⟩
  rw [(census_eq_zero hfin).mpr hheld, (census_eq_zero hfin').mpr hprog]
  rfl

variable [DecidableEq ι]

/-- The call `i` goes to `pc` and leaves `inFlight` behind. -/
def move (s : WriteGate ι) (i : ι) (pc : GatePc) (inFlight : Nat) : WriteGate ι :=
  ⟨s.paused, inFlight, Function.update s.pc i pc, s.drained⟩

/-- A call starts an attempt when it is new or an `acquire` that waits. -/
def CanTry (kind : Admission) (pc : GatePc) : Prop := pc = .idle ∨ (pc = .waiting ∧ kind = .acquire)

instance (kind : Admission) (pc : GatePc) : Decidable (CanTry kind pc) :=
  inferInstanceAs (Decidable (_ ∨ _))

/-- Where a refused call goes. -/
def afterRefusal : Admission → GatePc
  | .acquire => .waiting
  | .check => .failed

def next (s : WriteGate ι) : GateStep ι → Option (WriteGate ι)
  | .fetchAdd i kind =>
    if CanTry kind (s.pc i) then some (s.move i (.counted kind) (s.inFlight + 1)) else none
  | .loadPaused i =>
    match s.pc i with
    | .counted kind =>
      some (s.move i (if s.paused then .refused kind else .held) s.inFlight)
    | _ => none
  | .fetchSub i =>
    match s.pc i with
    | .refused kind => some (s.move i (afterRefusal kind) (s.inFlight - 1))
    | _ => none
  | .timeout i => if s.pc i = .waiting then some (s.move i .failed s.inFlight) else none
  | .drop i => if s.pc i = .held then some (s.move i .dropped (s.inFlight - 1)) else none
  | .pause => some { s with paused := true }
  | .resume => some { s with paused := false, drained := false }
  | .drainLoad => some (if s.inFlight = 0 then { s with drained := s.drained || s.paused } else s)

variable {s t : WriteGate ι} {l : GateStep ι}

theorem next_cases (h : s.next l = some t) :
    (∃ i kind, l = .fetchAdd i kind ∧ CanTry kind (s.pc i) ∧
      t = s.move i (.counted kind) (s.inFlight + 1)) ∨
    (∃ i kind, l = .loadPaused i ∧ s.pc i = .counted kind ∧ s.paused = false ∧
      t = s.move i .held s.inFlight) ∨
    (∃ i kind, l = .loadPaused i ∧ s.pc i = .counted kind ∧ s.paused = true ∧
      t = s.move i (.refused kind) s.inFlight) ∨
    (∃ i kind, l = .fetchSub i ∧ s.pc i = .refused kind ∧
      t = s.move i (afterRefusal kind) (s.inFlight - 1)) ∨
    (∃ i, l = .timeout i ∧ s.pc i = .waiting ∧ t = s.move i .failed s.inFlight) ∨
    (∃ i, l = .drop i ∧ s.pc i = .held ∧ t = s.move i .dropped (s.inFlight - 1)) ∨
    (l = .pause ∧ t = { s with paused := true }) ∨
    (l = .resume ∧ t = { s with paused := false, drained := false }) ∨
    (l = .drainLoad ∧ t = if s.inFlight = 0 then { s with drained := s.drained || s.paused } else s)
    := by
  cases l with
  | fetchAdd i kind =>
    simp only [next, ite_none_right_eq_some, some.injEq] at h
    exact .inl ⟨i, kind, rfl, h.1, h.2.symm⟩
  | loadPaused i =>
    simp only [next] at h
    split at h
    next kind hpc =>
      cases hp : s.paused with
      | false =>
        simp only [hp, Bool.false_eq_true, if_false, some.injEq] at h
        exact .inr (.inl ⟨i, kind, rfl, hpc, rfl, h.symm⟩)
      | true =>
        simp only [hp, if_true, some.injEq] at h
        exact .inr (.inr (.inl ⟨i, kind, rfl, hpc, rfl, h.symm⟩))
    next => cases h
  | fetchSub i =>
    simp only [next] at h
    split at h
    next kind hpc =>
      exact .inr (.inr (.inr (.inl ⟨i, kind, rfl, hpc, (some.inj h).symm⟩)))
    next => cases h
  | timeout i =>
    simp only [next, ite_none_right_eq_some, some.injEq] at h
    exact .inr (.inr (.inr (.inr (.inl ⟨i, rfl, h.1, h.2.symm⟩))))
  | drop i =>
    simp only [next, ite_none_right_eq_some, some.injEq] at h
    exact .inr (.inr (.inr (.inr (.inr (.inl ⟨i, rfl, h.1, h.2.symm⟩)))))
  | pause =>
    have ht := (some.inj h).symm
    exact .inr (.inr (.inr (.inr (.inr (.inr (.inl ⟨rfl, ht⟩))))))
  | resume =>
    have ht := (some.inj h).symm
    exact .inr (.inr (.inr (.inr (.inr (.inr (.inr (.inl ⟨rfl, ht⟩)))))))
  | drainLoad =>
    have ht := (some.inj h).symm
    exact .inr (.inr (.inr (.inr (.inr (.inr (.inr (.inr ⟨rfl, ht⟩)))))))

/-- A move keeps the invariant when it keeps the count in step and hands out no
guard after a `drain`. -/
theorem Counted.move (hs : Counted s) {i : ι} {pc : GatePc} {n : Nat}
    (hcount : n = census GatePc.Held (Function.update s.pc i pc) +
      census GatePc.InProgress (Function.update s.pc i pc))
    (hpc : s.drained = true → pc ≠ .held) : Counted (s.move i pc n) where
  held := hs.held.update i pc
  inProgress := hs.inProgress.update i pc
  count := hcount
  drained := by
    intro hd
    obtain ⟨hpaused, hnone⟩ := hs.drained hd
    refine ⟨hpaused, fun j => ?_⟩
    change update s.pc i pc j ≠ .held
    by_cases hj : j = i
    · subst hj
      rw [update_self]
      exact hpc hd
    · rw [update_of_ne hj]
      exact hnone j

theorem counted_next (hs : Counted s) (h : s.next l = some t) : Counted t := by
  have hcount := hs.count
  rcases next_cases h with ⟨i, kind, -, htry, rfl⟩ | ⟨i, kind, -, hpc, hopen, rfl⟩ |
    ⟨i, kind, -, hpc, -, rfl⟩ | ⟨i, kind, -, hpc, rfl⟩ | ⟨i, -, hpc, rfl⟩ | ⟨i, -, hpc, rfl⟩ |
    ⟨-, rfl⟩ | ⟨-, rfl⟩ | ⟨-, rfl⟩
  · -- The attempt joins those in progress.
    have hnot : ¬ (s.pc i).Held ∧ ¬ (s.pc i).InProgress := by
      rcases htry with h | ⟨h, -⟩ <;> rw [h] <;> exact ⟨GatePc.noConfusion, id⟩
    refine hs.move ?_ fun _ => GatePc.noConfusion
    rw [census_update_stay (iff_of_false hnot.1 GatePc.noConfusion),
      census_update_enter (v := GatePc.counted kind) hs.inProgress hnot.2 trivial]
    omega
  · -- The attempt becomes a guard; the gate is open, so no `drain` has returned.
    have hleave := census_update_leave (v := GatePc.held) hs.inProgress
      (show (s.pc i).InProgress by rw [hpc]; trivial) id
    refine hs.move ?_ fun hd => ?_
    · rw [census_update_enter hs.held (by rw [hpc]; exact GatePc.noConfusion) rfl]
      omega
    · rw [(hs.drained hd).1] at hopen
      cases hopen
  · refine hs.move ?_ fun _ => GatePc.noConfusion
    rw [census_update_stay (by rw [hpc]; exact iff_of_false GatePc.noConfusion GatePc.noConfusion),
      census_update_stay (by rw [hpc]; exact Iff.rfl), hcount]
  · have hafter : ¬ (afterRefusal kind).Held ∧ ¬ (afterRefusal kind).InProgress := by
      cases kind <;> exact ⟨GatePc.noConfusion, id⟩
    have hleave := census_update_leave (v := afterRefusal kind) hs.inProgress
      (show (s.pc i).InProgress by rw [hpc]; trivial) hafter.2
    refine hs.move ?_ fun _ => hafter.1
    rw [census_update_stay (by rw [hpc]; exact iff_of_false GatePc.noConfusion hafter.1)]
    omega
  · refine hs.move ?_ fun _ => GatePc.noConfusion
    rw [census_update_stay (by rw [hpc]; exact iff_of_false GatePc.noConfusion GatePc.noConfusion),
      census_update_stay (by rw [hpc]; exact Iff.rfl), hcount]
  · have hleave := census_update_leave (v := GatePc.dropped) hs.held hpc GatePc.noConfusion
    refine hs.move ?_ fun _ => GatePc.noConfusion
    rw [census_update_stay (P := GatePc.InProgress) (by rw [hpc]; exact Iff.rfl)]
    omega
  · exact ⟨hs.held, hs.inProgress, hs.count, fun hd => ⟨rfl, (hs.drained hd).2⟩⟩
  · exact ⟨hs.held, hs.inProgress, hs.count, fun hd => by cases hd⟩
  · split
    next hzero =>
      refine ⟨hs.held, hs.inProgress, hs.count, fun hd => ?_⟩
      rcases Bool.or_eq_true_iff.mp hd with hbefore | hpaused
      · exact hs.drained hbefore
      · have hnone := (census_eq_zero hs.held).mp (by omega)
        exact ⟨hpaused, hnone⟩
    next => exact hs

theorem counted_run {ls : List (GateStep ι)} (hs : Counted s)
    (h : runFrom next s ls = some t) : Counted t := by
  induction ls generalizing s with
  | nil =>
    cases h
    exact hs
  | cons l ls ih =>
    obtain ⟨u, hu, hrest⟩ := bind_eq_some_iff.mp h
    exact ih (counted_next hs hu) hrest

theorem held_of_next (hp : s.paused = true) (hl : l ≠ .resume) (h : s.next l = some t) :
    t.paused = true ∧ ∀ i, t.pc i = .held → s.pc i = .held := by
  have hmove : ∀ {i pc n}, pc ≠ .held → (s.move i pc n).paused = true ∧
      ∀ j, (s.move i pc n).pc j = .held → s.pc j = .held := by
    intro i pc n hpc
    refine ⟨hp, fun j hj => ?_⟩
    change update s.pc i pc j = .held at hj
    by_cases hji : j = i
    · subst hji
      rw [update_self] at hj
      exact absurd hj hpc
    · rwa [update_of_ne hji] at hj
  rcases next_cases h with ⟨i, kind, -, -, rfl⟩ | ⟨i, kind, -, -, hopen, -⟩ |
    ⟨i, kind, -, -, -, rfl⟩ | ⟨i, kind, -, -, rfl⟩ | ⟨i, -, -, rfl⟩ | ⟨i, -, -, rfl⟩ |
    ⟨-, rfl⟩ | ⟨rfl, -⟩ | ⟨-, rfl⟩
  · exact hmove GatePc.noConfusion
  · rw [hp] at hopen
    cases hopen
  · exact hmove GatePc.noConfusion
  · exact hmove (by cases kind <;> exact GatePc.noConfusion)
  · exact hmove GatePc.noConfusion
  · exact hmove GatePc.noConfusion
  · exact ⟨rfl, fun i hi => hi⟩
  · exact absurd rfl hl
  · split
    · exact ⟨hp, fun i hi => hi⟩
    · exact ⟨hp, fun i hi => hi⟩

theorem held_of_run {ls : List (GateStep ι)} (hp : s.paused = true)
    (hls : .resume ∉ ls) (h : runFrom next s ls = some t) :
    t.paused = true ∧ ∀ i, t.pc i = .held → s.pc i = .held := by
  induction ls generalizing s with
  | nil =>
    cases h
    exact ⟨hp, fun _ hi => hi⟩
  | cons l ls ih =>
    obtain ⟨u, hu, hrest⟩ := bind_eq_some_iff.mp h
    rw [List.mem_cons, not_or] at hls
    obtain ⟨hpu, hheld⟩ := held_of_next hp (Ne.symm hls.1) hu
    obtain ⟨hpt, hheld'⟩ := ih hpu hls.2 hrest
    exact ⟨hpt, fun i hi => hheld i (hheld' i hi)⟩

theorem run_refused {i : ι} {kind : Admission} (hp : s.paused = true)
    (htry : CanTry kind (s.pc i)) :
    runFrom next s [.fetchAdd i kind, .loadPaused i, .fetchSub i] =
      some (s.move i (afterRefusal kind) s.inFlight) := by
  simp [runFrom, next, htry, move, hp]

theorem exists_finish {n : Nat} (ht : Counted t) (hn : t.inFlight = n)
    (hp : t.paused = true) (hnone : ∀ i, t.pc i ≠ .held) :
    ∃ ns u, (∀ l ∈ ns, ∃ i, l = .loadPaused i ∨ l = .fetchSub i) ∧
      runFrom next t ns = some u ∧ u.inFlight = 0 ∧ u.paused = true := by
  induction n generalizing t with
  | zero => exact ⟨[], t, by simp, rfl, hn, hp⟩
  | succ n ih =>
    have hsome : ∃ i, (t.pc i).InProgress := by
      by_contra hno
      have hzero := (census_eq_zero ht.inProgress).mpr (not_exists.mp hno)
      have hzero' := (census_eq_zero ht.held).mpr hnone
      have := ht.count
      omega
    obtain ⟨i, hi⟩ := hsome
    -- However far the attempt has come, it backs out without waiting for anyone.
    have hback : ∃ kind ns, (∀ l ∈ ns, l = .loadPaused i ∨ l = .fetchSub i) ∧
        runFrom next t ns = some (t.move i (afterRefusal kind) n) := by
      cases hpc : t.pc i with
      | counted kind =>
        refine ⟨kind, [.loadPaused i, .fetchSub i], by simp, ?_⟩
        simp [runFrom, next, hpc, hp, move, hn]
      | refused kind =>
        refine ⟨kind, [.fetchSub i], by simp, ?_⟩
        simp [runFrom, next, hpc, move, hn]
      | _ =>
        rw [hpc] at hi
        exact hi.elim
    obtain ⟨kind, ns, hns, hrun⟩ := hback
    have hnone' : ∀ j, (t.move i (afterRefusal kind) n).pc j ≠ .held := by
      have hresume : (.resume : GateStep ι) ∉ ns := by
        intro hmem
        rcases hns _ hmem with h | h <;> cases h
      exact fun j hj => hnone j ((held_of_run hp hresume hrun).2 j hj)
    obtain ⟨ms, u, hms, hrest, hzero, hpu⟩ := ih (counted_run ht hrun) rfl hp hnone'
    refine ⟨ns ++ ms, u, ?_, ?_, hzero, hpu⟩
    · rw [List.forall_mem_append]
      exact ⟨fun l hl => ⟨i, hns l hl⟩, hms⟩
    · rw [runFrom_append, hrun]
      exact hrest

/-- The gate in every state of every interleaving. The count is the number of
guards and of unfinished attempts, a refused attempt leaves it alone, and from the
return of `drain` under a closed gate until `resume` no guard is held. After `pause`
only the guards that were held then are left, `drain` returns as soon as it finds
neither one of them nor an attempt in progress, and the latter end on their own. -/
theorem write_gate_exclusion {ls : List (GateStep ι)} {s : WriteGate ι}
    (h : runFrom next new ls = some s) :
    s.inFlight = census GatePc.Held s.pc + census GatePc.InProgress s.pc ∧
    (s.drained = true → s.paused = true ∧ ∀ i, s.pc i ≠ .held) ∧
    (∀ i kind, s.paused = true → CanTry kind (s.pc i) →
      runFrom next s [.fetchAdd i kind, .loadPaused i, .fetchSub i] =
        some (s.move i (afterRefusal kind) s.inFlight)) ∧
    ∀ ms t, s.paused = true → .resume ∉ ms → runFrom next s ms = some t →
      (∀ i, t.pc i = .held → s.pc i = .held) ∧
      ((t.next .drainLoad).map drained = some true ↔
        t.drained = true ∨ ∀ i, t.pc i ≠ .held ∧ ¬ (t.pc i).InProgress) ∧
      ((∀ i, s.pc i = .held → t.pc i ≠ .held) → ∃ ns u,
        (∀ l ∈ ns, ∃ i, l = .loadPaused i ∨ l = .fetchSub i) ∧
          runFrom next t ns = some u ∧ (u.next .drainLoad).map drained = some true) := by
  have hs := counted_run counted_new h
  refine ⟨hs.count, hs.drained, fun i kind hp htry => run_refused hp htry, ?_⟩
  intro ms t hp hms hrun
  have ht := counted_run hs hrun
  obtain ⟨hpt, hheld⟩ := held_of_run hp hms hrun
  have hload : ∀ {u : WriteGate ι}, u.paused = true → ((u.next .drainLoad).map drained = some true ↔
      u.drained = true ∨ u.inFlight = 0) := by
    intro u hpu
    simp only [next, map_some, some.injEq]
    split
    next hzero => simp [hpu, hzero]
    next hzero => simp [hzero]
  refine ⟨hheld, ?_, fun hdropped => ?_⟩
  · rw [hload hpt, ht.count, Nat.add_eq_zero_iff, census_eq_zero ht.held,
      census_eq_zero ht.inProgress, ← forall_and]
    rfl
  · obtain ⟨ns, u, hns, hrun', hzero, hpu⟩ := exists_finish ht rfl hpt
      fun i hi => hdropped i (hheld i hi) hi
    exact ⟨ns, u, hns, hrun', (hload hpu).mpr (.inr hzero)⟩

/-- A guard is held when the gate closes, a `check` is refused, and `drain` returns
once the guard is dropped. -/
theorem write_gate_exclusion_sample :
    ∃ s : WriteGate ℕ, runFrom next new [.fetchAdd 0 .acquire, .loadPaused 0, .pause,
        .fetchAdd 1 .check, .loadPaused 1, .drainLoad, .fetchSub 1, .drop 0, .drainLoad] = some s ∧
      s.drained = true ∧ ∀ i, s.pc i ≠ .held := by
  refine ⟨_, rfl, rfl, ?_⟩
  have hrun : runFrom next (new : WriteGate ℕ) [.fetchAdd 0 .acquire, .loadPaused 0, .pause,
      .fetchAdd 1 .check, .loadPaused 1, .drainLoad, .fetchSub 1, .drop 0, .drainLoad] = some _ :=
    rfl
  exact ((write_gate_exclusion hrun).2.1 rfl).2

end WriteGate

end Bichon.Backup
