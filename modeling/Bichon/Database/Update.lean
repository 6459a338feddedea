import Bichon.MemDb.Db
import Bichon.Types

/-!
# Changing one record

The helpers for the records of a collection. `insert_impl` and `delete_impl` are one
operation of the database each. `update_impl` reads the record, applies a function to
it and writes the result, with the lock of the database released in between. Any
number of calls are interleaved, each with its own program counter, and a call is run
on its own by doing its steps one after the other.

Whether the write gate lets a call in is given from outside, by `paused`. A call asks
once, before everything else.
-/

namespace Bichon.Database

open MemDb Transition List

variable {V ι : Type}

/-- A call of `update_impl`, `delete_impl` or `insert_impl`. -/
inductive Call (V : Type)
  | update (key : String) (f : V → Except BichonError V)
  | delete (key : String)
  | insert (key : String) (value : V)

inductive CallPc (V : Type)
  | idle
  /-- `update_fn` has returned `updated` for the record that was read -/
  | writing (current updated : V)
  | returned (result : Except BichonError (Option V))

def busy : BichonError :=
  ⟨"server is currently backing up, writes are temporarily paused", .tooManyRequest⟩

/-- The collection, and the text `{:#?}` makes of an error of the database. -/
structure Model where
  collection : String
  debug : DbError → String

section

variable (M : Model)

/-- `raise_error!` of an error of the database. -/
def Model.raise (e : DbError) : BichonError := ⟨M.debug e, .internalError⟩

/-- One request to the database, made under its lock. -/
def Model.request (r : Request V) (data : Data V) : Except BichonError (Data V) :=
  match r.ops data with
  | .ok ops => .ok (applyOps data ops)
  | .error e => .error (M.raise e)

/-- A call that was let in, up to the point where it releases the lock for the first
time. -/
def Call.admitted (data : Data V) : Call V → Data V × CallPc V
  | .update key f =>
    match data.get M.collection key with
    | none => (data, .returned (.error (M.raise (.notFound M.collection key))))
    | some current =>
      match f current with
      | .ok updated => (data, .writing current updated)
      | .error e => (data, .returned (.error e))
  | .delete key =>
    match M.request (.delete M.collection key) data with
    | .error e => (data, .returned (.error e))
    | .ok data' =>
      if (data.get M.collection key).isSome then (data', .returned (.ok none))
      else
        (data', .returned (.error ⟨M.collection ++ " '" ++ key ++ "' not found for deletion",
          .resourceNotFound⟩))
  | .insert key value =>
    match M.request (.insert M.collection key value) data with
    | .ok data' => (data', .returned (.ok none))
    | .error e => (data, .returned (.error e))

/-- The first half of a call. -/
def Call.start (paused : Bool) (data : Data V) (c : Call V) : Data V × CallPc V :=
  if paused then (data, .returned (.error busy)) else c.admitted M data

/-- The second half of `update_impl`. -/
def Call.finish (data : Data V) (c : Call V) (updated : V) : Data V × CallPc V :=
  match c with
  | .update key _ =>
    match M.request (.upsert M.collection key updated) data with
    | .ok data' => (data', .returned (.ok (some updated)))
    | .error e => (data, .returned (.error e))
  | .delete _ | .insert _ _ => (data, .idle)

def Call.run (paused : Bool) (data : Data V) (c : Call V) : Data V × CallPc V :=
  match c.start M paused data with
  | (data', .writing _ updated) => c.finish M data' updated
  | r => r

end

structure Calls (V ι : Type) where
  data : Data V
  pc : ι → CallPc V

inductive CallStep (ι : Type)
  | start (i : ι)
  | finish (i : ι)
  deriving DecidableEq, Repr

def CallStep.caller : CallStep ι → ι
  | .start i | .finish i => i

section

variable (M : Model) (calls : ι → Call V) (paused : ι → Bool)

def serial (data : Data V) (order : List ι) : Data V :=
  order.foldl (fun data i => ((calls i).run M (paused i) data).1) data

/-- The records and the results are those of the calls that have returned, made in some
order one after the other. -/
def Serializable (data : Data V) (s : Calls V ι) : Prop :=
  ∃ order : List ι, order.Nodup ∧ (∀ i, i ∈ order ↔ ∃ r, s.pc i = .returned r) ∧
    serial M calls paused data order = s.data ∧
    ∀ before i after, order = before ++ i :: after →
      ((calls i).run M (paused i) (serial M calls paused data before)).2 = s.pc i

variable [DecidableEq ι]

def Calls.next (s : Calls V ι) : CallStep ι → Option (Calls V ι)
  | .start i =>
    match s.pc i with
    | .idle =>
      some ⟨((calls i).start M (paused i) s.data).1,
        Function.update s.pc i ((calls i).start M (paused i) s.data).2⟩
    | _ => none
  | .finish i =>
    match s.pc i with
    | .writing _ updated =>
      some ⟨((calls i).finish M s.data updated).1,
        Function.update s.pc i ((calls i).finish M s.data updated).2⟩
    | _ => none

end

/-- An `update_impl` writes to the record as it has read it. -/
def Unchanged (M : Model) (calls : ι → Call V) (s : Calls V ι) : CallStep ι → Prop
  | .start _ => True
  | .finish i =>
    match calls i, s.pc i with
    | .update key _, .writing current _ => s.data.get M.collection key = some current
    | _, _ => True

instance [DecidableEq V] (M : Model) (calls : ι → Call V) (s : Calls V ι) :
    DecidablePred (Unchanged M calls s)
  | .start _ => isTrue trivial
  | .finish i =>
    match hc : calls i, hpc : s.pc i with
    | .update key _, .writing current _ =>
      decidable_of_iff (s.data.get M.collection key = some current) (by simp [Unchanged, hc, hpc])
    | .update _ _, .idle | .update _ _, .returned _ | .delete _, _ | .insert _ _, _ =>
      isTrue (by simp [Unchanged, hc, hpc])

/-- What is known about a call that has read its record. -/
def Reading (calls : ι → Call V) (paused : ι → Bool) (s : Calls V ι) : Prop :=
  ∀ i current updated, s.pc i = .writing current updated →
    paused i = false ∧ ∃ key f, calls i = .update key f ∧ f current = .ok updated

variable {M : Model} {calls : ι → Call V} {paused : ι → Bool} {data : Data V} {s t : Calls V ι}

/-- After its first half a call has returned, or it is an `update_impl` that has changed
nothing yet. -/
theorem start_cases (c : Call V) (b : Bool) (d : Data V) :
    (∃ r, (c.start M b d).2 = .returned r) ∨
      b = false ∧ ∃ key f current updated, c = .update key f ∧ f current = .ok updated ∧
        c.start M b d = (d, .writing current updated) := by
  cases b with
  | true => exact .inl ⟨_, rfl⟩
  | false =>
    simp only [Call.start, Bool.false_eq_true, if_false]
    cases c with
    | update key f =>
      simp only [Call.admitted]
      cases hget : d.get M.collection key with
      | none => exact .inl ⟨_, rfl⟩
      | some current =>
        cases hf : f current with
        | error e => exact .inl ⟨.error e, by simp only [hf]⟩
        | ok updated =>
          exact .inr ⟨trivial, key, f, current, updated, rfl, hf, by simp only [hf]⟩
    | delete key =>
      left
      simp only [Call.admitted]
      split
      · exact ⟨_, rfl⟩
      · split
        · exact ⟨_, rfl⟩
        · exact ⟨_, rfl⟩
    | insert key value =>
      left
      simp only [Call.admitted]
      split
      · exact ⟨_, rfl⟩
      · exact ⟨_, rfl⟩

theorem run_of_returned {c : Call V} {b : Bool} {d : Data V} {r : Except BichonError (Option V)}
    (h : (c.start M b d).2 = .returned r) : c.run M b d = c.start M b d := by
  rw [Call.run]
  split
  next heq =>
    rw [heq] at h
    cases h
  next => rfl

/-- The record is still the one that was read: the second half of the call is the
whole call. -/
theorem run_eq_finish {key : String} {f : V → Except BichonError V} {d : Data V}
    {current updated : V} (hf : f current = .ok updated)
    (hget : d.get M.collection key = some current) :
    (Call.update key f).run M false d = (Call.update key f).finish M d updated := by
  simp only [Call.run, Call.start, Call.admitted, Bool.false_eq_true, if_false, hget, hf]

theorem finish_returned (key : String) {f : V → Except BichonError V} (d : Data V) (updated : V) :
    ∃ r, ((Call.update key f).finish M d updated).2 = .returned r := by
  simp only [Call.finish]
  split
  · exact ⟨_, rfl⟩
  · exact ⟨_, rfl⟩

theorem Serializable.congr (hs : Serializable M calls paused data s) (hdata : t.data = s.data)
    (hpc : ∀ i, t.pc i = s.pc i ∨ (∀ r, t.pc i ≠ .returned r) ∧ ∀ r, s.pc i ≠ .returned r) :
    Serializable M calls paused data t := by
  obtain ⟨order, hnodup, hmem, hserial, hresults⟩ := hs
  refine ⟨order, hnodup, fun i => ?_, hserial.trans hdata.symm, fun before i after h => ?_⟩
  · rw [hmem]
    rcases hpc i with heq | ⟨ht, hs⟩
    · rw [heq]
    · simp [ht, hs]
  · rcases hpc i with heq | ⟨-, hs⟩
    · rw [hresults before i after h, heq]
    · obtain ⟨r, hr⟩ := (hmem i).mp (by simp [h])
      exact absurd hr (hs r)

theorem Serializable.concat [DecidableEq ι] (hs : Serializable M calls paused data s) {i : ι}
    (hi : ∀ r, s.pc i ≠ .returned r)
    {c : Data V × CallPc V} (hrun : (calls i).run M (paused i) s.data = c)
    {r : Except BichonError (Option V)} (hpc : c.2 = .returned r) :
    Serializable M calls paused data (⟨c.1, Function.update s.pc i c.2⟩ : Calls V ι) := by
  obtain ⟨order, hnodup, hmem, hdata, hresults⟩ := hs
  have hnew : i ∉ order := fun h => by
    obtain ⟨r, hr⟩ := (hmem i).mp h
    exact hi r hr
  refine ⟨order ++ [i], ?_, ?_, ?_, ?_⟩
  · exact nodup_append.mpr ⟨hnodup, nodup_singleton i, by
      rintro a ha b hb rfl
      exact hnew (mem_singleton.mp hb ▸ ha)⟩
  · intro j
    by_cases hj : j = i
    · subst hj
      simp [hpc]
    · simp [hj, hmem]
  · rw [serial, foldl_append]
    change ((calls i).run M (paused i) (serial M calls paused data order)).1 = c.1
    rw [hdata, hrun]
  · intro before j after heq
    dsimp only
    rcases eq_nil_or_concat' after with rfl | ⟨after', k, rfl⟩
    · obtain ⟨rfl, hji⟩ := append_inj' heq rfl
      cases hji
      rw [hdata, hrun, Function.update_self]
    · rw [← cons_append, ← append_assoc] at heq
      obtain ⟨horder, -⟩ := append_inj' heq rfl
      have hj : j ≠ i := by
        rintro rfl
        exact hnew (by simp [horder])
      rw [Function.update_of_ne hj]
      exact hresults before j after' horder

variable [DecidableEq ι]

theorem Reading.update (h : Reading calls paused s) {i : ι} {d : Data V} {pc : CallPc V}
    (hpc : ∀ current updated, pc = .writing current updated →
      paused i = false ∧ ∃ key f, calls i = .update key f ∧ f current = .ok updated) :
    Reading calls paused ⟨d, Function.update s.pc i pc⟩ := by
  intro j current updated hj
  dsimp only at hj
  by_cases hji : j = i
  · subst hji
    rw [Function.update_self] at hj
    exact hpc current updated hj
  · rw [Function.update_of_ne hji] at hj
    exact h j current updated hj

theorem Reading.next {l : CallStep ι} (h : Reading calls paused s)
    (hnext : s.next M calls paused l = some t) : Reading calls paused t := by
  cases l with
  | start i =>
    simp only [Calls.next] at hnext
    split at hnext <;> cases hnext
    refine h.update fun current updated hpc => ?_
    rcases start_cases (M := M) (calls i) (paused i) s.data with
      ⟨r, hr⟩ | ⟨hopen, key, f, _, _, hc, hf, hstart⟩
    · rw [hr] at hpc
      cases hpc
    · rw [hstart] at hpc
      cases hpc
      exact ⟨hopen, key, f, hc, hf⟩
  | finish i =>
    simp only [Calls.next] at hnext
    split at hnext <;> cases hnext
    next hpc =>
      obtain ⟨-, key, f, hc, -⟩ := h i _ _ hpc
      refine h.update fun current updated hwriting => ?_
      obtain ⟨r, hr⟩ := finish_returned (M := M) key (f := f) s.data _
      rw [hc, hr] at hwriting
      cases hwriting

theorem serializable_start {i : ι} (hs : Serializable M calls paused data s)
    (hidle : s.pc i = .idle) :
    Serializable M calls paused data
      ⟨((calls i).start M (paused i) s.data).1,
        Function.update s.pc i ((calls i).start M (paused i) s.data).2⟩ := by
  rcases start_cases (M := M) (calls i) (paused i) s.data with
    ⟨r, hr⟩ | ⟨-, -, -, current, updated, -, -, hstart⟩
  · exact hs.concat (by simp [hidle]) (run_of_returned hr) hr
  · rw [hstart]
    refine hs.congr rfl fun j => ?_
    by_cases hji : j = i
    · subst hji
      simp [hidle]
    · simp [hji]

theorem serializable_finish {i : ι} {current updated : V}
    (hs : Serializable M calls paused data s) (hread : Reading calls paused s)
    (hpc : s.pc i = .writing current updated) (hunchanged : Unchanged M calls s (.finish i)) :
    Serializable M calls paused data
      ⟨((calls i).finish M s.data updated).1,
        Function.update s.pc i ((calls i).finish M s.data updated).2⟩ := by
  obtain ⟨hopen, key, f, hc, hf⟩ := hread i current updated hpc
  have hget : s.data.get M.collection key = some current := by
    simpa only [Unchanged, hc, hpc] using hunchanged
  obtain ⟨r, hr⟩ : ∃ r, ((Call.update key f).finish M s.data updated).2 = .returned r :=
    finish_returned _ s.data updated
  have hrun : (calls i).run M (paused i) s.data = (calls i).finish M s.data updated := by
    rw [hc, hopen]
    exact run_eq_finish hf hget
  rw [← hc] at hr
  exact hs.concat (by simp [hpc]) hrun hr

theorem serializable_next {l : CallStep ι}
    (hs : Serializable M calls paused data s ∧ Reading calls paused s)
    (hl : Unchanged M calls s l) (h : s.next M calls paused l = some t) :
    Serializable M calls paused data t ∧ Reading calls paused t := by
  refine ⟨?_, hs.2.next h⟩
  cases l with
  | start i =>
    simp only [Calls.next] at h
    split at h <;> cases h
    next hidle => exact serializable_start hs.1 hidle
  | finish i =>
    simp only [Calls.next] at h
    split at h <;> cases h
    next hpc => exact serializable_finish hs.1 hs.2 hpc hl

theorem get_upsert (data : Data V) (collection key k : String) (value : V) :
    (applyOps data [.upsert collection key value]).get collection k =
      if k = key then some value else data.get collection k := by
  simp only [applyOps, foldl_cons, foldl_nil, applyOp, Data.get, Finmap.lookup_insert,
    Option.bind_some]
  split_ifs with hk
  · rw [hk, Finmap.lookup_insert]
  · rw [Finmap.lookup_insert_of_ne _ hk]
    cases data.lookup collection with
    | none | some => rfl

/-- When all calls are of `update_impl`, the first half of one changes no record and does not
return one, and the second half writes what the function made of the record that was read. -/
theorem updates_next {key : ι → String} {f : ι → V → Except BichonError V} {l : CallStep ι}
    (hcalls : ∀ i, calls i = .update (key i) (f i)) (hread : Reading calls paused s)
    (h : s.next M calls paused l = some t) :
    (∃ i pc, l = .start i ∧ (∀ v, pc ≠ .returned (.ok v)) ∧
        t = ⟨s.data, Function.update s.pc i pc⟩) ∨
      ∃ i current updated, l = .finish i ∧ s.pc i = .writing current updated ∧
        f i current = .ok updated ∧
        t = ⟨applyOps s.data [.upsert M.collection (key i) updated],
          Function.update s.pc i (.returned (.ok (some updated)))⟩ := by
  cases l with
  | start i =>
    simp only [Calls.next] at h
    split at h <;> cases h
    left
    refine ⟨i, ((calls i).start M (paused i) s.data).2, rfl, ?_, ?_⟩
    all_goals
      rw [hcalls, Call.start, Call.admitted]
      repeat' split
      all_goals simp
  | finish i =>
    simp only [Calls.next] at h
    split at h <;> cases h
    next current updated hpc =>
      obtain ⟨-, key', f', hc, hf⟩ := hread i _ _ hpc
      rw [hcalls] at hc
      cases hc
      right
      refine ⟨i, current, updated, rfl, hpc, hf, ?_⟩
      simp [hcalls, Call.finish, Model.request, Request.ops]

/-- Every interleaving in which each `update_impl` finds the record it writes as it has
read it is one of the calls made one after the other. -/
theorem unchanged_updates_serializable {ls : List (CallStep ι)}
    (hsteps : Along (Calls.next M calls paused) (Unchanged M calls) ⟨data, fun _ => .idle⟩ ls)
    (hrun : runFrom (Calls.next M calls paused) ⟨data, fun _ => .idle⟩ ls = some s) :
    Serializable M calls paused data s := by
  have hstart : Serializable M calls paused data (⟨data, fun _ => .idle⟩ : Calls V ι) :=
    ⟨[], nodup_nil, by simp, rfl, by simp⟩
  have hreading : Reading calls paused (⟨data, fun _ => .idle⟩ : Calls V ι) :=
    fun _ _ _ h => by cases h
  exact (Along.invariant (fun hs hl h => serializable_next hs hl h) ⟨hstart, hreading⟩ hsteps
    hrun).1

/-- Two calls that count up the same record. -/
def sampleModel : Model := ⟨"c", fun _ => ""⟩

def sampleCalls : Bool → Call Nat := fun _ => .update "k" fun n => .ok (n + 1)

def sampleData : Data Nat := applyOps ∅ [.insert "c" "k" 1]

theorem unchanged_updates_serializable_sample :
    ∃ s, runFrom (Calls.next sampleModel sampleCalls fun _ => false) ⟨sampleData, fun _ => .idle⟩
        [.start true, .finish true, .start false, .finish false] = some s ∧
      s.data.get "c" "k" = some 3 ∧
      Serializable sampleModel sampleCalls (fun _ => false) sampleData s := by
  refine ⟨_, rfl, by decide +kernel, ?_⟩
  have hsteps : Along (Calls.next sampleModel sampleCalls fun _ => false)
      (Unchanged sampleModel sampleCalls) ⟨sampleData, fun _ => .idle⟩
      [.start true, .finish true, .start false, .finish false] := by decide +kernel
  exact unchanged_updates_serializable hsteps rfl

/-- Both have read the record before the first of them writes it, and one of the two
changes is lost. -/
theorem interleaved_updates_lose_change :
    ∃ s, runFrom (Calls.next sampleModel sampleCalls fun _ => false) ⟨sampleData, fun _ => .idle⟩
        [.start true, .start false, .finish true, .finish false] = some s ∧
      s.pc true = .returned (.ok (some 2)) ∧ s.pc false = .returned (.ok (some 2)) ∧
      s.data.get "c" "k" = some 2 ∧
      ¬ Serializable sampleModel sampleCalls (fun _ => false) sampleData s := by
  refine ⟨_, rfl, rfl, rfl, by decide +kernel, ?_⟩
  rintro ⟨order, hnodup, hmem, hdata, -⟩
  have hboth : true ∈ order ∧ false ∈ order := ⟨(hmem true).mpr ⟨_, rfl⟩, (hmem false).mpr ⟨_, rfl⟩⟩
  have horder : order = [true, false] ∨ order = [false, true] := by
    have hperm : order.Perm [true, false] := by
      refine (perm_ext_iff_of_nodup hnodup (by decide)).mpr fun i => ?_
      cases i with
      | true => simp [hboth.1]
      | false => simp [hboth.2]
    obtain ⟨i, j, rfl⟩ := length_eq_two.mp hperm.length_eq
    revert hboth
    cases i <;> cases j <;> simp
  rcases horder with rfl | rfl
  · exact absurd (congrArg (·.get "c" "k") hdata) (by decide +kernel)
  · exact absurd (congrArg (·.get "c" "k") hdata) (by decide +kernel)

end Bichon.Database
