import Mathlib.Logic.Function.Basic
import Bichon.Lib.Gated

/-!
# Many programs on one store

A pool is any number of programs, started in slots, whose steps are interleaved with each
other, with the gate and with crashes. `Stepped` says what a step can do. What every
operation keeps holds of the store after every run (`System.store_invariant`), and
programs that follow a discipline follow it together (`System.obeyed_next`). A tracked pool
knows which programs are under way.
-/

namespace Gated

open Transition Function

/-- What the programs of a pool are made of: the operations, the programs that can be
started, and what a crash leaves of the store. -/
structure System (κ ω σ α π : Type) where
  exec : κ → ω → σ → Option σ
  program : π → Prog κ ω σ α
  restart : σ → σ
  /-- the result in a slot that was not used yet -/
  idle : α

/-- The gate, the store, and the rest of the program in every slot. -/
structure Pool (ι κ ω σ α : Type) where
  gate : Gate
  store : σ
  tasks : ι → Prog κ ω σ α

inductive PoolStep (ι ω π : Type)
  /-- a program is started in a slot whose program has ended -/
  | spawn (i : ι) (p : π)
  | run (i : ι) (o : ω)
  | refuse (i : ι)
  | pause
  | resume
  | crash

def PoolStep.starts? {ι ω π : Type} : PoolStep ι ω π → Option π
  | .spawn _ p => some p
  | _ => none

namespace System

variable {ι κ ω σ α π : Type} [DecidableEq ι] (S : System κ ω σ α π)

def move (s : Pool ι κ ω σ α) (i : ι) (m : Move ω) : Option (Pool ι κ ω σ α) :=
  ((s.tasks i).step S.exec m s.gate s.store).map fun (p, g, t) =>
    ⟨g, t, Function.update s.tasks i p⟩

def next (s : Pool ι κ ω σ α) : PoolStep ι ω π → Option (Pool ι κ ω σ α)
  | .spawn i p =>
    match s.tasks i with
    | .done _ => some { s with tasks := Function.update s.tasks i (S.program p) }
    | _ => none
  | .run i o => S.move s i (.go o)
  | .refuse i => S.move s i .refuse
  | .pause => some { s with gate := ⟨true, s.gate.inFlight⟩ }
  | .resume => some { s with gate := ⟨false, s.gate.inFlight⟩ }
  | .crash => some ⟨⟨false, 0⟩, S.restart s.store, fun _ => .done S.idle⟩

/-- All slots are free. -/
def start (store : σ) : Pool ι κ ω σ α := ⟨⟨false, 0⟩, store, fun _ => .done S.idle⟩

/-- Every operation is called in a state that meets the condition. -/
def CallsWhen (G : κ → ω → σ → Prop) (s : Pool ι κ ω σ α) : PoolStep ι ω π → Prop
  | .run i o => ∀ c k, s.tasks i = .call c k → G c o s.store
  | _ => True

/-- What a step can do. -/
inductive Stepped (s : Pool ι κ ω σ α) : PoolStep ι ω π → Pool ι κ ω σ α → Prop
  | spawn (i : ι) (p : π) {a : α} (hi : s.tasks i = .done a) :
      Stepped s (.spawn i p) { s with tasks := Function.update s.tasks i (S.program p) }
  | call (i : ι) (o : ω) {c : κ} {k : ω → σ → Prog κ ω σ α} {t : σ} (hi : s.tasks i = .call c k)
      (hexec : S.exec c o s.store = some t) :
      Stepped s (.run i o) ⟨s.gate, t, Function.update s.tasks i (k o s.store)⟩
  | ask (i : ι) (o : ω) {k : σ → Prog κ ω σ α} (hi : s.tasks i = .ask k) :
      Stepped s (.run i o) { s with tasks := Function.update s.tasks i (k s.store) }
  | enter (i : ι) (o : ω) {k : Bool → Prog κ ω σ α} (hi : s.tasks i = .enter k) :
      Stepped s (.run i o)
        ⟨⟨false, s.gate.inFlight + 1⟩, s.store, Function.update s.tasks i (k true)⟩
  | leave (i : ι) (o : ω) {k : Prog κ ω σ α} (hi : s.tasks i = .leave k) :
      Stepped s (.run i o)
        ⟨⟨s.gate.paused, s.gate.inFlight - 1⟩, s.store, Function.update s.tasks i k⟩
  | peek (i : ι) (o : ω) {k : Bool → Prog κ ω σ α} (hi : s.tasks i = .peek k) :
      Stepped s (.run i o) { s with tasks := Function.update s.tasks i (k s.gate.paused) }
  | refuse (i : ι) {k : Bool → Prog κ ω σ α} (hi : s.tasks i = .enter k) :
      Stepped s (.refuse i) { s with tasks := Function.update s.tasks i (k false) }
  | pause : Stepped s .pause { s with gate := ⟨true, s.gate.inFlight⟩ }
  | resume : Stepped s .resume { s with gate := ⟨false, s.gate.inFlight⟩ }
  | crash : Stepped s .crash ⟨⟨false, 0⟩, S.restart s.store, fun _ => .done S.idle⟩

variable {S} {s s' : Pool ι κ ω σ α} {l : PoolStep ι ω π}

theorem stepped_of_next (h : S.next s l = some s') : S.Stepped s l s' := by
  cases l with
  | spawn i p =>
    rw [next] at h
    split at h <;> cases h
    exact .spawn i p ‹_›
  | pause => cases h; exact .pause
  | resume => cases h; exact .resume
  | crash => cases h; exact .crash
  | refuse i =>
    obtain ⟨_, hstep, rfl⟩ := Option.map_eq_some_iff.mp h
    obtain ⟨k, hi, -, rfl⟩ := Prog.step_refuse hstep
    exact .refuse i hi
  | run i o =>
    obtain ⟨_, hstep, rfl⟩ := Option.map_eq_some_iff.mp h
    cases hi : s.tasks i with
    | done a => rw [hi] at hstep; cases hstep
    | ask k => rw [hi] at hstep; cases hstep; exact .ask i o hi
    | leave k => rw [hi] at hstep; cases hstep; exact .leave i o hi
    | peek k => rw [hi] at hstep; cases hstep; exact .peek i o hi
    | call c k =>
      rw [hi] at hstep
      obtain ⟨t, hexec, rfl⟩ := Option.map_eq_some_iff.mp hstep
      exact .call i o hi hexec
    | enter k =>
      rw [hi] at hstep
      obtain ⟨-, rfl⟩ := Prog.step_enter hstep
      exact .enter i o hi

/-- With the gate open, a program whose steps nobody interrupts does what it does alone. -/
theorem alone_next {i : ι} {o : ω} (hgate : s.gate.paused = false)
    (hnext : S.next s (.run i o) = some s') :
    s'.gate.paused = false ∧ (∀ j, j ≠ i → s'.tasks j = s.tasks j) ∧
      (s'.tasks i).alone S.exec o s'.store = (s.tasks i).alone S.exec o s.store := by
  cases stepped_of_next hnext with
  | call _ _ hi hexec =>
    exact ⟨hgate, fun j hj => update_of_ne hj .., by
      simp only [update_self, hi, Prog.alone, hexec, Option.bind_some]⟩
  | enter _ _ hi =>
    exact ⟨rfl, fun j hj => update_of_ne hj .., by simp only [update_self, hi, Prog.alone]⟩
  | ask _ _ hi | leave _ _ hi | peek _ _ hi =>
    exact ⟨hgate, fun j hj => update_of_ne hj .., by simp only [update_self, hi, Prog.alone, hgate]⟩

/-- What every operation keeps where it meets the condition, and every restart, is kept by
every step. -/
theorem store_next {G : κ → ω → σ → Prop} {I : σ → Prop}
    (hexec : ∀ {c o t t'}, I t → G c o t → S.exec c o t = some t' → I t')
    (hrestart : ∀ {t}, I t → I (S.restart t)) (hs : I s.store) (hl : CallsWhen G s l)
    (hnext : S.next s l = some s') : I s'.store := by
  cases stepped_of_next hnext with
  | call i o hi hcall => exact hexec hs (hl _ _ hi) hcall
  | crash => exact hrestart hs
  | spawn | ask | enter | leave | peek | refuse | pause | resume => exact hs

/-- The same of every run whose operations meet the condition. -/
theorem store_invariant {G : κ → ω → σ → Prop} {I : σ → Prop}
    (hexec : ∀ {c o t t'}, I t → G c o t → S.exec c o t = some t' → I t')
    (hrestart : ∀ {t}, I t → I (S.restart t)) {ls : List (PoolStep ι ω π)}
    (hs : I s.store) (hguard : Along S.next (CallsWhen G) s ls)
    (hrun : runFrom S.next s ls = some s') : I s'.store :=
  hguard.invariant (I := fun p => I p.store) (store_next hexec hrestart) hs hrun

/-- The program in the slot is not given up: no crash, and no other program is started
there. -/
def Awaits (i : ι) : PoolStep ι ω π → Prop
  | .crash => False
  | .spawn j _ => j ≠ i
  | _ => True

instance Awaits.decidable (i : ι) : DecidablePred (Awaits i : PoolStep ι ω π → Prop)
  | .crash => isFalse id
  | .spawn j _ => inferInstanceAs (Decidable (j ≠ i))
  | .run _ _ | .refuse _ | .pause | .resume => isTrue trivial

/-- A program that has a call `P` ahead has it ahead after a step, or the step was such a
call. -/
theorem passes_next {ε γ : Type} {S : System κ ω σ (Except ε γ) π}
    {s s' : Pool ι κ ω σ (Except ε γ)} {P : κ → ω → Prop} {i : ι} (hs : (s.tasks i).Passes P)
    (hl : Awaits i l) (hnext : S.next s l = some s') :
    (s'.tasks i).Passes P ∨ ∃ c o, P c o ∧ S.exec c o s.store = some s'.store := by
  have hupdate : ∀ {j p}, (j = i → p.Passes P) → (update s.tasks j p i).Passes P := by
    intro j p hp
    by_cases hj : j = i
    · subst hj
      rw [update_self]
      exact hp rfl
    · rwa [update_of_ne (Ne.symm hj)]
  cases stepped_of_next hnext with
  | spawn j p hj => exact .inl (hupdate fun h => (hl h).elim)
  | crash => exact hl.elim
  | pause | resume => exact .inl hs
  | call j o hj hexec =>
    rename_i c k t
    by_cases hP : P c o
    · exact .inr ⟨c, o, hP, hexec⟩
    · refine .inl (hupdate fun h => ?_)
      subst h
      rw [hj] at hs
      exact (hs o s.store).resolve_left hP
  | ask j o hj | enter j o hj | peek j o hj | refuse j hj =>
    refine .inl (hupdate fun h => ?_)
    subst h
    rw [hj] at hs
    exact hs _
  | leave j o hj =>
    refine .inl (hupdate fun h => ?_)
    subst h
    rwa [hj] at hs

section

variable {τ ν : Type} (D : ν → Discipline κ ω σ τ) (t₀ : τ)

/-- The program in every slot follows the discipline of the label of the slot, from its phase
on. -/
def Obeyed (s : Pool ι κ ω σ α) (label : ι → ν) (phase : ι → τ) : Prop :=
  ∀ i, (s.tasks i).Follows (D (label i)) (fun _ t => (D (label i)).rest t = t₀) (phase i)

/-- A slot has the label of the program that was started last in it. -/
def relabel (note : π → ν) (label : ι → ν) : PoolStep ι ω π → ι → ν
  | .spawn i p => Function.update label i (note p)
  | _ => label

variable (S) in
/-- What a step does to the phases. -/
inductive Moved (s : Pool ι κ ω σ α) (label : ι → ν) (phase : ι → τ) :
    PoolStep ι ω π → Pool ι κ ω σ α → (ι → τ) → Prop
  | spawn (i : ι) (p : π) {a : α} (hi : s.tasks i = .done a) :
      Moved s label phase (.spawn i p)
        { s with tasks := Function.update s.tasks i (S.program p) } (Function.update phase i t₀)
  | call (i : ι) (o : ω) {c : κ} {k : ω → σ → Prog κ ω σ α} {t : σ} (hi : s.tasks i = .call c k)
      (hallowed : (D (label i)).allowed (phase i) c) (hexec : S.exec c o s.store = some t) :
      Moved s label phase (.run i o) ⟨s.gate, t, Function.update s.tasks i (k o s.store)⟩
        (Function.update phase i ((D (label i)).after (phase i) c o s.store))
  | rest (i : ι) (g : Gate) (p : Prog κ ω σ α) {l : PoolStep ι ω π}
      (hi : (s.tasks i).isDone = false) (hl : l = .refuse i ∨ ∃ o, l = .run i o) :
      Moved s label phase l ⟨g, s.store, Function.update s.tasks i p⟩
        (Function.update phase i ((D (label i)).rest (phase i)))
  | gate (g : Gate) {l : PoolStep ι ω π} (hl : l = .pause ∨ l = .resume) :
      Moved s label phase l ⟨g, s.store, s.tasks⟩ phase
  | crash : Moved s label phase .crash
      ⟨⟨false, 0⟩, S.restart s.store, fun _ => .done S.idle⟩ fun _ => t₀

variable {D t₀} {label : ι → ν} {phase : ι → τ}

theorem Obeyed.update (h : Obeyed D t₀ s label phase) {i : ι} {p : Prog κ ω σ α} {v : ν} {t : τ}
    (g : Gate) (store : σ)
    (hp : p.Follows (D v) (fun _ t => (D v).rest t = t₀) t) :
    Obeyed D t₀ ⟨g, store, Function.update s.tasks i p⟩ (Function.update label i v)
      (Function.update phase i t) := by
  intro j
  by_cases hj : j = i
  · subst hj
    simpa only [update_self] using hp
  · simpa only [update_of_ne hj] using h j

theorem Obeyed.update_task (h : Obeyed D t₀ s label phase) {i : ι} {p : Prog κ ω σ α} {t : τ}
    (g : Gate) (store : σ)
    (hp : p.Follows (D (label i)) (fun _ t => (D (label i)).rest t = t₀) t) :
    Obeyed D t₀ ⟨g, store, Function.update s.tasks i p⟩ label (Function.update phase i t) := by
  simpa only [update_eq_self] using h.update (i := i) g store hp

/-- Programs that keep a discipline keep it together, whatever their order. -/
theorem obeyed_next {note : π → ν}
    (hprogram : ∀ i c, l = .spawn i c → (S.program c).Keeps (D (note c)) t₀)
    (hrest : ∀ v, (D v).rest t₀ = t₀) (hsees : ∀ i, (D (label i)).sees s.store)
    (h : Obeyed D t₀ s label phase) (hnext : S.next s l = some s') :
    ∃ phase', Obeyed D t₀ s' (relabel note label l) phase' ∧
      Moved S D t₀ s label phase l s' phase' := by
  cases stepped_of_next hnext with
  | spawn i p hi =>
    exact ⟨_, h.update _ _ (hprogram i p rfl _ (hrest _)), .spawn i p hi⟩
  | call i o hi hexec =>
    have hi' := h i
    rw [hi] at hi'
    exact ⟨_, h.update_task _ _ (hi'.2 o s.store (hsees i)), .call i o hi hi'.1 hexec⟩
  | ask i o hi =>
    have hi' := h i
    rw [hi] at hi'
    exact ⟨_, h.update_task _ _ (hi' s.store (hsees i)),
      .rest i _ _ (by rw [hi]; rfl) (.inr ⟨o, rfl⟩)⟩
  | leave i o hi =>
    have hi' := h i
    rw [hi] at hi'
    exact ⟨_, h.update_task _ _ hi', .rest i _ _ (by rw [hi]; rfl) (.inr ⟨o, rfl⟩)⟩
  | enter i o hi =>
    have hi' := h i
    rw [hi] at hi'
    exact ⟨_, h.update_task _ _ (hi' true), .rest i _ _ (by rw [hi]; rfl) (.inr ⟨o, rfl⟩)⟩
  | peek i o hi =>
    have hi' := h i
    rw [hi] at hi'
    exact ⟨_, h.update_task _ _ (hi'.2 _), .rest i _ _ (by rw [hi]; rfl) (.inr ⟨o, rfl⟩)⟩
  | refuse i hi =>
    have hi' := h i
    rw [hi] at hi'
    exact ⟨_, h.update_task _ _ (hi' false), .rest i _ _ (by rw [hi]; rfl) (.inl rfl)⟩
  | pause => exact ⟨phase, h, .gate _ (.inl rfl)⟩
  | resume => exact ⟨phase, h, .gate _ (.inr rfl)⟩
  | crash => exact ⟨_, fun _ => hrest _, .crash⟩

end

/-! ## The calls that are under way -/

variable (ι κ ω σ α π) in
/-- A pool with the programs that were started last in its slots. -/
structure Tracked where
  pool : Pool ι κ ω σ α
  calls : ι → Option π

variable (S) in
def nextTracked (t : Tracked ι κ ω σ α π) (l : PoolStep ι ω π) : Option (Tracked ι κ ω σ α π) :=
  (S.next t.pool l).map fun p => ⟨p, relabel some t.calls l⟩

variable (S) in
def startTracked (store : σ) : Tracked ι κ ω σ α π := ⟨S.start store, fun _ => none⟩

/-- The program that was started in the slot and has not ended. -/
def Tracked.underway (t : Tracked ι κ ω σ α π) (i : ι) : Option π :=
  if (t.pool.tasks i).isDone then none else t.calls i

section

variable {t t' : Tracked ι κ ω σ α π} {i : ι} {c : π}

omit [DecidableEq ι] in
theorem mem_underway : c ∈ t.underway i ↔ (t.pool.tasks i).isDone = false ∧ c ∈ t.calls i := by
  simp [Tracked.underway]

theorem runFrom_pool {ls : List (PoolStep ι ω π)} (h : runFrom S.nextTracked t ls = some t') :
    runFrom S.next t.pool ls = some t'.pool := by
  induction ls generalizing t with
  | nil =>
    cases h
    rfl
  | cons l ls ih =>
    obtain ⟨u, hu, hrun⟩ := Option.bind_eq_some_iff.mp h
    obtain ⟨p, hp, rfl⟩ := Option.map_eq_some_iff.mp hu
    rw [runFrom, hp]
    exact ih hrun

theorem mem_underway_next (h : S.nextTracked t l = some t') (hc : c ∈ t'.underway i) :
    c ∈ t.underway i ∨ l = .spawn i c := by
  obtain ⟨p, hp, rfl⟩ := Option.map_eq_some_iff.mp h
  rw [mem_underway] at hc ⊢
  have hupdate : ∀ {j q}, (t.pool.tasks j).isDone = false →
      (update t.pool.tasks j q i).isDone = false → (t.pool.tasks i).isDone = false := by
    intro j q hj hq
    by_cases hji : j = i
    · exact hji ▸ hj
    · rwa [update_of_ne (Ne.symm hji)] at hq
  cases stepped_of_next hp with
  | spawn j q hj =>
    by_cases hji : j = i
    · subst hji
      refine .inr (congrArg _ ?_)
      simpa [relabel] using hc.2
    · exact .inl (by simpa [relabel, update_of_ne (Ne.symm hji)] using hc)
  | call j o hj | ask j o hj | enter j o hj | leave j o hj | peek j o hj | refuse j hj =>
    exact .inl ⟨hupdate (by rw [hj]; rfl) hc.1, hc.2⟩
  | pause | resume => exact .inl hc
  | crash => cases hc.1

end

end System

end Gated
