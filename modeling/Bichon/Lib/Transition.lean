/-!
# Runs of a transition function under a condition

A system is given by `next s l`, the state after the step `l` in the state `s`, or
nothing when the step is not enabled. `runFrom` follows a list of steps, and
`Along guard` says of a run that each of its steps meets `guard` in the state it is
taken in. A property that every such step keeps holds at the end of every such run.
-/

namespace Transition

variable {σ ℓ : Type} (next : σ → ℓ → Option σ)

def runFrom : σ → List ℓ → Option σ
  | s, [] => some s
  | s, l :: ls => (next s l).bind fun s' => runFrom s' ls

/-- Every step of the run meets the condition where it is taken. -/
def Along (guard : σ → ℓ → Prop) : σ → List ℓ → Prop
  | _, [] => True
  | s, l :: ls => guard s l ∧ ∀ s', next s l = some s' → Along guard s' ls

instance Along.decidable (guard : σ → ℓ → Prop) [∀ s l, Decidable (guard s l)] :
    (s : σ) → (ls : List ℓ) → Decidable (Along next guard s ls)
  | _, [] => isTrue trivial
  | s, l :: ls =>
    match hnext : next s l with
    | none => decidable_of_iff (guard s l) (by simp [Along, hnext])
    | some s' =>
      have := Along.decidable guard s' ls
      decidable_of_iff (guard s l ∧ Along next guard s' ls) (by simp [Along, hnext])

variable {next} {guard : σ → ℓ → Prop}

variable {l : ℓ} {ls : List ℓ} {s : σ}

theorem Along.cons {s' : σ} (hl : guard s l) (hnext : next s l = some s')
    (h : Along next guard s' ls) : Along next guard s (l :: ls) :=
  ⟨hl, fun _ ht => Option.some.inj (hnext.symm.trans ht) ▸ h⟩

/-- What every step that meets the condition keeps holds after every such run. -/
theorem Along.invariant {I : σ → Prop}
    (hstep : ∀ {s l s'}, I s → guard s l → next s l = some s' → I s') {t : σ}
    (hs : I s) (hguard : Along next guard s ls) (hrun : runFrom next s ls = some t) : I t := by
  induction ls generalizing s with
  | nil =>
    cases hrun
    exact hs
  | cons l ls ih =>
    obtain ⟨hl, hrest⟩ := hguard
    obtain ⟨s', hnext, hrun'⟩ := Option.bind_eq_some_iff.mp hrun
    exact ih (hstep hs hl hnext) (hrest s' hnext) hrun'

/-- The condition of a run gives another one in the states with an invariant. -/
theorem Along.imp {I : σ → Prop} {guard' : σ → ℓ → Prop}
    (hstep : ∀ {s l s'}, I s → next s l = some s' → I s')
    (himp : ∀ {s l}, I s → guard s l → guard' s l) (hs : I s) (h : Along next guard s ls) :
    Along next guard' s ls := by
  induction ls generalizing s with
  | nil => trivial
  | cons l ls ih => exact ⟨himp hs h.1, fun s' hs' => ih (hstep hs hs') (h.2 s' hs')⟩

theorem Along.of_forall (h : ∀ l ∈ ls, ∀ s, guard s l) : Along next guard s ls := by
  induction ls generalizing s with
  | nil => trivial
  | cons l ls ih =>
    rw [List.forall_mem_cons] at h
    exact ⟨h.1 s, fun _ _ => ih h.2⟩

/-- A condition on the steps alone goes into the condition of the run. -/
theorem Along.and_forall {P : ℓ → Prop} (h : Along next guard s ls)
    (hls : ∀ l ∈ ls, P l) : Along next (fun s l => guard s l ∧ P l) s ls := by
  induction ls generalizing s with
  | nil => trivial
  | cons l ls ih =>
    rw [List.forall_mem_cons] at hls
    exact ⟨⟨h.1, hls.1⟩, fun s' hs' => ih (h.2 s' hs') hls.2⟩

theorem runFrom_append (s : σ) (ls ms : List ℓ) :
    runFrom next s (ls ++ ms) = (runFrom next s ls).bind fun t => runFrom next t ms := by
  induction ls generalizing s with
  | nil => rfl
  | cons l ls ih =>
    rw [List.cons_append, runFrom, runFrom, Option.bind_assoc]
    simp only [ih]

theorem runFrom_concat {t : σ} (h : runFrom next s ls = some t) :
    runFrom next s (ls ++ [l]) = next t l := by
  rw [runFrom_append, h]
  exact Option.bind_fun_some (next t l)

/-- One more step, in the state the run before it leads to. -/
theorem Along.concat {t : σ} (h : Along next guard s ls) (hrun : runFrom next s ls = some t)
    (hl : guard t l) : Along next guard s (ls ++ [l]) := by
  induction ls generalizing s with
  | nil =>
    cases hrun
    exact ⟨hl, fun _ _ => trivial⟩
  | cons l' ls ih =>
    refine ⟨h.1, fun s' hs' => ih (h.2 s' hs') ?_⟩
    rwa [runFrom, hs'] at hrun

/-- Used to read a result off an evaluated run. -/
theorem eq_ok_of_mem_toOption {ε α : Type} {r : Except ε α} {a : α} (h : a ∈ r.toOption) :
    r = .ok a := by
  cases r with
  | error e => cases h
  | ok b =>
    cases h
    rfl

end Transition
