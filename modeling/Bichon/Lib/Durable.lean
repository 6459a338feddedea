/-!
# Programs whose durable steps can be interrupted

`Prog σ ε α` is a stateful computation that may fail, as in `ExceptT ε (StateM σ)`,
and that in addition lists the states it passed through: one for every durable
step, in order. A crash of the program is a crash in its starting state or in one
of the states it passed; `crashPoint m s n` is the state after the first `n`
durable steps.

`Runs m s Q C` is the total-correctness judgement with a crash condition: started
in `s` the program returns, the result and the final state satisfy `Q`, and every
state on the way satisfies `C`. The rules follow the shape of the program, so a
proof about a program never unfolds `>>=`. `Keeps I J K m` is the judgement about
invariants: it makes no promise about the result.
-/

namespace Durable

structure Outcome (σ ε α : Type) where
  result : Except ε α
  state : σ
  passed : List σ

/-- The error a computation ended with, if it failed. -/
def Outcome.error? {σ ε α : Type} (o : Outcome σ ε α) : Option ε :=
  match o.result with
  | .error e => some e
  | .ok _ => none

def Prog (σ ε α : Type) := σ → Outcome σ ε α

namespace Prog

open List

section

variable {σ ε α β : Type}

instance : Monad (Prog σ ε) where
  pure a := fun s => ⟨.ok a, s, []⟩
  bind m f := fun s =>
    match (m s).result with
    | .error e => ⟨.error e, (m s).state, (m s).passed⟩
    | .ok a =>
      ⟨(f a (m s).state).result, (f a (m s).state).state,
        (m s).passed ++ (f a (m s).state).passed⟩

def state : Prog σ ε σ := fun s => ⟨.ok s, s, []⟩

/-- A change of memory only: nothing of it survives a crash on its own. -/
def modify (f : σ → σ) : Prog σ ε Unit := fun s => ⟨.ok (), f s, []⟩

def durable (f : σ → σ) : Prog σ ε Unit := fun s => ⟨.ok (), f s, [f s]⟩

def fail (e : ε) : Prog σ ε α := fun s => ⟨.error e, s, []⟩

/-- A pure computation that may fail. -/
def lift : Except ε α → Prog σ ε α
  | .ok a => pure a
  | .error e => fail e

section

variable (m : Prog σ ε α)

/-- Run the program and hand its error to the caller as a value. -/
def attempt : Prog σ ε (Except ε α) := fun s => ⟨.ok (m s).result, (m s).state, (m s).passed⟩

def ReadOnly : Prop := ∀ s, (m s).state = s ∧ (m s).passed = []

/-- The state in which a crash after the first `n` durable steps leaves things;
a number past the last step means the crash comes right after it. -/
def crashPoint (s : σ) (n : Nat) : σ := ((m s).passed.take n).getLastD s

/-- The state after the program was run: at its end, or at a crash if there is one. -/
def settle (crash : Option Nat) (s : σ) : σ :=
  match crash with
  | none => (m s).state
  | some n => m.crashPoint s n

end

theorem pure_apply (a : α) (s : σ) : (pure a : Prog σ ε α) s = ⟨.ok a, s, []⟩ := rfl

variable {m : Prog σ ε α} {f : α → Prog σ ε β} {s : σ} {a : α}

theorem bind_of_ok (h : (m s).result = .ok a) :
    (m >>= f) s = ⟨(f a (m s).state).result, (f a (m s).state).state,
      (m s).passed ++ (f a (m s).state).passed⟩ := by
  change (match (m s).result with
    | .error e => _
    | .ok a => _) = _
  rw [h]

theorem bind_of_error {e : ε} (h : (m s).result = .error e) :
    (m >>= f) s = ⟨.error e, (m s).state, (m s).passed⟩ := by
  change (match (m s).result with
    | .error e => _
    | .ok a => _) = _
  rw [h]

/-- A sequence that succeeds consists of two parts that succeed. -/
theorem of_bind_ok {b : β} (h : ((m >>= f) s).result = .ok b) :
    ∃ a, (m s).result = .ok a ∧ (f a (m s).state).result = .ok b ∧
      ((m >>= f) s).state = (f a (m s).state).state := by
  cases hr : (m s).result with
  | error e =>
    rw [bind_of_error hr] at h
    cases h
  | ok a =>
    rw [bind_of_ok hr] at h ⊢
    exact ⟨a, rfl, h, rfl⟩

@[simp] theorem state_bind (f : σ → Prog σ ε β) (s : σ) : (state >>= f) s = f s s := rfl

@[simp] theorem modify_bind (g : σ → σ) (f : Unit → Prog σ ε β) (s : σ) :
    (modify g >>= f) s = f () (g s) := rfl

@[simp] theorem lift_ok_bind (a : α) (f : α → Prog σ ε β) (s : σ) :
    (lift (.ok a) >>= f) s = f a s := rfl

@[simp] theorem lift_error_bind (e : ε) (f : α → Prog σ ε β) (s : σ) :
    (lift (.error e) >>= f) s = fail e s := rfl

theorem crashPoint_mem (m : Prog σ ε α) (s : σ) (n : Nat) :
    m.crashPoint s n ∈ s :: (m s).passed := by
  unfold crashPoint
  cases h : (m s).passed.take n with
  | nil => simp
  | cons t ts =>
    have hmem : (t :: ts).getLastD s ∈ (m s).passed.take n := by
      rw [h, getLastD_cons]
      exact mem_of_getLast? (by
        simp [getLastD_eq_getLast?, getLast?_cons])
    exact mem_cons_of_mem _ (mem_of_mem_take hmem)

theorem bind_passed_ne_nil (h : (m s).passed ≠ []) : ((m >>= f) s).passed ≠ [] := by
  cases hr : (m s).result with
  | error e => rwa [bind_of_error hr]
  | ok a => simp [bind_of_ok hr, h]

theorem settle_congr {m' : Prog σ ε α} (h : m s = m' s)
    (crash : Option Nat) : m.settle crash s = m'.settle crash s := by
  cases crash with
  | none => rw [settle, settle, h]
  | some n => rw [settle, settle, crashPoint, crashPoint, h]

theorem settle_eq_self (h : (m s).state = s ∧ (m s).passed = [])
    (crash : Option Nat) : m.settle crash s = s := by
  cases crash with
  | none => exact h.1
  | some n => simp [settle, crashPoint, h.2]

/-- A crash in the first part of a sequence. -/
theorem crashPoint_bind_of_le {n : Nat}
    (h : n ≤ (m s).passed.length) : (m >>= f).crashPoint s n = m.crashPoint s n := by
  unfold crashPoint
  cases hr : (m s).result with
  | error e => rw [bind_of_error hr]
  | ok a =>
    rw [bind_of_ok hr]
    rw [take_append_of_le_length h]

/-- A crash in the second part of a sequence. -/
theorem crashPoint_bind_of_lt {n : Nat} (hr : (m s).result = .ok a)
    (hne : (f a (m s).state).passed ≠ []) (h : (m s).passed.length < n) :
    (m >>= f).crashPoint s n ∈ (f a (m s).state).passed := by
  unfold crashPoint
  rw [bind_of_ok hr]
  obtain ⟨k, rfl⟩ := Nat.exists_eq_add_of_lt h
  rw [Nat.add_assoc, take_length_add_append]
  cases hq : (f a (m s).state).passed with
  | nil => exact absurd hq hne
  | cons t ts =>
    rw [take_succ_cons, getLastD_eq_getLast?, getLast?_append,
      getLast?_cons]
    refine mem_of_mem_take (i := k + 1) ?_
    exact mem_of_getLast? (getLast?_cons ..)

instance : LawfulMonad (Prog σ ε) := LawfulMonad.mk' _ (fun m => by
    funext s
    change (m >>= fun a => pure (id a)) s = m s
    cases hr : (m s).result with
    | error e =>
      rw [bind_of_error hr, ← hr]
    | ok a =>
      rw [bind_of_ok hr]
      simp [pure_apply, ← hr])
  (fun _ _ => rfl)
  (fun m f g => by
    funext s
    cases hr : (m s).result with
    | error e =>
      have hfail : ((m >>= f) s).result = .error e := by rw [bind_of_error hr]
      rw [bind_of_error hfail, bind_of_error hr, bind_of_error hr]
    | ok a =>
      rw [bind_of_ok hr]
      have hstate : ((m >>= f) s).state = (f a (m s).state).state := by rw [bind_of_ok hr]
      have hpassed : ((m >>= f) s).passed = (m s).passed ++ (f a (m s).state).passed := by
        rw [bind_of_ok hr]
      cases hf : (f a (m s).state).result with
      | error e =>
        have hfail : ((m >>= f) s).result = .error e := by
          rw [bind_of_ok hr]
          exact hf
        rw [bind_of_error hfail, bind_of_error hf, hstate, hpassed]
      | ok b =>
        have hok : ((m >>= f) s).result = .ok b := by
          rw [bind_of_ok hr]
          exact hf
        rw [bind_of_ok hok, bind_of_ok hf, hstate, hpassed, List.append_assoc])

namespace ReadOnly

theorem pure (a : α) : ReadOnly (Pure.pure a : Prog σ ε α) := fun _ => ⟨rfl, rfl⟩

theorem state : ReadOnly (state : Prog σ ε σ) := fun _ => ⟨rfl, rfl⟩

theorem fail (e : ε) : ReadOnly (fail e : Prog σ ε α) := fun _ => ⟨rfl, rfl⟩

theorem lift (r : Except ε α) : ReadOnly (lift r : Prog σ ε α) := by
  cases r with
  | ok a => exact ReadOnly.pure a
  | error e => exact ReadOnly.fail e

variable {m : Prog σ ε α}

theorem attempt (h : ReadOnly m) : ReadOnly (attempt m) := h

variable {f : α → Prog σ ε β}

theorem bind (hm : ReadOnly m) (hf : ∀ a, ReadOnly (f a)) : ReadOnly (m >>= f) := by
  intro s
  obtain ⟨hstate, hpassed⟩ := hm s
  cases hr : (m s).result with
  | error e =>
    rw [bind_of_error hr]
    exact ⟨hstate, hpassed⟩
  | ok a =>
    rw [bind_of_ok hr, hstate, hpassed]
    exact hf a s

theorem foldlM {f : β → α → Prog σ ε β} (h : ∀ b a, ReadOnly (f b a)) (as : List α) (b : β) :
    ReadOnly (as.foldlM f b) := by
  induction as generalizing b with
  | nil => exact ReadOnly.pure b
  | cons a as ih =>
    exact (h b a).bind ih

/-- What follows a program that changes nothing starts where that one started. -/
theorem bind_apply (h : ReadOnly m) {s : σ} {a : α}
    (hr : (m s).result = .ok a) : (m >>= f) s = f a s := by
  rw [bind_of_ok hr, (h s).1, (h s).2, nil_append]

/-- A program that changes nothing, and then one of its continuations, or nothing. -/
theorem bind_cases (h : ReadOnly m) (f : α → Prog σ ε β) (s : σ) :
    (((m >>= f) s).state = s ∧ ((m >>= f) s).passed = []) ∨
      ∃ a, (m s).result = .ok a ∧ (m >>= f) s = f a s := by
  cases hr : (m s).result with
  | error e =>
    rw [bind_of_error hr]
    exact .inl (h s)
  | ok a => exact .inr ⟨a, rfl, h.bind_apply hr⟩

theorem bind_result (h : ReadOnly m) {s : σ} {b : β} :
    ((m >>= f) s).result = .ok b ↔
      ∃ a, (m s).result = .ok a ∧ (f a s).result = .ok b := by
  cases hr : (m s).result with
  | error e => simp [bind_of_error hr]
  | ok a => simp [h.bind_apply hr]

end ReadOnly

@[simp] theorem pure_result {b : α} :
    ((pure a : Prog σ ε α) s).result = .ok b ↔ a = b := by
  simp [pure_apply]

@[simp] theorem fail_result {e : ε} : ((fail e : Prog σ ε α) s).result = .error e := rfl

@[simp] theorem lift_result {r : Except ε α} : ((lift r : Prog σ ε α) s).result = r := by
  cases r <;> rfl

end

end Prog

section

variable {σ ε α β : Type}

/-- Started in `s` the program returns, the result and the final state satisfy
`Q`, and every state it passed satisfies `C`. -/
def Runs (m : Prog σ ε α) (s : σ) (Q : α → σ → Prop) (C : σ → Prop) : Prop :=
  ∃ a, (m s).result = .ok a ∧ Q a (m s).state ∧ ∀ t ∈ (m s).passed, C t

namespace Runs

variable {s : σ} {Q : α → σ → Prop} {C : σ → Prop}

theorem pure {a : α} (h : Q a s) :
    Runs (Pure.pure a : Prog σ ε α) s Q C :=
  ⟨a, rfl, h, by simp [Prog.pure_apply]⟩

theorem state {Q : σ → σ → Prop} (h : Q s s) :
    Runs (Prog.state : Prog σ ε σ) s Q C :=
  ⟨s, rfl, h, by simp [Prog.state]⟩

theorem modify {f : σ → σ} {Q : Unit → σ → Prop}
    (h : Q () (f s)) : Runs (Prog.modify f : Prog σ ε Unit) s Q C :=
  ⟨(), rfl, h, by simp [Prog.modify]⟩

theorem durable {f : σ → σ} {Q : Unit → σ → Prop} (h : Q () (f s)) (hc : C (f s)) :
    Runs (Prog.durable f : Prog σ ε Unit) s Q C :=
  ⟨(), rfl, h, by simpa [Prog.durable] using hc⟩

variable {m : Prog σ ε α}

theorem bind {f : α → Prog σ ε β}
    {Q : β → σ → Prop}
    (h : Runs m s (fun a t => Runs (f a) t Q C) C) : Runs (m >>= f) s Q C := by
  obtain ⟨a, ha, ⟨b, hb, hQ, hf⟩, hm⟩ := h
  rw [Runs, Prog.bind_of_ok ha]
  refine ⟨b, hb, hQ, ?_⟩
  intro t ht
  rcases List.mem_append.mp ht with ht | ht
  · exact hm t ht
  · exact hf t ht

theorem mono {Q' : α → σ → Prop} {C' : σ → Prop}
    (h : Runs m s Q C) (hQ : ∀ a t, Q a t → Q' a t) (hC : ∀ t, C t → C' t) :
    Runs m s Q' C' := by
  obtain ⟨a, ha, hq, hc⟩ := h
  exact ⟨a, ha, hQ a _ hq, fun t ht => hC t (hc t ht)⟩

theorem weaken {C' : σ → Prop} (h : Runs m s Q C) (hC : ∀ t, C t → C' t) : Runs m s Q C' :=
  h.mono (fun _ _ hq => hq) hC

/-- The sequencing rule with the judgement about the first part given first. -/
theorem seq {f : α → Prog σ ε β} {P : α → σ → Prop} {Q : β → σ → Prop} (hm : Runs m s P C)
    (hf : ∀ a t, P a t → Runs (f a) t Q C) :
    Runs (m >>= f) s Q C :=
  bind (hm.mono hf fun _ ht => ht)

end Runs

/-- Started in `s` the program fails, the state it leaves satisfies `Q`, and every
state it passed satisfies `C`. -/
def Fails (m : Prog σ ε α) (s : σ) (Q C : σ → Prop) : Prop :=
  (∃ e, (m s).result = .error e) ∧ Q (m s).state ∧ ∀ t ∈ (m s).passed, C t

namespace Fails

variable {s : σ} {C Q : σ → Prop}

theorem fail {e : ε} (h : Q s) :
    Fails (Prog.fail e : Prog σ ε α) s Q C :=
  ⟨⟨e, rfl⟩, h, by simp [Prog.fail]⟩

variable {m : Prog σ ε α}

/-- The first part fails. -/
theorem bind {f : α → Prog σ ε β} (h : Fails m s Q C) : Fails (m >>= f) s Q C := by
  obtain ⟨⟨e, he⟩, hq, hc⟩ := h
  rw [Fails, Prog.bind_of_error he]
  exact ⟨⟨e, rfl⟩, hq, hc⟩

/-- The first part succeeds and the second one fails. -/
theorem seq {f : α → Prog σ ε β} {P : α → σ → Prop}
    (hm : Runs m s P C) (hf : ∀ a t, P a t → Fails (f a) t Q C) :
    Fails (m >>= f) s Q C := by
  obtain ⟨a, ha, hp, hc⟩ := hm
  obtain ⟨herr, hq, hc'⟩ := hf a _ hp
  rw [Fails, Prog.bind_of_ok ha]
  refine ⟨herr, hq, ?_⟩
  intro t ht
  rcases List.mem_append.mp ht with ht | ht
  · exact hc t ht
  · exact hc' t ht

end Fails

/-- When the program returns, its result and the state have `Q`; when it fails, the
state has `J`; and every state it passed has `K`. -/
def Yields (m : Prog σ ε α) (s : σ) (Q : α → σ → Prop) (J K : σ → Prop) : Prop :=
  (∀ a, (m s).result = .ok a → Q a (m s).state) ∧
    (∀ e, (m s).result = .error e → J (m s).state) ∧ ∀ t ∈ (m s).passed, K t

namespace Yields

variable {J K : σ → Prop} {s : σ}

theorem pure {a : α} {Q : α → σ → Prop} (h : Q a s) :
    Yields (Pure.pure a : Prog σ ε α) s Q J K :=
  ⟨fun _ ha => by cases ha; exact h, fun _ he => (by cases he), fun _ ht => by cases ht⟩

theorem fail {e : ε} {Q : α → σ → Prop} (h : J s) :
    Yields (Prog.fail e : Prog σ ε α) s Q J K :=
  ⟨fun _ ha => (by cases ha), fun _ _ => h, fun _ ht => by cases ht⟩

theorem durable {f : σ → σ} {Q : Unit → σ → Prop} (h : Q () (f s)) (hk : K (f s)) :
    Yields (Prog.durable f : Prog σ ε Unit) s Q J K :=
  ⟨fun _ _ => h, fun _ he => (by cases he),
    fun t ht => by rw [List.mem_singleton.mp ht]; exact hk⟩

variable {Q : β → σ → Prop} {m : Prog σ ε α} {f : α → Prog σ ε β}

theorem bind {P : α → σ → Prop} (hm : Yields m s P J K) (hf : ∀ a t, P a t → Yields (f a) t Q J K) :
    Yields (m >>= f) s Q J K := by
  obtain ⟨hok, herror, hpassed⟩ := hm
  cases hr : (m s).result with
  | error e =>
    rw [Yields, Prog.bind_of_error hr]
    exact ⟨fun _ h => (by cases h), fun _ _ => herror e hr, hpassed⟩
  | ok a =>
    obtain ⟨hok', herror', hpassed'⟩ := hf a _ (hok a hr)
    rw [Yields, Prog.bind_of_ok hr]
    refine ⟨hok', herror', fun t ht => ?_⟩
    rcases List.mem_append.mp ht with ht | ht
    · exact hpassed t ht
    · exact hpassed' t ht

theorem state_bind {f : σ → Prog σ ε β} (h : Yields (f s) s Q J K) :
    Yields (Prog.state >>= f) s Q J K := h

theorem modify_bind {g : σ → σ} {f : Unit → Prog σ ε β}
    (h : Yields (f ()) (g s) Q J K) : Yields (Prog.modify g >>= f) s Q J K := h

theorem lift_bind {r : Except ε α} (hok : ∀ a, r = .ok a → Yields (f a) s Q J K)
    (h : ∀ e, r = .error e → J s) : Yields (Prog.lift r >>= f) s Q J K := by
  cases r with
  | ok a => exact hok a rfl
  | error e => exact Yields.fail (h e rfl)

theorem durable_bind {g : σ → σ} {f : Unit → Prog σ ε β} (hk : K (g s))
    (h : Yields (f ()) (g s) Q J K) : Yields (Prog.durable g >>= f) s Q J K :=
  Yields.bind (P := fun _ t => t = g s) (Yields.durable rfl hk) fun _ _ ht => ht ▸ h

theorem readOnly_bind (hm : m.ReadOnly) (h : ∀ e, (m s).result = .error e → J s)
    (hf : ∀ a, (m s).result = .ok a → Yields (f a) s Q J K) : Yields (m >>= f) s Q J K := by
  cases hr : (m s).result with
  | error e =>
    rw [Yields, Prog.bind_of_error hr, (hm s).1, (hm s).2]
    exact ⟨fun _ ha => (by cases ha), fun _ _ => h e hr, fun _ ht => by cases ht⟩
  | ok a =>
    rw [Yields, hm.bind_apply hr]
    exact hf a hr

/-- A loop: the invariant speaks of the elements that were handled so far. -/
theorem foldlM {f : β → α → Prog σ ε β} {I : List α → β → σ → Prop} {as : List α} {b : β}
    (hs : I [] b s)
    (hstep : ∀ done a rest b t, as = done ++ a :: rest → I done b t →
      Yields (f b a) t (I (done ++ [a])) J K) :
    Yields (as.foldlM f b) s (I as) J K := by
  suffices h : ∀ done rest b t, as = done ++ rest → I done b t →
      Yields (rest.foldlM f b) t (I as) J K from h [] as b s rfl hs
  intro done rest
  induction rest generalizing done with
  | nil =>
    intro b t has ht
    rw [has, List.append_nil]
    exact Yields.pure ht
  | cons a rest ih =>
    intro b t has ht
    exact Yields.bind (hstep done a rest b t has ht) fun b' t' ht' =>
      ih (done ++ [a]) b' t' (by simpa using has) ht'

theorem mono {Q Q' : α → σ → Prop} {J' K' : σ → Prop} (h : Yields m s Q J K)
    (hQ : ∀ a t, Q a t → Q' a t) (hJ : ∀ t, J t → J' t) (hK : ∀ t, K t → K' t) :
    Yields m s Q' J' K' :=
  ⟨fun a ha => hQ a _ (h.1 a ha), fun e he => hJ _ (h.2.1 e he), fun t ht => hK t (h.2.2 t ht)⟩

theorem runs {Q : α → σ → Prop} (h : Yields m s Q J K) (hJ : ∀ t, ¬ J t) : Runs m s Q K := by
  cases hr : (m s).result with
  | ok a => exact ⟨a, hr, h.1 a hr, h.2.2⟩
  | error e => exact absurd (h.2.1 e hr) (hJ _)

/-- The state at the end, when both ways to end lead to the same property. -/
theorem final {Q : α → σ → Prop} (h : Yields m s Q J K)
    (hQ : ∀ a t, Q a t → J t) : J (m s).state := by
  cases hr : (m s).result with
  | ok a => exact hQ a _ (h.1 a hr)
  | error e => exact h.2.1 e hr

theorem attempt {R : σ → Prop} (h : Yields m s (fun _ => R) R K) :
    Yields m.attempt s (fun _ => R) J K :=
  ⟨fun _ _ => h.final fun _ _ ht => ht, fun _ he => (by cases he), h.2.2⟩

/-- Every crash point satisfies the crash condition, provided the starting state does. -/
theorem crashPoint {Q : α → σ → Prop} (h : Yields m s Q J K) (hs : K s)
    (n : Nat) : K (m.crashPoint s n) := by
  rcases List.mem_cons.mp (m.crashPoint_mem s n) with heq | hmem
  · rw [heq]
    exact hs
  · exact h.2.2 _ hmem

/-- What holds before, at the end, at a failure and at every step holds after. -/
theorem settle {I : σ → Prop} (h : Yields m s (fun _ => I) I I) (hs : I s)
    (crash : Option Nat) : I (m.settle crash s) := by
  cases crash with
  | none => exact h.final fun _ _ ht => ht
  | some n => exact h.crashPoint hs n

end Yields

/-- From a state with `I` the program leads to a state with `I` when it returns and to
one with `J` when it fails, and every state it passed has `K`. -/
def Keeps (I J K : σ → Prop) (m : Prog σ ε α) : Prop :=
  ∀ s, I s →
    (∀ a, (m s).result = .ok a → I (m s).state) ∧
      (∀ e, (m s).result = .error e → J (m s).state) ∧ ∀ t ∈ (m s).passed, K t

namespace Keeps

variable {I J K : σ → Prop}

section

variable {m : Prog σ ε α}

theorem yields (h : Keeps I J K m) {s : σ} (hs : I s) : Yields m s (fun _ => I) J K := h s hs

theorem of_yields (h : ∀ s, I s → Yields m s (fun _ => I) J K) : Keeps I J K m := h

/-- Whatever the program returns, when failing is harmless. -/
theorem final (h : Keeps I I K m) {s : σ} (hs : I s) : I (m s).state :=
  (h.yields hs).final fun _ _ ht => ht

theorem bind {f : α → Prog σ ε β} (hm : Keeps I J K m)
    (hf : ∀ a, Keeps I J K (f a)) : Keeps I J K (m >>= f) :=
  of_yields fun _ hs => (hm.yields hs).bind fun a _ ht => (hf a).yields ht

end

theorem pure (a : α) : Keeps I J K (Pure.pure a : Prog σ ε α) := 
  of_yields fun _ hs => Yields.pure hs

theorem state : Keeps I J K (Prog.state : Prog σ ε σ) :=
  fun _ hs => ⟨fun _ _ => hs, fun _ h => (by cases h), fun _ ht => by cases ht⟩

theorem fail (h : ∀ {s}, I s → J s) (e : ε) : Keeps I J K (Prog.fail e : Prog σ ε α) :=
  of_yields fun _ hs => Yields.fail (h hs)

theorem modify {f : σ → σ} (h : ∀ {s}, I s → I (f s)) :
    Keeps I J K (Prog.modify f : Prog σ ε Unit) :=
  fun _ hs => ⟨fun _ _ => h hs, fun _ h => (by cases h), fun _ ht => by cases ht⟩

theorem durable {f : σ → σ} (h : ∀ {s}, I s → I (f s) ∧ K (f s)) :
    Keeps I J K (Prog.durable f : Prog σ ε Unit) :=
  of_yields fun _ hs => Yields.durable (h hs).1 (h hs).2

theorem lift (h : ∀ {s}, I s → J s) (r : Except ε α) : Keeps I J K (Prog.lift r : Prog σ ε α) := by
  cases r with
  | ok a => exact Keeps.pure a
  | error e => exact Keeps.fail h e

end Keeps

variable {m : Prog σ ε α} {s : σ} {Q : α → σ → Prop} {C J K : σ → Prop}

theorem Runs.yields (h : Runs m s Q C) : Yields m s Q J C := by
  obtain ⟨a, hr, hQ, hC⟩ := h
  refine ⟨fun a' ha => ?_, fun e he => ?_, hC⟩
  · cases hr.symm.trans ha
    exact hQ
  · cases hr.symm.trans he

theorem Runs.crashPoint (h : Runs m s Q C) (hs : C s) (n : Nat) : C (m.crashPoint s n) :=
  (h.yields (J := fun _ => False)).crashPoint hs n

end

end Durable
