import Bichon.Lib.Transition

/-!
# Programs that ask a gate before they write

A program reads a store, calls operations on it, and asks a gate for admission. The gate
counts the admissions that were not given back, and while it is paused it admits nobody.
What a program does next depends on what it has read and on the outcome of its calls.

`Solo` is one program next to whoever pauses and resumes the gate. If the gate is paused
only before the first admission of a program, or when it has none ahead, then the program
is refused without having changed the store, or it ends as it does with the gate open all
the time (`Solo.refused_or_as_alone`).

A `Discipline` says in which order a program makes its calls, as phases it goes through.
`Prog.Keeps` is composed along the program.
-/

namespace Gated

open Transition Option

/-- `κ` are the operations, `ω` their outcomes, `σ` the stores. -/
inductive Prog (κ ω σ α : Type) : Type
  | done (a : α)
  /-- the program looks at the store -/
  | ask (k : σ → Prog κ ω σ α)
  /-- one operation; the rest is given its outcome and the store before it -/
  | call (c : κ) (k : ω → σ → Prog κ ω σ α)
  /-- an admission, granted or refused -/
  | enter (k : Bool → Prog κ ω σ α)
  /-- an admission is given back -/
  | leave (k : Prog κ ω σ α)
  /-- the program looks whether the gate is paused -/
  | peek (k : Bool → Prog κ ω σ α)

structure Gate where
  paused : Bool
  inFlight : Nat
  deriving DecidableEq

/-- A program goes on, or its admission is refused. -/
inductive Move (ω : Type)
  | go (o : ω)
  | refuse

namespace Prog

variable {κ ω σ α β ε : Type}

def isDone : Prog κ ω σ α → Bool
  | done _ => true
  | _ => false

def bind : Prog κ ω σ α → (α → Prog κ ω σ β) → Prog κ ω σ β
  | done a, f => f a
  | ask k, f => ask fun s => (k s).bind f
  | call c k, f => call c fun o s => (k o s).bind f
  | enter k, f => enter fun b => (k b).bind f
  | leave k, f => leave (k.bind f)
  | peek k, f => peek fun b => (k b).bind f

instance : Monad (Prog κ ω σ) where
  pure := done
  bind := bind

/-- A body that runs with an admission, and gives it back whether it fails or not. -/
def admitted (refusal : ε) (body : ExceptT ε (Prog κ ω σ) α) : ExceptT ε (Prog κ ω σ) α :=
  enter fun b => if b then bind body fun r => leave (done r) else done (.error refusal)

/-- A part of the store, read at once. -/
def read (f : σ → α) : ExceptT ε (Prog κ ω σ) α := ask fun s => done (.ok (f s))

/-- The body for one element after the other, up to the first error. -/
def each (f : β → ExceptT ε (Prog κ ω σ) Unit) : List β → ExceptT ε (Prog κ ω σ) Unit
  | [] => pure ()
  | b :: bs => do
    f b
    each f bs

/-- A body, and after its error a handler whose own result is dropped. -/
def onError (body : ExceptT ε (Prog κ ω σ) α) (handler : ExceptT ε (Prog κ ω σ) β) :
    ExceptT ε (Prog κ ω σ) α :=
  bind body fun
    | .ok a => done (.ok a)
    | .error e => bind handler fun _ => done (.error e)

section

variable (exec : κ → ω → σ → Option σ)

/-- One step, or nothing where it is not enabled. -/
def step : Prog κ ω σ α → Move ω → Gate → σ → Option (Prog κ ω σ α × Gate × σ)
  | ask k, .go _, g, s => some (k s, g, s)
  | call c k, .go o, g, s => (exec c o s).map fun s' => (k o s, g, s')
  | enter k, .go _, g, s => if g.paused then none else some (k true, ⟨g.paused, g.inFlight + 1⟩, s)
  | enter k, .refuse, g, s => if g.paused then some (k false, g, s) else none
  | leave k, .go _, g, s => some (k, ⟨g.paused, g.inFlight - 1⟩, s)
  | peek k, .go _, g, s => some (k g.paused, g, s)
  | _, _, _, _ => none

/-- The program with the gate open all the time, every call with the outcome `o`. -/
def alone (o : ω) : Prog κ ω σ α → σ → Option (σ × α)
  | done a, s => some (s, a)
  | ask k, s => alone o (k s) s
  | call c k, s => (exec c o s).bind (alone o (k o s))
  | enter k, s => alone o (k true) s
  | leave k, s => alone o k s
  | peek k, s => alone o (k false) s

end

section

variable {exec : κ → ω → σ → Option σ} {g : Gate} {s : σ}

theorem alone_bind {o : ω} (p : Prog κ ω σ α) (f : α → Prog κ ω σ β) :
    (p.bind f).alone exec o s =
      (p.alone exec o s).bind fun r => (f r.2).alone exec o r.1 := by
  induction p generalizing s with
  | done a => rfl
  | ask k ih => exact ih s
  | call c k ih =>
    rw [bind, alone, alone, bind_assoc]
    exact congrArg _ (funext fun t => ih o s)
  | enter k ih => exact ih true
  | leave k ih => exact ih
  | peek k ih => exact ih false

/-- A program that ends without an error does so after each of its parts. -/
theorem alone_bindE {o : ω} {p : ExceptT ε (Prog κ ω σ) α} {f : α → ExceptT ε (Prog κ ω σ) β}
    {s' : σ} {b : β} (h : (p >>= f).run.alone exec o s = some (s', .ok b)) :
    ∃ t a, p.run.alone exec o s = some (t, .ok a) ∧
      (f a).run.alone exec o t = some (s', .ok b) := by
  change (p.run.bind (ExceptT.bindCont f)).alone exec o s = _ at h
  rw [alone_bind] at h
  obtain ⟨⟨t, r⟩, ht, hrest⟩ := bind_eq_some_iff.mp h
  cases r with
  | ok a => exact ⟨t, a, ht, hrest⟩
  | error e => cases hrest

theorem alone_read {o : ω} (f : σ → α) (g : α → ExceptT ε (Prog κ ω σ) β) :
    (read f >>= g).run.alone exec o s = (g (f s)).run.alone exec o s :=
  rfl

variable (exec) in
/-- Alone, the program keeps `I`, and it ends with an error only if `fails`. -/
def Lands (o : ω) (I : σ → Prop) (fails : Prop) (p : ExceptT ε (Prog κ ω σ) α) : Prop :=
  ∀ s s' r, I s → p.run.alone exec o s = some (s', r) → I s' ∧ ∀ e, r = .error e → fails

section

variable {o : ω} {I : σ → Prop} {fails : Prop}

theorem Lands.done {r : Except ε α} (h : ∀ e, r = .error e → fails) :
    Lands exec o I fails (ExceptT.mk (Prog.done r : Prog κ ω σ _)) := by
  rintro s s' r' hs ⟨⟩
  exact ⟨hs, h⟩

theorem Lands.read (f : σ → α) : Lands exec o I fails (Prog.read f : ExceptT ε (Prog κ ω σ) α) := by
  rintro s s' r hs ⟨⟩
  exact ⟨hs, nofun⟩

theorem Lands.call {c : κ} {k : ω → σ → Prog κ ω σ (Except ε α)}
    (hc : ∀ s s', I s → exec c o s = some s' → I s')
    (hk : ∀ s, Lands exec o I fails (ExceptT.mk (k o s))) :
    Lands exec o I fails (ExceptT.mk (Prog.call c k)) := by
  intro s s' r hs h
  obtain ⟨t, ht, hrest⟩ := bind_eq_some_iff.mp h
  exact hk s t s' r (hc s t hs ht) hrest

theorem Lands.bind {fails' : Prop} {p : ExceptT ε (Prog κ ω σ) α}
    {f : Except ε α → Prog κ ω σ (Except ε β)} (hp : Lands exec o I fails' p)
    (hf : ∀ r, (∀ e, r = .error e → fails') → Lands exec o I fails (ExceptT.mk (f r))) :
    Lands exec o I fails (ExceptT.mk (Prog.bind p f)) := by
  intro s s' r hs h
  change (Prog.bind p f).alone exec o s = _ at h
  rw [alone_bind] at h
  obtain ⟨⟨t, x⟩, ht, hrest⟩ := bind_eq_some_iff.mp h
  obtain ⟨htI, hx⟩ := hp s t x hs ht
  exact hf x hx t s' r htI hrest

theorem Lands.bindE {p : ExceptT ε (Prog κ ω σ) α} {f : α → ExceptT ε (Prog κ ω σ) β}
    (hp : Lands exec o I fails p) (hf : ∀ a, Lands exec o I fails (f a)) :
    Lands exec o I fails (p >>= f) :=
  Lands.bind hp fun
    | .ok a, _ => hf a
    | .error e, h => Lands.done fun _ _ => h e rfl

theorem Lands.admitted {e : ε} {body : ExceptT ε (Prog κ ω σ) α}
    (h : Lands exec o I fails body) : Lands exec o I fails (admitted e body) := by
  intro s s' r hs hrun
  change (Prog.bind body _).alone exec o s = _ at hrun
  rw [alone_bind] at hrun
  obtain ⟨⟨t, x⟩, ht, ⟨⟩⟩ := bind_eq_some_iff.mp hrun
  exact h s t x hs ht

theorem Lands.each {f : β → ExceptT ε (Prog κ ω σ) Unit} {bs : List β}
    (h : ∀ b, Lands exec o I fails (f b)) : Lands exec o I fails (each f bs) := by
  induction bs with
  | nil => exact Lands.done nofun
  | cons b bs ih => exact Lands.bindE (h b) fun _ => ih

theorem Lands.ite {c : Prop} [Decidable c] {p q : ExceptT ε (Prog κ ω σ) α}
    (hp : Lands exec o I fails p) (hq : Lands exec o I fails q) :
    Lands exec o I fails (if c then p else q) := by
  split
  · exact hp
  · exact hq

end

theorem step_refuse {p : Prog κ ω σ α} {r : Prog κ ω σ α × Gate × σ}
    (h : p.step exec .refuse g s = some r) :
    ∃ k, p = enter k ∧ g.paused = true ∧ r = (k false, g, s) := by
  cases p with
  | enter k =>
    rw [step] at h
    split at h <;> cases h
    exact ⟨k, rfl, ‹_›, rfl⟩
  | _ => cases h

theorem step_enter {k : Bool → Prog κ ω σ α} {o : ω} {r : Prog κ ω σ α × Gate × σ}
    (h : (enter k).step exec (.go o) g s = some r) :
    g.paused = false ∧ r = (k true, ⟨false, g.inFlight + 1⟩, s) := by
  rw [step] at h
  split at h <;> cases h
  next hg =>
    rw [Bool.not_eq_true] at hg
    exact ⟨hg, by rw [hg]⟩

end

/-- What the program may still ask the gate. -/
def Uses (mayEnter mayPeek : Prop) : Prog κ ω σ α → Prop
  | done _ => True
  | ask k => ∀ s, Uses mayEnter mayPeek (k s)
  | call _ k => ∀ o s, Uses mayEnter mayPeek (k o s)
  | enter k => mayEnter ∧ ∀ b, Uses mayEnter mayPeek (k b)
  | leave k => Uses mayEnter mayPeek k
  | peek k => mayPeek ∧ ∀ b, Uses mayEnter mayPeek (k b)

/-- The program ends without an error only after a call `P`. -/
def Passes (P : κ → ω → Prop) : Prog κ ω σ (Except ε α) → Prop
  | done r => ∃ e, r = .error e
  | ask k => ∀ s, Passes P (k s)
  | call c k => ∀ o s, P c o ∨ Passes P (k o s)
  | enter k => ∀ b, Passes P (k b)
  | leave k => Passes P k
  | peek k => ∀ b, Passes P (k b)

/-- The program only reads before its first admission, and returns `e` if that is
refused. -/
def RefusesWith (e : α) : Prog κ ω σ α → Prop
  | done _ => True
  | ask k => ∀ s, RefusesWith e (k s)
  | enter k => k false = done e
  | _ => False

section

variable {P : κ → ω → Prop}

theorem Passes.bind {γ : Type} {p : Prog κ ω σ (Except ε α)}
    {f : Except ε α → Prog κ ω σ (Except ε γ)} (hp : p.Passes P)
    (hf : ∀ e, (f (.error e)).Passes P) : (p.bind f).Passes P := by
  induction p with
  | done r =>
    obtain ⟨e, rfl⟩ := hp
    exact hf e
  | ask k ih => exact fun s => ih s (hp s)
  | call c k ih => exact fun o s => (hp o s).imp_right (ih o s)
  | enter k ih => exact fun b => ih b (hp b)
  | leave k ih => exact ih hp
  | peek k ih => exact fun b => ih b (hp b)

theorem Passes.bindE {p : ExceptT ε (Prog κ ω σ) α} {f : α → ExceptT ε (Prog κ ω σ) β}
    (hp : p.run.Passes P) : (p >>= f).run.Passes P :=
  Passes.bind hp fun e => ⟨e, rfl⟩

theorem Passes.read {f : σ → α} {g : α → ExceptT ε (Prog κ ω σ) β}
    (hg : ∀ s, (g (f s)).run.Passes P) : (read f >>= g).run.Passes P :=
  hg

theorem Passes.admitted {e : ε} {body : ExceptT ε (Prog κ ω σ) α} (h : body.run.Passes P) :
    (admitted e body).run.Passes P
  | true => Passes.bind h fun e => ⟨e, rfl⟩
  | false => ⟨e, rfl⟩

end

theorem RefusesWith.bindE {e : ε} {p : ExceptT ε (Prog κ ω σ) α}
    {f : α → ExceptT ε (Prog κ ω σ) β} (hp : p.run.RefusesWith (.error e))
    (hf : ∀ a, (f a).run.RefusesWith (.error e)) : (p >>= f).run.RefusesWith (.error e) := by
  change (p.run.bind (ExceptT.bindCont f)).RefusesWith (.error e)
  generalize p.run = q at hp
  induction q with
  | done r =>
    cases r with
    | ok a => exact hf a
    | error e' => trivial
  | ask k ih => exact fun s => ih s (hp s)
  | call | leave | peek => exact hp.elim
  | enter k ih =>
    have hk : k false = done (.error e) := hp
    change (k false).bind _ = _
    rw [hk]
    rfl

theorem RefusesWith.each {e : ε} {f : β → ExceptT ε (Prog κ ω σ) Unit} {bs : List β}
    (h : ∀ b, (f b).run.RefusesWith (.error e)) : (each f bs).run.RefusesWith (.error e) := by
  induction bs with
  | nil => trivial
  | cons b bs ih => exact RefusesWith.bindE (h b) fun _ => ih

end Prog

/-- The phases a program goes through: which operation is allowed in a phase, and the phase
after it. Every other step of the program leads to `rest`. -/
structure Discipline (κ ω σ τ : Type) where
  allowed : τ → κ → Prop
  after : τ → κ → ω → σ → τ
  rest : τ → τ
  rest_rest : ∀ t, rest (rest t) = rest t
  /-- what is known of the store whenever the program sees it -/
  sees : σ → Prop
  /-- whether the program may look at the gate -/
  mayPeek : Prop

namespace Prog

variable {κ ω σ α β ε τ : Type} (D : Discipline κ ω σ τ)

/-- From the phase `t` on, the program does what is allowed, and ends in a phase and with
a result in `post`. -/
def Follows (post : α → τ → Prop) : τ → Prog κ ω σ α → Prop
  | t, done a => post a t
  | t, ask k => ∀ s, D.sees s → Follows post (D.rest t) (k s)
  | t, call c k => D.allowed t c ∧ ∀ o s, D.sees s → Follows post (D.after t c o s) (k o s)
  | t, enter k => ∀ b, Follows post (D.rest t) (k b)
  | t, leave k => Follows post (D.rest t) k
  | t, peek k => D.mayPeek ∧ ∀ b, Follows post (D.rest t) (k b)

/-- The program does what is allowed and, at rest, ends in the phase it has started in. -/
def Keeps (t₀ : τ) (p : Prog κ ω σ α) : Prop :=
  ∀ t, D.rest t = t₀ → p.Follows D (fun _ t' => D.rest t' = t₀) t

section

variable {D} {t₀ : τ}

theorem Follows.uses {post : α → τ → Prop} {t : τ} {p : Prog κ ω σ α}
    (hsees : ∀ s, D.sees s) (h : p.Follows D post t) : p.Uses True D.mayPeek := by
  induction p generalizing t with
  | done a => trivial
  | ask k ih => exact fun s => ih s (h s (hsees s))
  | call c k ih => exact fun o s => ih o s (h.2 o s (hsees s))
  | enter k ih => exact ⟨trivial, fun b => ih b (h b)⟩
  | leave k ih => exact ih h
  | peek k ih => exact ⟨h.1, fun b => ih b (h.2 b)⟩

theorem Follows.bind {post : α → τ → Prop} {post' : β → τ → Prop} {t : τ} {p : Prog κ ω σ α}
    {f : α → Prog κ ω σ β} (hp : p.Follows D post t)
    (hf : ∀ a t', post a t' → (f a).Follows D post' t') : (p.bind f).Follows D post' t := by
  induction p generalizing t with
  | done a => exact hf a t hp
  | ask k ih => exact fun s hs => ih s (hp s hs)
  | call c k ih => exact ⟨hp.1, fun o s hs => ih o s (hp.2 o s hs)⟩
  | enter k ih => exact fun b => ih b (hp b)
  | leave k ih => exact ih hp
  | peek k ih => exact ⟨hp.1, fun b => ih b (hp.2 b)⟩

theorem Follows.imp {post post' : α → τ → Prop} {t : τ} {p : Prog κ ω σ α}
    (hp : p.Follows D post t) (h : ∀ a t', post a t' → post' a t') : p.Follows D post' t := by
  induction p generalizing t with
  | done a => exact h a t hp
  | ask k ih => exact fun s hs => ih s (hp s hs)
  | call c k ih => exact ⟨hp.1, fun o s hs => ih o s (hp.2 o s hs)⟩
  | enter k ih => exact fun b => ih b (hp b)
  | leave k ih => exact ih hp
  | peek k ih => exact ⟨hp.1, fun b => ih b (hp.2 b)⟩

/-- More may be known of the store. -/
theorem Follows.restrict {sees : σ → Prop} {post : α → τ → Prop} {t : τ} {p : Prog κ ω σ α}
    (hsees : ∀ s, sees s → D.sees s) (hp : p.Follows D post t) :
    p.Follows { D with sees } post t := by
  induction p generalizing t with
  | done a => exact hp
  | ask k ih => exact fun s hs => ih s (hp s (hsees s hs))
  | call c k ih => exact ⟨hp.1, fun o s hs => ih o s (hp.2 o s (hsees s hs))⟩
  | enter k ih => exact fun b => ih b (hp b)
  | leave k ih => exact ih hp
  | peek k ih => exact ⟨hp.1, fun b => ih b (hp.2 b)⟩

theorem Keeps.done (a : α) : (done a : Prog κ ω σ α).Keeps D t₀ := fun _ ht => ht

theorem Keeps.bind {p : Prog κ ω σ α} {f : α → Prog κ ω σ β} (hp : p.Keeps D t₀)
    (hf : ∀ a, (f a).Keeps D t₀) : (p.bind f).Keeps D t₀ :=
  fun t ht => (hp t ht).bind fun a t' ht' => hf a t' ht'

theorem Keeps.ask {k : σ → Prog κ ω σ α} (hk : ∀ s, D.sees s → (k s).Keeps D t₀) :
    (ask k).Keeps D t₀ :=
  fun _ ht s hs => hk s hs _ (by rw [D.rest_rest, ht])

theorem Keeps.leave {k : Prog κ ω σ α} (hk : k.Keeps D t₀) : (leave k).Keeps D t₀ :=
  fun _ ht => hk _ (by rw [D.rest_rest, ht])

theorem Keeps.enter {k : Bool → Prog κ ω σ α} (hk : ∀ b, (k b).Keeps D t₀) :
    (enter k).Keeps D t₀ :=
  fun _ ht b => hk b _ (by rw [D.rest_rest, ht])

theorem Keeps.peek {k : Bool → Prog κ ω σ α} (hpeek : D.mayPeek) (hk : ∀ b, (k b).Keeps D t₀) :
    (peek k).Keeps D t₀ :=
  fun _ ht => ⟨hpeek, fun b => hk b _ (by rw [D.rest_rest, ht])⟩

theorem Keeps.call {c : κ} {k : ω → σ → Prog κ ω σ α}
    (hc : ∀ t, D.rest t = t₀ → D.allowed t c ∧ ∀ o s, D.rest (D.after t c o s) = t₀)
    (hk : ∀ o s, (k o s).Keeps D t₀) : (call c k).Keeps D t₀ :=
  fun t ht => ⟨(hc t ht).1, fun o s _ => hk o s _ ((hc t ht).2 o s)⟩

theorem Keeps.bindE {p : ExceptT ε (Prog κ ω σ) α} {f : α → ExceptT ε (Prog κ ω σ) β}
    (hp : p.run.Keeps D t₀) (hf : ∀ a, (f a).run.Keeps D t₀) : (p >>= f).run.Keeps D t₀ :=
  Keeps.bind hp fun
    | .ok a => hf a
    | .error _ => Keeps.done _

theorem Keeps.read (f : σ → α) : (read f : ExceptT ε (Prog κ ω σ) α).run.Keeps D t₀ :=
  Keeps.ask fun _ _ => Keeps.done _

theorem Keeps.admitted {e : ε} {body : ExceptT ε (Prog κ ω σ) α}
    (h : body.run.Keeps D t₀) : (admitted e body).run.Keeps D t₀ :=
  Keeps.enter fun
    | true => Keeps.bind h fun _ => Keeps.leave (Keeps.done _)
    | false => Keeps.done _

theorem Keeps.onError {body : ExceptT ε (Prog κ ω σ) α} {handler : ExceptT ε (Prog κ ω σ) β}
    (hbody : body.run.Keeps D t₀) (hhandler : handler.run.Keeps D t₀) :
    (onError body handler).run.Keeps D t₀ :=
  Keeps.bind hbody fun
    | .ok _ => Keeps.done _
    | .error _ => Keeps.bind hhandler fun _ => Keeps.done _

theorem Keeps.each {f : β → ExceptT ε (Prog κ ω σ) Unit} {bs : List β}
    (h : ∀ b ∈ bs, (f b).run.Keeps D t₀) : (each f bs).run.Keeps D t₀ := by
  induction bs with
  | nil => exact Keeps.done _
  | cons b bs ih =>
    rw [List.forall_mem_cons] at h
    exact Keeps.bindE h.1 fun _ => ih h.2

theorem Keeps.ite {c : Prop} [Decidable c] {p q : ExceptT ε (Prog κ ω σ) α}
    (hp : p.run.Keeps D t₀) (hq : q.run.Keeps D t₀) : (if c then p else q).run.Keeps D t₀ := by
  split
  · exact hp
  · exact hq

end

/-- The program keeps the discipline, and without an error it returns what meets `Q`. -/
def Gives (t₀ : τ) (Q : α → Prop) (p : ExceptT ε (Prog κ ω σ) α) : Prop :=
  ∀ t, D.rest t = t₀ → p.run.Follows D (fun r t' => D.rest t' = t₀ ∧ ∀ a, r = .ok a → Q a) t

section

variable {D} {t₀ : τ} {Q : α → Prop}

theorem Gives.bindE {p : ExceptT ε (Prog κ ω σ) α} {f : α → ExceptT ε (Prog κ ω σ) β}
    {Q' : β → Prop} (hp : Gives D t₀ Q p) (hf : ∀ a, Q a → Gives D t₀ Q' (f a)) :
    Gives D t₀ Q' (p >>= f) :=
  fun t ht => (hp t ht).bind fun r t' ⟨ht', hr⟩ => by
    cases r with
    | ok a => exact hf a (hr a rfl) t' ht'
    | error e => exact ⟨ht', nofun⟩

theorem Gives.bindK {p : ExceptT ε (Prog κ ω σ) α} {f : α → ExceptT ε (Prog κ ω σ) β}
    (hp : Gives D t₀ Q p) (hf : ∀ a, Q a → (f a).run.Keeps D t₀) : (p >>= f).run.Keeps D t₀ :=
  fun t ht => (hp t ht).bind fun r t' ⟨ht', hr⟩ => by
    cases r with
    | ok a => exact hf a (hr a rfl) t' ht'
    | error e => exact ht'

theorem Gives.pure {a : α} (h : Q a) : Gives D t₀ Q (Pure.pure a : ExceptT ε (Prog κ ω σ) α) :=
  fun _ ht => ⟨ht, fun _ ha => Except.ok.inj ha ▸ h⟩

theorem Gives.throw (e : ε) : Gives D t₀ Q (throw e : ExceptT ε (Prog κ ω σ) α) :=
  fun _ ht => ⟨ht, nofun⟩

theorem Gives.read (f : σ → α) : Gives D t₀ (fun a => ∃ s, D.sees s ∧ a = f s)
    (Prog.read f : ExceptT ε (Prog κ ω σ) α) :=
  fun t ht s hs => ⟨(D.rest_rest t).trans ht, fun _ ha => ⟨s, hs, (Except.ok.inj ha).symm⟩⟩

theorem Gives.each {Q : β → Prop} {f : β → ExceptT ε (Prog κ ω σ) Unit} {bs : List β}
    (h : ∀ b, Gives D t₀ (fun _ => Q b) (f b)) :
    Gives D t₀ (fun _ => ∀ b ∈ bs, Q b) (Prog.each f bs) := by
  induction bs with
  | nil => exact Gives.pure nofun
  | cons b bs ih =>
    refine Gives.bindE (h b) fun _ hb t ht => ?_
    refine (ih t ht).imp fun r t' ⟨ht', hr⟩ => ⟨ht', fun a ha => ?_⟩
    exact List.forall_mem_cons.mpr ⟨hb, hr a ha⟩

end

end Prog

/-- One program and the gate. `admitted` and `refused` say whether an admission of the
program was granted or refused so far. -/
structure Solo (κ ω σ α : Type) where
  gate : Gate
  store : σ
  prog : Prog κ ω σ α
  admitted : Bool
  refused : Bool

inductive SoloStep
  | run
  | refuse
  | pause
  | resume
  deriving DecidableEq

namespace Solo

variable {κ ω σ α : Type} (exec : κ → ω → σ → Option σ) (o : ω)

def start (gate : Gate) (store : σ) (prog : Prog κ ω σ α) : Solo κ ω σ α :=
  ⟨gate, store, prog, false, false⟩

/-- The next step of the program is an admission. -/
def AtEnter (s : Solo κ ω σ α) : Bool :=
  match s.prog with
  | .enter _ => true
  | _ => false

def next (s : Solo κ ω σ α) : SoloStep → Option (Solo κ ω σ α)
  | .run => (s.prog.step exec (.go o) s.gate s.store).map fun (p, g, t) =>
    ⟨g, t, p, s.admitted || s.AtEnter, s.refused⟩
  | .refuse => (s.prog.step exec .refuse s.gate s.store).map fun (p, g, t) =>
    ⟨g, t, p, s.admitted, true⟩
  | .pause => some { s with gate := ⟨true, s.gate.inFlight⟩ }
  | .resume => some { s with gate := ⟨false, s.gate.inFlight⟩ }

/-- The gate is paused only before the first admission of the program or when it has none
ahead. -/
def PausedOutside (s : Solo κ ω σ α) : SoloStep → Prop
  | .pause => s.admitted = false ∨ s.prog.Uses False True
  | _ => True

variable {exec o} in
theorem along_of_not_pause {s : Solo κ ω σ α} {ls : List SoloStep} (h : .pause ∉ ls) :
    Along (next exec o) PausedOutside s ls := by
  induction ls generalizing s with
  | nil => trivial
  | cons l ls ih =>
    rw [List.mem_cons, not_or] at h
    refine ⟨?_, fun s' _ => ih h.2⟩
    cases l with
    | pause => exact (h.1 rfl).elim
    | run | refuse | resume => trivial

/-- Where a run of the program `p` from the store `s₀` can be: not admitted yet, or
refused, and the store unchanged; or admitted, and what is left does what `p` does alone. -/
inductive OnCourse (e : α) (p : Prog κ ω σ α) (s₀ : σ) : Solo κ ω σ α → Prop
  | before (g : Gate) (q : Prog κ ω σ α) (huses : q.Uses True False)
      (hrefuses : q.RefusesWith e) (halone : q.alone exec o s₀ = p.alone exec o s₀) :
      OnCourse e p s₀ ⟨g, s₀, q, false, false⟩
  | turnedAway (g : Gate) : OnCourse e p s₀ ⟨g, s₀, .done e, false, true⟩
  | inside (g : Gate) (s : σ) (q : Prog κ ω σ α) (huses : q.Uses True False)
      (hpaused : g.paused = true → q.Uses False True)
      (halone : q.alone exec o s = p.alone exec o s₀) :
      OnCourse e p s₀ ⟨g, s, q, true, false⟩

variable {exec o} {e : α} {p : Prog κ ω σ α} {s₀ : σ}

theorem OnCourse.next {s s' : Solo κ ω σ α} {l : SoloStep} (h : OnCourse exec o e p s₀ s)
    (hl : s.PausedOutside l) (hnext : s.next exec o l = some s') :
    OnCourse exec o e p s₀ s' := by
  cases h with
  | before g q huses hrefuses halone =>
    cases l with
    | pause | resume =>
      cases hnext
      exact .before _ q huses hrefuses halone
    | run =>
      cases q with
      | done a => cases hnext
      | ask k =>
        cases hnext
        exact .before g _ (huses s₀) (hrefuses s₀) halone
      | call | leave | peek => exact hrefuses.elim
      | enter k =>
        obtain ⟨_, hstep, rfl⟩ := map_eq_some_iff.mp hnext
        obtain ⟨-, rfl⟩ := Prog.step_enter hstep
        exact .inside _ s₀ _ (huses.2 true) nofun halone
    | refuse =>
      obtain ⟨_, hstep, rfl⟩ := map_eq_some_iff.mp hnext
      obtain ⟨k, rfl, -, rfl⟩ := Prog.step_refuse hstep
      have hk : k false = .done e := hrefuses
      rw [hk]
      exact .turnedAway g
  | turnedAway g =>
    cases l with
    | pause | resume =>
      cases hnext
      exact .turnedAway _
    | run | refuse => cases hnext
  | inside g s q huses hpaused halone =>
    cases l with
    | resume =>
      cases hnext
      exact .inside _ s q huses nofun halone
    | pause =>
      cases hnext
      rcases hl with hl | hl
      · cases hl
      · exact .inside _ s q huses (fun _ => hl) halone
    | run =>
      cases q with
      | done a => cases hnext
      | ask k =>
        cases hnext
        exact .inside g s _ (huses s) (fun h => hpaused h s) halone
      | call c k =>
        obtain ⟨_, hstep, rfl⟩ := map_eq_some_iff.mp hnext
        obtain ⟨t, hexec, rfl⟩ := map_eq_some_iff.mp hstep
        refine .inside g t _ (huses o s) (fun h => hpaused h o s) ?_
        rw [← halone, Prog.alone, hexec, bind_some]
      | leave k =>
        cases hnext
        exact .inside _ s _ huses hpaused halone
      | peek k => exact huses.1.elim
      | enter k =>
        obtain ⟨_, hstep, rfl⟩ := map_eq_some_iff.mp hnext
        obtain ⟨-, rfl⟩ := Prog.step_enter hstep
        exact .inside _ s _ (huses.2 true) nofun halone
    | refuse =>
      obtain ⟨_, hstep, rfl⟩ := map_eq_some_iff.mp hnext
      obtain ⟨k, rfl, hg, -⟩ := Prog.step_refuse hstep
      exact (hpaused hg).1.elim

/-- A program that refuses with `e`, next to a gate that is not paused between its first
and its last admission: it is only refused when it was not admitted before, and when it
ends, it was refused and has changed nothing, or it ends as it does alone. -/
theorem refused_or_as_alone (huses : p.Uses True False)
    (hrefuses : p.RefusesWith e) {gate : Gate} {ls : List SoloStep} {t : Solo κ ω σ α}
    (hguard : Along (next exec o) PausedOutside (start gate s₀ p) ls)
    (hrun : runFrom (next exec o) (start gate s₀ p) ls = some t) :
    (t.refused = true → t.admitted = false) ∧
      ∀ a, t.prog = .done a → (a = e ∧ t.store = s₀) ∨ p.alone exec o s₀ = some (t.store, a) := by
  have hstart : OnCourse exec o e p s₀ (start gate s₀ p) := .before gate p huses hrefuses rfl
  have hcourse := hguard.invariant (fun hs hl hn => OnCourse.next hs hl hn) hstart hrun
  cases hcourse with
  | before g q _ _ halone =>
    refine ⟨nofun, fun a ha => ?_⟩
    cases ha
    exact .inr halone.symm
  | turnedAway g =>
    refine ⟨fun _ => rfl, fun a ha => ?_⟩
    cases ha
    exact .inl ⟨rfl, rfl⟩
  | inside g s q _ _ halone =>
    refine ⟨nofun, fun a ha => ?_⟩
    cases ha
    exact .inr halone.symm

end Solo

end Gated
