import Bichon.Lib.Gated

/-!
# The calls of a program and their outcomes

`Reaches` relates a program, a list of calls with their outcomes, and what is left of the
program after them. What the program reads between two calls, and whether it is admitted,
is left open: a transcript is one of the program next to anything else that runs at the
same time, and a program that is given up half-way has a transcript too.

A transcript of a program that has ended is put together from those of its parts
(`Reaches.of_bind`), so `Ends`, what holds of all of them, is proved along the program.
-/

namespace Gated

namespace Prog

variable {κ ω σ α β ε : Type}

def attempt (body : ExceptT ε (Prog κ ω σ) α) : ExceptT ε (Prog κ ω σ) (Except ε α) :=
  bind body fun r => done (.ok r)

/-- `let _ = body`. -/
def ignoring (body : ExceptT ε (Prog κ ω σ) α) : ExceptT ε (Prog κ ω σ) Unit :=
  bind body fun _ => done (.ok ())

/-- After these calls with these outcomes, `q` can be what is left of the program. -/
inductive Reaches : Prog κ ω σ α → List (κ × ω) → Prog κ ω σ α → Prop
  | here (p : Prog κ ω σ α) : Reaches p [] p
  | ask {k : σ → Prog κ ω σ α} {tr : List (κ × ω)} {q : Prog κ ω σ α} (s : σ)
      (h : Reaches (k s) tr q) : Reaches (ask k) tr q
  | call {c : κ} {k : ω → σ → Prog κ ω σ α} {tr : List (κ × ω)} {q : Prog κ ω σ α} (o : ω) (s : σ)
      (h : Reaches (k o s) tr q) : Reaches (call c k) ((c, o) :: tr) q
  | enter {k : Bool → Prog κ ω σ α} {tr : List (κ × ω)} {q : Prog κ ω σ α} (b : Bool)
      (h : Reaches (k b) tr q) : Reaches (enter k) tr q
  | leave {k : Prog κ ω σ α} {tr : List (κ × ω)} {q : Prog κ ω σ α} (h : Reaches k tr q) :
      Reaches (leave k) tr q
  | peek {k : Bool → Prog κ ω σ α} {tr : List (κ × ω)} {q : Prog κ ω σ α} (b : Bool)
      (h : Reaches (k b) tr q) : Reaches (peek k) tr q

/-- The program with these outcomes one after the other, on a store that stays as it is and
with an open gate, up to the call that has none. -/
def playback (s : σ) : Prog κ ω σ α → List ω → List (κ × ω) × Prog κ ω σ α
  | done a, _ => ([], done a)
  | ask k, os => playback s (k s) os
  | call c k, [] => ([], call c k)
  | call c k, o :: os =>
    let r := playback s (k o s) os
    ((c, o) :: r.1, r.2)
  | enter k, os => playback s (k true) os
  | leave k, os => playback s k os
  | peek k, os => playback s (k false) os

theorem reaches_playback (s : σ) (p : Prog κ ω σ α) (os : List ω) :
    p.Reaches (p.playback s os).1 (p.playback s os).2 := by
  induction p generalizing os with
  | done a => exact .here _
  | ask k ih => exact .ask s (ih s os)
  | call c k ih =>
    cases os with
    | nil => exact .here _
    | cons o os => exact .call o s (ih o s os)
  | enter k ih => exact .enter true (ih true os)
  | leave k ih => exact .leave (ih os)
  | peek k ih => exact .peek false (ih false os)

/-- What the program has returned, when it is done. -/
def result? : Prog κ ω σ α → Option α
  | done a => some a
  | _ => none

theorem reaches_done_playback {s : σ} {p : Prog κ ω σ α} {os : List ω} {a : α}
    (h : (p.playback s os).2.result? = some a) : p.Reaches (p.playback s os).1 (done a) := by
  have hreaches := reaches_playback s p os
  generalize (p.playback s os).2 = q at h hreaches
  cases q with
  | done b =>
    cases h
    exact hreaches
  | ask | call | enter | leave | peek => cases h

theorem Reaches.of_bind {p : Prog κ ω σ α} {f : α → Prog κ ω σ β} {tr : List (κ × ω)} {b : β}
    (h : (p.bind f).Reaches tr (done b)) :
    ∃ a t u, tr = t ++ u ∧ p.Reaches t (done a) ∧ (f a).Reaches u (done b) := by
  induction p generalizing tr with
  | done a => exact ⟨a, [], tr, rfl, .here _, h⟩
  | ask k ih =>
    cases h with
    | ask s h =>
      obtain ⟨a, t, u, htr, hp, hf⟩ := ih s h
      exact ⟨a, t, u, htr, .ask s hp, hf⟩
  | call c k ih =>
    cases h with
    | call o s h =>
      obtain ⟨a, t, u, rfl, hp, hf⟩ := ih o s h
      exact ⟨a, (c, o) :: t, u, rfl, .call o s hp, hf⟩
  | enter k ih =>
    cases h with
    | enter b h =>
      obtain ⟨a, t, u, htr, hp, hf⟩ := ih b h
      exact ⟨a, t, u, htr, .enter b hp, hf⟩
  | leave k ih =>
    cases h with
    | leave h =>
      obtain ⟨a, t, u, htr, hp, hf⟩ := ih h
      exact ⟨a, t, u, htr, .leave hp, hf⟩
  | peek k ih =>
    cases h with
    | peek b h =>
      obtain ⟨a, t, u, htr, hp, hf⟩ := ih b h
      exact ⟨a, t, u, htr, .peek b hp, hf⟩

/-- Every run of the program that ends has a result and a transcript in `post`. -/
def Ends (post : α → List (κ × ω) → Prop) (p : Prog κ ω σ α) : Prop :=
  ∀ tr a, p.Reaches tr (done a) → post a tr

namespace Ends

variable {post : α → List (κ × ω) → Prop} {post' : β → List (κ × ω) → Prop}

theorem done {a : α} (h : post a []) : (done a : Prog κ ω σ α).Ends post := by
  rintro _ _ ⟨⟩
  exact h

theorem ask {k : σ → Prog κ ω σ α} (h : ∀ s, (k s).Ends post) : (ask k).Ends post := by
  intro tr a hr
  cases hr with
  | ask s hr => exact h s tr a hr

theorem call {c : κ} {k : ω → σ → Prog κ ω σ α}
    (h : ∀ o s, (k o s).Ends fun a tr => post a ((c, o) :: tr)) : (call c k).Ends post := by
  intro tr a hr
  cases hr with
  | call o s hr => exact h o s _ a hr

theorem bind {p : Prog κ ω σ α} {f : α → Prog κ ω σ β} (hp : p.Ends post)
    (hf : ∀ a t, post a t → (f a).Ends fun b u => post' b (t ++ u)) : (p.bind f).Ends post' := by
  intro tr b h
  obtain ⟨a, t, u, rfl, hr, hrest⟩ := h.of_bind
  exact hf a t (hp t a hr) u b hrest

/-- The body ends well and the rest goes on, or it ends with its error. -/
theorem bindE {post : Except ε α → List (κ × ω) → Prop}
    {post' : Except ε β → List (κ × ω) → Prop} {p : ExceptT ε (Prog κ ω σ) α}
    {f : α → ExceptT ε (Prog κ ω σ) β} (hp : p.run.Ends post)
    (hok : ∀ a t, post (.ok a) t → (f a).run.Ends fun r u => post' r (t ++ u))
    (herror : ∀ e t, post (.error e) t → post' (.error e) t) :
    (p >>= f).run.Ends post' :=
  Ends.bind hp fun
    | .ok a => hok a
    | .error e => fun t ht => Ends.done (by simpa using herror e t ht)

theorem ite {c : Prop} [Decidable c] {post : Except ε α → List (κ × ω) → Prop}
    {p q : ExceptT ε (Prog κ ω σ) α} (hp : c → p.run.Ends post) (hq : ¬ c → q.run.Ends post) :
    (if c then p else q).run.Ends post := by
  split
  · exact hp ‹_›
  · exact hq ‹_›

theorem attempt {post : Except ε α → List (κ × ω) → Prop} {p : ExceptT ε (Prog κ ω σ) α}
    (h : p.run.Ends post) : (attempt p).run.Ends fun r t => ∃ r', r = .ok r' ∧ post r' t :=
  Ends.bind h fun r t ht => Ends.done ⟨r, rfl, by rwa [List.append_nil]⟩

theorem admitted {e : ε} {post : Except ε α → List (κ × ω) → Prop}
    {body : ExceptT ε (Prog κ ω σ) α} (h : body.run.Ends post) (he : post (.error e) []) :
    (admitted e body).run.Ends post := by
  intro tr r hr
  cases hr with
  | enter b hr =>
    cases b with
    | false => exact Ends.done he tr r hr
    | true =>
      obtain ⟨_, t, _, rfl, hbody, hleave⟩ := Reaches.of_bind hr
      cases hleave with
      | leave hend =>
        cases hend
        rw [List.append_nil]
        exact h t r hbody

end Ends

end Prog

end Gated
