import Bichon.Smtp.Transactions

/-!
# Authorization

In a session that requires authentication, a recipient is accepted when the user of the
session may ingest into the account, and the user is one who logged in before, with a token
that came with a line of the client (`delivery_authorized`).

The upgrade to TLS clears the transaction and keeps the login. A dialogue in clear text in
which nobody has logged in leaves nothing behind: what follows is what follows on a connection
that is over TLS from its first byte on.
-/

namespace Bichon.Smtp

open Account Texts Transition List

variable {W : World} {config : SmtpConfig} {s s' : Session} {line : Option Text} {turn : Turn}
  {peerIp : Option Text} {input : Input} {c₀ c c' : Conn} {l : Step} {steps : List Step}
  {account : AccountModel} {events : List Event} {user : UserModel}

/-! ## Recipients -/

/-- At most one recipient, counting the journal. -/
def Session.Single (s : Session) : Prop := s.rcptTo.length ≤ 1 ∧ (s.rcptTo = [] ∨ s.journal = false)

/-- One of the steps read the line and logged the user in, with a token of that user. -/
def LoggedIn (config : SmtpConfig) (c₀ : Conn) (steps : List Step) (user : UserModel) : Prop :=
  ∃ before W after c line rest token, steps = before ++ .command W :: after ∧
    runFrom (step config) c₀ before = some c ∧
    c.input.readLine commandTimeout = (.ok (some line), rest) ∧
    .loggedIn token user ∈ (processCommand W config c.session c.input).1.events ∧
    W.resolveUserFromToken token = some user

/-- One of the steps accepted the account, which takes mail over SMTP, for a user who was logged
in and may ingest into it, and it has been a recipient ever since. -/
def Granted (config : SmtpConfig) (c₀ : Conn) (steps : List Step) (account : AccountModel) : Prop :=
  ∃ before W after c user, steps = before ++ .command W :: after ∧
    runFrom (step config) c₀ before = some c ∧
    .rcptAccepted account ∈ (processCommand W config c.session c.input).1.events ∧
    c.session.user = some user ∧ LoggedIn config c₀ before user ∧
    W.checkHasPermission user account.id = true ∧ account.accountType = .noSync ∧
    ∀ now, now <+: after → ∀ c',
      runFrom (step config) c₀ (before ++ .command W :: now) = some c' → account ∈ c'.session.rcptTo

theorem exists_user_of_mayIngest (h : mayIngest W s account = .ok ())
    (hreq : s.authRequired = true) :
    ∃ user, s.user = some user ∧ W.checkHasPermission user account.id = true := by
  rw [mayIngest, if_pos hreq] at h
  split at h
  next user huser =>
    split_ifs at h with hmay
    exact ⟨user, huser, hmay⟩
  next => cases h

/-- The settings stay, and so does the login unless a token is checked. -/
structure Frame (W : World) (s : Session) (events : List Event) (s' : Session) : Prop where
  required : s'.authRequired = s.authRequired
  peerIp : s'.peerIp = s.peerIp
  login : (s'.authenticated = s.authenticated ∧ s'.user = s.user) ∨
    s'.authenticated = true ∧ ∃ token user, s'.user = some user ∧
      W.resolveUserFromToken token = some user ∧ .loggedIn token user ∈ events

theorem Change.frame (h : Change W s events s') : Frame W s events s' := by
  cases h with
  | logsIn state token user htoken hevent =>
    exact ⟨rfl, rfl, .inr ⟨rfl, token, user, rfl, htoken, hevent⟩⟩
  | same | reset | waits => exact ⟨rfl, rfl, .inl ⟨rfl, rfl⟩⟩

theorem Effect.frame (h : Effect W config s line turn) : Frame W s turn.events turn.session := by
  cases h with
  | plain h => exact h.change.frame
  | mail | rcpt | journal => exact ⟨rfl, rfl, .inl ⟨rfl, rfl⟩⟩

theorem Effect.upgrade (h : Effect W config s line turn) (hresult : turn.result = .ok .startTls) :
    turn.session.authState = .none := by
  cases h with
  | plain h => exact h.upgrade hresult
  | mail | rcpt | journal => cases hresult

theorem Effect.single (h : Effect W config s line turn) (hs : s.Single) : turn.session.Single := by
  cases h with
  | plain h =>
    obtain ⟨s', events, result⟩ := turn
    cases show Change W s events s' from h.change with
    | reset => exact ⟨Nat.zero_le _, .inl rfl⟩
    | same | waits | logsIn => exact hs
  | mail => exact ⟨hs.1, .inr rfl⟩
  | rcpt hempty hjournal account =>
    refine ⟨?_, .inr hjournal⟩
    dsimp only
    rw [hempty]
    exact Nat.le_refl 1
  | journal hempty => exact ⟨hs.1, .inl hempty⟩

/-- A recipient was there before or is accepted now. -/
theorem Effect.mem_rcptTo (h : Effect W config s line turn) (hreq : s.authRequired = true)
    (haccount : account ∈ turn.session.rcptTo) : account ∈ s.rcptTo ∨
      ∃ user, s.user = some user ∧ W.checkHasPermission user account.id = true ∧
        account.accountType = .noSync ∧ .rcptAccepted account ∈ turn.events := by
  cases h with
  | plain h =>
    obtain ⟨s', events, result⟩ := turn
    cases show Change W s events s' from h.change with
    | reset => cases haccount
    | same | waits | logsIn => exact .inl haccount
  | rcpt hempty hjournal account' hmay htype =>
    rcases mem_append.mp haccount with hold | hnew
    · exact .inl hold
    · rw [mem_singleton.mp hnew]
      obtain ⟨user, huser, hcheck⟩ := exists_user_of_mayIngest hmay hreq
      exact .inr ⟨user, huser, hcheck, htype, mem_cons_self⟩
  | mail | journal => exact .inl haccount

theorem exists_line_of_mem {e : Event} (h : e ∈ (processCommand W config s input).1.events) :
    ∃ line rest, input.readLine commandTimeout = (.ok (some line), rest) := by
  rw [processCommand] at h
  split at h
  · cases h
  · cases h
  next line rest hread => exact ⟨line, rest, hread⟩

theorem LoggedIn.concat (h : LoggedIn config c₀ steps user) (l : Step) :
    LoggedIn config c₀ (steps ++ [l]) user := by
  obtain ⟨before, W, after, c, line, rest, token, rfl, hlogin⟩ := h
  exact ⟨before, W, after ++ [l], c, line, rest, token, by simp, hlogin⟩

theorem Granted.concat (h : Granted config c₀ steps account)
    (hrun : runFrom (step config) c₀ steps = some c) (hstep : step config c l = some c')
    (haccount : account ∈ c'.session.rcptTo) : Granted config c₀ (steps ++ [l]) account := by
  obtain ⟨before, W, after, cb, user, rfl, hbefore, hevent, huser, hlogin, hcheck, htype,
    hheld⟩ := h
  refine ⟨before, W, after ++ [l], cb, user, by simp, hbefore, hevent, huser, hlogin, hcheck, htype,
    fun now hnow c'' hc'' => ?_⟩
  rcases prefix_concat_iff.mp hnow with rfl | hnow
  · rw [← cons_append, ← append_assoc, runFrom_concat hrun, hstep] at hc''
    exact Option.some.inj hc'' ▸ haccount
  · exact hheld now hnow c'' hc''

/-- What holds behind the steps of a session that requires authentication. -/
structure Authorized (config : SmtpConfig) (c₀ : Conn) (steps : List Step) (c : Conn) : Prop where
  required : c.session.authRequired = true
  user : ∀ user, c.session.user = some user → LoggedIn config c₀ steps user
  granted : ∀ account ∈ c.session.rcptTo, Granted config c₀ steps account
  single : c.session.Single

theorem Authorized.concat (h : Authorized config c₀ steps c)
    (hrun : runFrom (step config) c₀ steps = some c) (hstep : step config c l = some c') :
    Authorized config c₀ (steps ++ [l]) c' := by
  have huser : ∀ user, c.session.user = some user → LoggedIn config c₀ (steps ++ [l]) user :=
    fun user huser => (h.user user huser).concat l
  rcases step_cases hstep with ⟨W, rfl, -, hsession, -, -⟩ | ⟨input, rfl, -, rfl⟩ | ⟨rfl, rfl⟩
  · have heffect := effect_processCommand W config c.session c.input
    refine ⟨by rw [hsession, heffect.frame.required, h.required], fun user hnow => ?_,
      fun account haccount => ?_, hsession ▸ heffect.single h.single⟩
    · rw [hsession] at hnow
      rcases heffect.frame.login with ⟨-, hold⟩ | ⟨-, token, user', hnew, htoken, hevent⟩
      · exact huser user (hold.symm.trans hnow)
      · cases hnew.symm.trans hnow
        obtain ⟨line, rest, hread⟩ := exists_line_of_mem hevent
        exact ⟨steps, W, [], c, line, rest, token, rfl, hrun, hread, hevent, htoken⟩
    · rcases heffect.mem_rcptTo h.required (hsession ▸ haccount) with
        hold | ⟨user, hu, hcheck, htype, hevent⟩
      · exact (h.granted account hold).concat hrun hstep haccount
      · refine ⟨steps, W, [], c, user, rfl, hrun, hevent, hu, h.user user hu, hcheck, htype,
          fun now hnow c'' hc'' => ?_⟩
        rw [prefix_nil.mp hnow, runFrom_concat hrun, hstep] at hc''
        exact Option.some.inj hc'' ▸ haccount
  · exact ⟨h.required, huser, fun account haccount => (by cases haccount),
      Nat.zero_le _, .inl rfl⟩
  · exact ⟨h.required, huser,
      fun account haccount => (h.granted account haccount).concat hrun hstep haccount, h.single⟩

theorem authorized_run (h : Authorized config c₀ [] c₀)
    (hrun : runFrom (step config) c₀ steps = some c) : Authorized config c₀ steps c := by
  induction steps using reverseRecOn generalizing c with
  | nil =>
    cases hrun
    exact h
  | append_singleton steps l ih =>
    obtain ⟨cb, hbefore, -⟩ := Option.bind_eq_some_iff.mp ((runFrom_append _ _ _).symm.trans hrun)
    exact (ih hbefore).concat hbefore ((runFrom_concat hbefore).symm.trans hrun)

/-- In a session that requires authentication there is at most one recipient at any time and
none beside the journal, and all recipients and deliveries are authorized. -/
theorem delivery_authorized (hreq : config.authRequired = true)
    (hopen : c₀ = .open config peerIp input ∨ c₀ = .openTls config peerIp input)
    (hrun : runFrom (step config) c₀ steps = some c) :
    c.session.Single ∧ (∀ account ∈ c.session.rcptTo, Granted config c₀ steps account) ∧
      ∀ W account mailboxId data,
        .delivered account mailboxId data ∈ (processCommand W config c.session c.input).1.events →
          Granted config c₀ steps account := by
  have hinit : Authorized config c₀ [] c₀ := by
    rcases hopen with rfl | rfl
    · exact ⟨hreq, fun _ h => (by cases h), fun _ h => (by cases h), Nat.zero_le _, .inl rfl⟩
    · exact ⟨hreq, fun _ h => (by cases h), fun _ h => (by cases h), Nat.zero_le _, .inl rfl⟩
  have h := authorized_run hinit hrun
  refine ⟨h.single, h.granted, fun W account mailboxId data he => h.granted account ?_⟩
  exact (plain_events (effect_processCommand W config c.session c.input)).1 _ mailboxId data he

/-- The token `t` is one of a user who may ingest into the local account. -/
def tokenWorld : World :=
  { oneAccount false with
    base64Decode := fun text => if text = "AAB0".toList then some [0, 0, 116] else none
    resolveUserFromToken := fun token =>
      if token = ['t'] then some { id := 1, accountAccessMap := [] } else none
    checkHasPermission := fun _ _ => true }

def strictConfig : SmtpConfig := { authRequired := true, tlsAcceptor := true }

/-- The connection after the lines, all of them commands. -/
def afterLines (lines : List String) : Option Conn :=
  runFrom (step strictConfig) (.open strictConfig none (sampleInput lines))
    (lines.map fun _ => .command tokenWorld)

theorem delivery_authorized_sample :
    ∃ c, afterLines ["AUTH PLAIN AAB0", "MAIL FROM:<a>", "RCPT TO:<b>"] = some c ∧
      c.session.rcptTo = [localAccount] ∧
      Granted strictConfig (.open strictConfig none
        (sampleInput ["AUTH PLAIN AAB0", "MAIL FROM:<a>", "RCPT TO:<b>"]))
        [.command tokenWorld, .command tokenWorld, .command tokenWorld] localAccount := by
  obtain ⟨c, hrun, hrcpt⟩ :
      ∃ c ∈ afterLines ["AUTH PLAIN AAB0", "MAIL FROM:<a>", "RCPT TO:<b>"],
        c.session.rcptTo = [localAccount] := by decide +kernel
  refine ⟨c, hrun, hrcpt, (delivery_authorized rfl (.inl rfl) hrun).2.1 localAccount ?_⟩
  rw [hrcpt]
  exact mem_cons_self

/-! ## The upgrade to TLS -/

/-- What follows on the handshake, with its own log. -/
def tlsPhase (config : SmtpConfig) (c : Conn) (input : Input) (steps : List Step) : Option Conn :=
  runFrom (step config) { c with log := [] } (.handshake input :: steps)

/-- What a dialogue does not change of the session before the first login. -/
structure Fresh (config : SmtpConfig) (peerIp : Option Text) (c : Conn) : Prop where
  required : c.session.authRequired = config.authRequired
  peerIp : c.session.peerIp = peerIp
  user : c.session.authenticated = false → c.session.user = none
  authState : c.mode = .upgrading → c.session.authState = .none

theorem Fresh.step (h : Fresh config peerIp c) (hstep : step config c l = some c') :
    Fresh config peerIp c' := by
  rcases step_cases hstep with ⟨W, rfl, -, hsession, -, hup⟩ | ⟨input, rfl, -, rfl⟩ | ⟨rfl, rfl⟩
  · have heffect := effect_processCommand W config c.session c.input
    obtain ⟨hreq, hpeer, hlogin⟩ := heffect.frame
    rw [← hsession] at hreq hpeer hlogin
    refine ⟨hreq.trans h.required, hpeer.trans h.peerIp, fun hclear => ?_, fun hmode => ?_⟩
    · rcases hlogin with ⟨hauth, huser⟩ | ⟨hauth, -⟩
      · rw [huser, h.user (hauth.symm.trans hclear)]
      · rw [hauth] at hclear
        cases hclear
    · rw [hsession]
      exact heffect.upgrade (hup hmode)
  · exact ⟨h.required, h.peerIp, h.user, fun hmode => by cases hmode⟩
  · exact ⟨h.required, h.peerIp, h.user, fun hmode => by cases hmode⟩

theorem tlsPhase_eq (hrun : runFrom (step config) (.open config peerIp input) steps = some c)
    (hup : c.mode = .upgrading) (hclear : c.session.authenticated = false) (tlsInput : Input)
    (tlsSteps : List Step) : tlsPhase config c tlsInput tlsSteps =
      runFrom (step config) (.openTls config peerIp tlsInput) tlsSteps := by
  have halong : Along (step config) (fun _ _ => True) (.open config peerIp input) steps :=
    Along.of_forall fun _ _ _ => trivial
  have hfresh : Fresh config peerIp c := halong.invariant (fun h _ hstep => h.step hstep)
    ⟨rfl, rfl, fun _ => rfl, fun hmode => by cases hmode⟩ hrun
  obtain ⟨⟨_, _, authenticated, user, authRequired, _, authState, peer, _⟩, _, mode, _⟩ := c
  obtain ⟨hreq, hpeer, huser, hstate⟩ := hfresh
  dsimp only at hreq hpeer huser hstate hup hclear
  rw [tlsPhase, runFrom, step, hup, if_pos rfl, hreq, hpeer, huser hclear, hstate hup, hclear]
  rfl

/-- Two dialogues in clear text in which nobody is logged in when `STARTTLS` is accepted are
followed by the same, whatever is sent over TLS. -/
theorem tls_phase_isolated {input₁ input₂ : Input} {steps₁ steps₂ : List Step} {c₁ c₂ : Conn}
    (hrun₁ : runFrom (step config) (.open config peerIp input₁) steps₁ = some c₁)
    (hrun₂ : runFrom (step config) (.open config peerIp input₂) steps₂ = some c₂)
    (hup₁ : c₁.mode = .upgrading) (hup₂ : c₂.mode = .upgrading)
    (hclear₁ : c₁.session.authenticated = false) (hclear₂ : c₂.session.authenticated = false)
    (tlsInput : Input) (tlsSteps : List Step) :
    tlsPhase config c₁ tlsInput tlsSteps = tlsPhase config c₂ tlsInput tlsSteps := by
  rw [tlsPhase_eq hrun₁ hup₁ hclear₁, tlsPhase_eq hrun₂ hup₂ hclear₂]

theorem tls_phase_isolated_sample :
    ∃ c₁ c₂, afterLines ["STARTTLS"] = some c₁ ∧ afterLines ["NOOP", "STARTTLS"] = some c₂ ∧
      ∀ input steps, tlsPhase strictConfig c₁ input steps =
        tlsPhase strictConfig c₂ input steps := by
  obtain ⟨c₁, hrun₁, hup₁, hclear₁⟩ : ∃ c ∈ afterLines ["STARTTLS"],
      c.mode = .upgrading ∧ c.session.authenticated = false := by decide +kernel
  obtain ⟨c₂, hrun₂, hup₂, hclear₂⟩ : ∃ c ∈ afterLines ["NOOP", "STARTTLS"],
      c.mode = .upgrading ∧ c.session.authenticated = false := by decide +kernel
  exact ⟨c₁, c₂, hrun₁, hrun₂, tls_phase_isolated hrun₁ hrun₂ hup₁ hup₂ hclear₁ hclear₂⟩

/-- A login in clear text is in force under TLS. -/
theorem clear_login_counts_under_tls :
    let reply := fun lines => (afterLines lines).bind fun c =>
      (tlsPhase strictConfig c (sampleInput ["MAIL FROM:<a>"]) [.command emptyWorld]).map (·.log)
    reply ["STARTTLS"] = some [.reply authenticationRequired] ∧
      reply ["AUTH PLAIN AAB0", "STARTTLS"] = some [.mailAccepted ['a'], .reply "250 OK\r\n"] := by
  decide +kernel

end Bichon.Smtp
