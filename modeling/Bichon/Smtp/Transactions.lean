import Mathlib.Data.List.DropRight
import Bichon.Smtp.Server

/-!
# Transactions of a session

A transaction begins with an accepted `MAIL FROM`. `RSET`, a message that is archived and the
upgrade to TLS clear the sender, the recipients and the mark of the journal; `MAIL FROM` itself
only clears the mark. A recipient that is left over when a transaction begins, because the
message before it failed, gets the next message.

`Effect` says what a command can do to the recipients and the mark. In a session in which no
recipient is left over, those in effect are always from the present transaction.
-/

namespace Bichon.Smtp

open Account ByteFile Texts Transition List

/-! ## What a command does -/

/-- The line is a `MAIL FROM` that is accepted. -/
def StartsTransaction (W : World) (config : SmtpConfig) (s : Session) (trimmed : Text) : Prop :=
  "MAIL FROM:".toList <+: trimmed.flatMap W.uppercase ∧
    (s.authRequired && !s.authenticated) = false ∧ s.peerAllowed W = true ∧
      ((sliceFrom 10 trimmed).bind extractAddress).any config.admits = true

instance (W : World) (config : SmtpConfig) (s : Session) (trimmed : Text) :
    Decidable (StartsTransaction W config s trimmed) :=
  inferInstanceAs (Decidable (_ ∧ _))

/-- An event that accepts nothing, and hands a message over to the first recipient or to the
journal only. -/
def Plain (s : Session) : Event → Prop
  | .reply _ | .loggedIn _ _ => True
  | .delivered account _ _ => account ∈ s.rcptTo
  | .ingested _ => s.journal = true
  | .mailAccepted _ | .rcptAccepted _ | .journalAccepted => False

/-- What a command that accepts nothing leaves of the session, with the events of the command. -/
inductive Change (W : World) (s : Session) (events : List Event) : Session → Prop
  | same : Change W s events s
  | reset : Change W s events s.reset
  | waits (state : AuthState) : Change W s events { s with authState := state }
  | logsIn (state : AuthState) (token : Text) (user : UserModel)
      (h : W.resolveUserFromToken token = some user) (hevent : .loggedIn token user ∈ events) :
      Change W s events { s with authenticated := true, user := some user, authState := state }

/-- A command that accepts nothing. -/
structure PlainTurn (W : World) (s : Session) (turn : Turn) : Prop where
  change : Change W s turn.events turn.session
  events : ∀ e ∈ turn.events, Plain s e
  upgrade : turn.result = .ok .startTls → turn.session.authState = .none

/-- What the command of a line does, if there is one. -/
inductive Effect (W : World) (config : SmtpConfig) (s : Session) (line : Option Text) : Turn → Prop
  | plain {turn : Turn} (h : PlainTurn W s turn) : Effect W config s line turn
  | mail {trimmed : Text} (hline : trimmed ∈ line) (hstarts : StartsTransaction W config s trimmed)
      (addr : Text) :
      Effect W config s line ⟨{ s with journal := false, mailFrom := some addr },
        [.mailAccepted addr, .reply "250 OK\r\n"], .ok .next⟩
  | rcpt (hempty : s.rcptTo = []) (hjournal : s.journal = false) (account : AccountModel)
      (hmay : mayIngest W s account = .ok ()) (htype : account.accountType = .noSync) :
      Effect W config s line ⟨{ s with rcptTo := s.rcptTo ++ [account] },
        [.rcptAccepted account, .reply "250 OK\r\n"], .ok .next⟩
  | journal (hempty : s.rcptTo = []) : Effect W config s line ⟨{ s with journal := true },
        [.journalAccepted, .reply "250 OK\r\n"], .ok .next⟩

variable {W : World} {config : SmtpConfig} {s s' : Session} {line : Option Text} {trimmed : Text}
  {turn : Turn} {events : List Event}

theorem plain_reply (text : String) : ∀ e ∈ [Event.reply text], Plain s e := by
  intro e he
  rw [mem_singleton.mp he]
  trivial

theorem plainTurn_answer (text : String) (h : Change W s [.reply text] s') :
    PlainTurn W s (s'.answer text) := ⟨h, plain_reply text, by simp [Session.answer]⟩

/-- A command that ends the session, by an error or a panic. -/
theorem plainTurn_error (e : Failure) : PlainTurn W s ⟨s, [], .error e⟩ := ⟨.same, by simp, by simp⟩

theorem effect_answer (text : String) : Effect W config s line (s.answer text) :=
  .plain (plainTurn_answer text .same)

theorem plainTurn_logIn (state : AuthState) (token : Text) :
    PlainTurn W s (logIn W { s with authState := state } token) := by
  rw [logIn]
  split
  next user huser =>
    exact ⟨.logsIn state token user huser mem_cons_self, by simp [Plain], by simp⟩
  next => exact plainTurn_answer _ (.waits state)

theorem plainTurn_verifyPlainAuth (state : AuthState) (encoded : Text) :
    PlainTurn W s (verifyPlainAuth W { s with authState := state } encoded) := by
  rw [verifyPlainAuth]
  split
  · exact plainTurn_logIn state _
  · exact plainTurn_answer _ (.waits state)

theorem plainResponse_eq (trimmed : Text) :
    plainResponse W s trimmed = verifyPlainAuth W { s with authState := .none } trimmed := by
  rw [plainResponse, verifyPlainAuth, verifyPlainAuth]
  split
  · rw [logIn, logIn]
    split <;> rfl
  · rfl

theorem plainTurn_loginUsername (trimmed : Text) : PlainTurn W s (loginUsername W s trimmed) := by
  rw [loginUsername]
  split
  · exact plainTurn_answer _ (.waits _)
  · exact plainTurn_answer _ (.waits _)

theorem plainTurn_loginPassword (trimmed : Text) : PlainTurn W s (loginPassword W s trimmed) := by
  rw [loginPassword]
  split
  · exact plainTurn_logIn .none _
  · exact plainTurn_answer _ (.waits _)

theorem plainTurn_startTls (hstate : s.authState = .none) : PlainTurn W s (startTls config s) := by
  rw [startTls]
  split_ifs
  · exact plainTurn_answer _ .same
  · exact plainTurn_answer _ .same
  · exact ⟨.same, plain_reply _, fun _ => hstate⟩

theorem plainTurn_auth (trimmed : Text) : PlainTurn W s (auth W s trimmed) := by
  rw [auth]
  split
  · split_ifs
    · split
      · exact plainTurn_verifyPlainAuth s.authState _
      · exact plainTurn_answer _ (.waits _)
    · exact plainTurn_answer _ (.waits _)
    · exact plainTurn_answer _ .same
  · exact plainTurn_answer _ .same

theorem effect_mailFrom (hcmd : "MAIL FROM:".toList <+: trimmed.flatMap W.uppercase) :
    Effect W config s (some trimmed) (mailFrom W config s trimmed) := by
  rw [mailFrom]
  split_ifs with hauth hpeer
  · exact effect_answer _
  · exact effect_answer _
  · cases haddr : (sliceFrom 10 trimmed).bind extractAddress with
    | none => exact .plain (plainTurn_error _)
    | some addr =>
      dsimp only
      split_ifs with hadmits
      · refine .mail rfl ⟨hcmd, by simpa using hauth, by simpa using hpeer, ?_⟩ addr
        rw [haddr, Option.any_some]
        exact hadmits
      · exact effect_answer _

theorem effect_acceptRcpt (hempty : s.rcptTo = []) (hjournal : s.journal = false)
    (account : AccountModel) : Effect W config s line (acceptRcpt W s account) := by
  rw [acceptRcpt]
  split
  next => exact effect_answer _
  next hmay =>
    split_ifs with htype
    · exact effect_answer _
    · exact .rcpt hempty hjournal account hmay (not_not.mp htype)

theorem effect_rcptTo (trimmed : Text) : Effect W config s line (rcptTo W s trimmed) := by
  rw [rcptTo]
  split_ifs with hfirst
  · exact effect_answer _
  · exact effect_answer _
  · exact effect_answer _
  · exact effect_answer _
  · rw [Bool.or_eq_true, not_or] at hfirst
    have hempty : s.rcptTo = [] := by simpa using hfirst.1
    split
    · exact .plain (plainTurn_error _)
    · split_ifs
      · exact .journal hempty
      · split
        · exact effect_acceptRcpt hempty (by simpa using hfirst.2) _
        · exact effect_answer _
        · exact effect_answer _

theorem plain_archive (data : Bytes) : ∀ e ∈ (archive W s data).1, Plain s e := by
  rw [archive]
  split
  next hjournal =>
    intro e he
    rw [mem_singleton.mp he]
    exact hjournal
  next =>
    rw [parseEmail]
    split
    · simp
    · split
      · simp
      next rcpt others hrcpt =>
        split
        · simp
        · intro e he
          rw [mem_singleton.mp he, Plain, hrcpt]
          exact mem_cons_self

theorem plain_append_reply (h : ∀ e ∈ events, Plain s e) (text : String) :
    ∀ e ∈ events ++ [.reply text], Plain s e :=
  forall_mem_append.mpr ⟨h, plain_reply text⟩

theorem PlainTurn.cons (h : PlainTurn W s turn) {e : Event} (he : Plain s e) :
    PlainTurn W s { turn with events := e :: turn.events } := by
  refine ⟨?_, forall_mem_cons.mpr ⟨he, h.events⟩, h.upgrade⟩
  obtain ⟨s', events, result⟩ := turn
  cases show Change W s events s' from h.change with
  | same => exact .same
  | reset => exact .reset
  | waits state => exact .waits state
  | logsIn state token user htoken hevent =>
    exact .logsIn state token user htoken (mem_cons_of_mem _ hevent)

theorem plainTurn_receiveMessage (input : Input) : PlainTurn W s (receiveMessage W s input).1 := by
  rw [receiveMessage]
  cases readData input with
  | mk result rest =>
    cases result with
    | error e =>
      dsimp only
      split_ifs
      · exact plainTurn_answer _ .same
      · exact plainTurn_error _
    | ok data =>
      have hplain := plain_archive (W := W) (s := s) data
      dsimp only
      cases harchive : archive W s data with
      | mk events ok =>
        rw [harchive] at hplain
        cases ok with
        | true => exact ⟨.reset, plain_append_reply hplain _, by simp⟩
        | false => exact ⟨.same, plain_append_reply hplain _, by simp⟩

theorem plainTurn_data (input : Input) : PlainTurn W s (data W s input).1 := by
  rw [data]
  split_ifs
  · exact plainTurn_answer _ .same
  · exact plainTurn_answer _ .same
  · exact plainTurn_answer _ .same
  · exact plainTurn_answer _ .same
  · exact (plainTurn_receiveMessage input).cons trivial

theorem effect_command (hstate : s.authState = .none) (input : Input) :
    Effect W config s (some trimmed) (command W config s trimmed input).1 := by
  rw [command]
  split_ifs with hehlo htls hauth hmail
  · exact effect_answer _
  · exact .plain (plainTurn_startTls hstate)
  · exact .plain (plainTurn_auth _)
  · exact effect_mailFrom hmail
  · exact effect_rcptTo trimmed
  · exact .plain (plainTurn_data _)
  · exact .plain (plainTurn_answer _ .reset)
  · exact effect_answer _
  · exact .plain ⟨.same, plain_reply _, by simp⟩
  · exact effect_answer _

/-- The line that is going to be read as a command. -/
def command? (s : Session) (input : Input) : Option Text :=
  match input.readLine commandTimeout with
  | (.ok (some line), _) => if s.authState = .none then some (trim line) else none
  | _ => none

theorem effect_processCommand (W : World) (config : SmtpConfig) (s : Session) (input : Input) :
    Effect W config s (command? s input) (processCommand W config s input).1 := by
  rw [processCommand]
  split
  · exact .plain (plainTurn_error _)
  · exact .plain ⟨.same, by simp, by simp⟩
  next line rest hread =>
    split
    next hstate =>
      rw [command?, hread]
      dsimp only
      rw [if_pos hstate]
      exact effect_command hstate _
    · rw [plainResponse_eq]
      exact .plain (plainTurn_verifyPlainAuth _ _)
    · exact .plain (plainTurn_loginUsername _)
    · exact .plain (plainTurn_loginPassword _)

/-! ## Recipients of the present transaction -/

def Event.acceptsMail : Event → Bool
  | .mailAccepted _ => true
  | _ => false

/-- What has happened since `MAIL FROM` was accepted last. -/
def sinceMail (log : List Event) : List Event := log.rtakeWhile (!·.acceptsMail)

theorem sinceMail_append (log : List Event)
    (h : ∀ e ∈ events, e.acceptsMail = false) :
    sinceMail (log ++ events) = sinceMail log ++ events := by
  induction events using reverseRecOn with
  | nil => rw [append_nil, append_nil]
  | append_singleton events e ih =>
    have he := h e (by simp)
    rw [← append_assoc, sinceMail, rtakeWhile_concat_pos _ _ _ (by simp [he]), ← sinceMail,
      ih fun e' he' => h e' (mem_append_left _ he'), append_assoc]

theorem acceptsMail_of_plain {e : Event} (h : Plain s e) : e.acceptsMail = false := by
  cases e with
  | mailAccepted addr => exact h.elim
  | reply | loggedIn | rcptAccepted | journalAccepted | delivered | ingested => rfl

/-- The recipients, and the journal as one, were accepted since the last `MAIL FROM`. -/
structure Current (s : Session) (log : List Event) : Prop where
  rcptTo : ∀ account ∈ s.rcptTo, .rcptAccepted account ∈ sinceMail log
  journal : s.journal = true → .journalAccepted ∈ sinceMail log

/-- A transaction does not begin while there is a recipient. -/
def CleanStart (config : SmtpConfig) (c : Conn) : Step → Prop
  | .command W => ∀ line ∈ command? c.session c.input,
      ¬ StartsTransaction W config c.session line ∨ c.session.rcptTo = []
  | .handshake _ | .handshakeFails => True

instance (config : SmtpConfig) (c : Conn) (l : Step) : Decidable (CleanStart config c l) := by
  cases l with
  | command W => exact inferInstanceAs (Decidable (∀ line ∈ command? c.session c.input, _ ∨ _))
  | handshake | handshakeFails => exact isTrue trivial

theorem Current.append {log : List Event} (h : Current s log)
    (hevents : ∀ e ∈ events, e.acceptsMail = false) : Current s (log ++ events) := by
  constructor
  · intro account haccount
    rw [sinceMail_append log hevents]
    exact mem_append_left _ (h.rcptTo account haccount)
  · intro hjournal
    rw [sinceMail_append log hevents]
    exact mem_append_left _ (h.journal hjournal)

theorem Change.current {log : List Event} (hchange : Change W s events s')
    (h : Current s log) : Current s' log := by
  cases hchange with
  | reset => exact ⟨by simp [Session.reset], by simp [Session.reset]⟩
  | same | waits | logsIn => exact ⟨h.rcptTo, h.journal⟩

theorem current_effect {log : List Event} (h : Current s log)
    (hclean : ∀ trimmed ∈ line, ¬ StartsTransaction W config s trimmed ∨ s.rcptTo = [])
    (heffect : Effect W config s line turn) :
    Current turn.session (log ++ turn.events) := by
  cases heffect with
  | plain hplain =>
    exact (hplain.change.current h).append fun e he => acceptsMail_of_plain (hplain.events e he)
  | mail hline hstarts addr =>
    have hempty := (hclean _ hline).resolve_left (not_not_intro hstarts)
    exact ⟨by simp [hempty], by simp⟩
  | rcpt hempty hjournal account =>
    have hevents : ∀ e ∈ [Event.rcptAccepted account, .reply "250 OK\r\n"],
        e.acceptsMail = false := by simp [Event.acceptsMail]
    refine ⟨fun account' haccount' => ?_, (h.append hevents).journal⟩
    rw [hempty, nil_append, mem_singleton] at haccount'
    rw [sinceMail_append log hevents, haccount']
    simp
  | journal =>
    have hevents : ∀ e ∈ [Event.journalAccepted, .reply "250 OK\r\n"],
        e.acceptsMail = false := by simp [Event.acceptsMail]
    refine ⟨(h.append hevents).rcptTo, fun _ => ?_⟩
    rw [sinceMail_append log hevents]
    simp

section

variable {c c' : Conn} {l : Step}

theorem step_cases (h : step config c l = some c') :
    (∃ W, l = .command W ∧ c.mode = .serving ∧
        c'.session = (processCommand W config c.session c.input).1.session ∧
        c'.log = c.log ++ (processCommand W config c.session c.input).1.events ∧
        (c'.mode = .upgrading →
          (processCommand W config c.session c.input).1.result = .ok .startTls)) ∨
      (∃ input, l = .handshake input ∧ c.mode = .upgrading ∧
        c' = { c with
          session := { c.session with tlsActive := true }.reset, input, mode := .serving }) ∨
      l = .handshakeFails ∧ c' = { c with mode := .closed } := by
  cases l with
  | command W =>
    rw [step] at h
    split_ifs at h with hmode
    cases h
    refine .inl ⟨W, rfl, hmode, rfl, rfl, fun hup => ?_⟩
    dsimp only at hup
    split at hup
    · cases hup
    next hresult => exact hresult
    · cases hup
    · cases hup
  | handshake input =>
    rw [step] at h
    split_ifs at h with hmode
    cases h
    exact .inr (.inl ⟨input, rfl, hmode, rfl⟩)
  | handshakeFails =>
    rw [step] at h
    split_ifs at h
    cases h
    exact .inr (.inr ⟨rfl, rfl⟩)

theorem current_step (h : Current c.session c.log) (hclean : CleanStart config c l)
    (hstep : step config c l = some c') : Current c'.session c'.log := by
  rcases step_cases hstep with
    ⟨W, rfl, -, hsession, hlog, -⟩ | ⟨input, rfl, -, rfl⟩ | ⟨rfl, rfl⟩
  · rw [hsession, hlog]
    exact current_effect h hclean (effect_processCommand W config c.session c.input)
  · exact ⟨by simp [Session.reset], by simp [Session.reset]⟩
  · exact h

end

theorem plain_events (heffect : Effect W config s line turn) :
    (∀ account mailboxId data, .delivered account mailboxId data ∈ turn.events →
        account ∈ s.rcptTo) ∧
      ∀ data, .ingested data ∈ turn.events → s.journal = true := by
  cases heffect with
  | plain h => exact ⟨fun _ _ _ he => h.events _ he, fun _ he => h.events _ he⟩
  | mail | rcpt | journal => simp

theorem notMem_answer {text : String} (h : text ≠ tooManyRecipients) :
    .reply tooManyRecipients ∉ (s.answer text).events := by
  intro hmem
  exact h (Event.reply.inj (mem_singleton.mp hmem)).symm

theorem append_ne_tooManyRecipients {code : String} (h : code.toList.head? = some '5')
    (text : String) : code ++ text ≠ tooManyRecipients := by
  intro heq
  have hhead := congrArg (fun t : String => t.toList.head?) heq
  rw [String.toList_append, head?_append, h] at hhead
  exact absurd (Option.some.inj (hhead : some '5' = some '4')) (by decide)

theorem acceptRcpt_ne_tooManyRecipients (account : AccountModel) :
    .reply tooManyRecipients ∉ (acceptRcpt W s account).events := by
  rw [acceptRcpt]
  split
  next text hrefused =>
    refine notMem_answer ?_
    rw [mayIngest] at hrefused
    split_ifs at hrefused
    split at hrefused
    · split_ifs at hrefused
      cases hrefused
      decide
    · cases hrefused
      decide
  · split_ifs
    · rw [String.append_assoc]
      exact notMem_answer (append_ne_tooManyRecipients rfl _)
    · simp [tooManyRecipients]

theorem rcptTo_ne_tooManyRecipients (hrcpt : s.rcptTo = []) (hjournal : s.journal = false)
    (trimmed : Text) :
    .reply tooManyRecipients ∉ (rcptTo W s trimmed).events := by
  rw [rcptTo, hrcpt, hjournal]
  split_ifs with hfirst hauth hmail hpeer
  · exact absurd hfirst (by decide)
  · exact notMem_answer (by decide)
  · exact notMem_answer (by decide)
  · exact notMem_answer (by decide)
  · split
    · exact not_mem_nil
    · split_ifs
      · simp [tooManyRecipients]
      · split
        · exact acceptRcpt_ne_tooManyRecipients _
        · rw [String.append_assoc]
          exact notMem_answer (append_ne_tooManyRecipients rfl _)
        · exact notMem_answer (by decide)

/-- In a session in which no transaction begins while there is a recipient: the recipients in
effect and the mark of the journal are from the present transaction, and they are the ones a
message is handed to; and as long as it has none, no recipient is one too many. -/
theorem transactions_start_clean {config : SmtpConfig} {peerIp : Option Text} {input : Input}
    {c₀ c : Conn} {steps : List Step}
    (hopen : c₀ = .open config peerIp input ∨ c₀ = .openTls config peerIp input)
    (hclean : Along (step config) (CleanStart config) c₀ steps)
    (hrun : runFrom (step config) c₀ steps = some c) :
    Current c.session c.log ∧
      (∀ W, (∀ account mailboxId data,
          .delivered account mailboxId data ∈ (processCommand W config c.session c.input).1.events →
            .rcptAccepted account ∈ sinceMail c.log) ∧
        ∀ data, .ingested data ∈ (processCommand W config c.session c.input).1.events →
          .journalAccepted ∈ sinceMail c.log) ∧
      ((∀ account, .rcptAccepted account ∉ sinceMail c.log) → .journalAccepted ∉ sinceMail c.log →
        ∀ W trimmed, .reply tooManyRecipients ∉ (rcptTo W c.session trimmed).events) := by
  have hinit : Current c₀.session c₀.log := by
    rcases hopen with rfl | rfl
    · exact ⟨by simp [Conn.open], by simp [Conn.open]⟩
    · exact ⟨by simp [Conn.openTls], by simp [Conn.openTls]⟩
  have hcurrent : Current c.session c.log :=
    hclean.invariant (I := fun c => Current c.session c.log) current_step hinit hrun
  refine ⟨hcurrent, fun W => ?_, fun hrcpt hjournal W trimmed => ?_⟩
  · obtain ⟨hdelivered, hingested⟩ :=
      plain_events (effect_processCommand W config c.session c.input)
    exact ⟨fun account mailboxId data he =>
        hcurrent.rcptTo account (hdelivered account mailboxId data he),
      fun data he => hcurrent.journal (hingested data he)⟩
  · refine rcptTo_ne_tooManyRecipients ?_ ?_ trimmed
    · exact eq_nil_iff_forall_not_mem.mpr fun account h => hrcpt account (hcurrent.rcptTo account h)
    · rw [← Bool.not_eq_true]
      exact fun h => hjournal (hcurrent.journal h)

def localAccount : AccountModel where
  id := 1
  accountType := .noSync
  email := "b"

def oneAccount (gatePaused : Bool) : World :=
  { emptyWorld with findByEmail := fun _ => some (some localAccount), gatePaused }

def sampleInput (lines : List String) : Input :=
  .ofBytes (Utf8.encode (lines.flatMap fun line => line.toList ++ ['\r', '\n'])) .eof

/-- A client that sends a message and begins a second one. -/
def twoMessages : Conn := .open {} none (sampleInput
  ["MAIL FROM:<a>", "RCPT TO:<b>", "DATA", ".", "MAIL FROM:<a>", "RCPT TO:<b>"])

/-- The first message is archived, and the second begins without a recipient. -/
theorem transactions_start_clean_sample :
    ∃ c, runFrom (step {}) twoMessages (replicate 5 (.command (oneAccount false))) = some c ∧
      sinceMail c.log = [.reply "250 OK\r\n", .rcptAccepted localAccount, .reply "250 OK\r\n"] ∧
      Current c.session c.log := by
  obtain ⟨c, hrun, hlog⟩ :
      ∃ c ∈ runFrom (step {}) twoMessages (replicate 5 (.command (oneAccount false))),
        sinceMail c.log =
          [.reply "250 OK\r\n", .rcptAccepted localAccount, .reply "250 OK\r\n"] := by
    decide +kernel
  exact ⟨c, hrun, hlog, (transactions_start_clean (.inl rfl) (by decide +kernel) hrun).1⟩

/-- The first message fails with 451, and the client tries again. -/
theorem retry_is_refused :
    (runFrom (step {}) twoMessages (replicate 5 (.command (oneAccount true)))).map
      (fun c => (c.session.rcptTo, sinceMail c.log)) =
    some ([localAccount], [.reply "250 OK\r\n", .reply tooManyRecipients]) := by
  decide +kernel

end Bichon.Smtp
