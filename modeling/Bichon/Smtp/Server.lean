import Bichon.Account.Model
import Bichon.Lib.Lines
import Bichon.Lib.Transition
import Bichon.Lib.Utf8

/-!
# The SMTP server

A connection reads lines from the client. `processCommand` answers one command, `readData`
reads the lines of a message behind a `DATA` command from the same stream, and
`handle_connection` is the loop around them, with the upgrade to TLS in between (`step`).

What the client sends is given as its bytes, cut into lines, and what follows on them. The
database, the directory of the users, the journal and the archive answer as they like, at
every command anew (`World`). A reply reaches the client; the failure of a write ends the
session like the failure of a read.
-/

namespace Bichon.Smtp

open Account ByteFile Lines Texts Utf8

def maxMailSize : Nat := 50 * 1024 * 1024

/-! ## The stream of the client -/

structure IoError where
  text : Text
  deriving DecidableEq

/-- What comes behind the last byte of the client. -/
inductive StreamEnd
  | eof
  /-- nothing, until a time-out -/
  | stalls
  | fails (e : IoError)
  deriving DecidableEq

/-- The lines to come, each with its line feed; the last one may lack it. -/
structure Input where
  lines : List Bytes
  ends : StreamEnd
  deriving DecidableEq

def Input.ofBytes (bytes : Bytes) (ends : StreamEnd) : Input := ⟨cut bytes, ends⟩

/-- The error of a read behind the last byte. -/
def StreamEnd.error? (timeout : IoError) : StreamEnd → Option IoError
  | .eof => none
  | .stalls => some timeout
  | .fails e => some e

def notUtf8 : IoError := ⟨"stream did not contain valid UTF-8".toList⟩

/-- `read_line` on the bytes of one line: they have to be complete and UTF-8. -/
def lineText (timeout : IoError) (ends : StreamEnd) (bytes : Bytes) : Except IoError Text :=
  match if bytes.getLast? = some newline then none else ends.error? timeout with
  | some e => .error e
  | none => (decode bytes).elim (.error notUtf8) .ok

/-- `read_line`, and nothing at the end of the stream. -/
def Input.readLine (timeout : IoError) (input : Input) : Except IoError (Option Text) × Input :=
  match input.lines with
  | [] => ((input.ends.error? timeout).elim (.ok none) .error, input)
  | bytes :: rest => ((lineText timeout input.ends bytes).map some, ⟨rest, input.ends⟩)

/-! ## The data of a message -/

def dataTimeout : IoError := ⟨"Data transmission timeout".toList⟩

def tooLarge : IoError := ⟨"552 5.3.4 Message size exceeds fixed maximum message size".toList⟩

def unstuff (line : Text) : Text := if "..".toList <+: line then line.tail else line

/-- The loop of `read_data`: the lines to come, the bytes read so far and the data. -/
def readDataFrom (ends : StreamEnd) : List Bytes → Nat → Bytes → Except IoError Bytes × Input
  | [], _, data => ((ends.error? dataTimeout).elim (.ok data) .error, ⟨[], ends⟩)
  | bytes :: rest, total, data =>
    match lineText dataTimeout ends bytes with
    | .error e => (.error e, ⟨rest, ends⟩)
    | .ok line =>
      if maxMailSize < total + bytes.length then (.error tooLarge, ⟨rest, ends⟩)
      else if trim line = ['.'] then (.ok data, ⟨rest, ends⟩)
      else readDataFrom ends rest (total + bytes.length) (data ++ encode (unstuff line))

def readData (input : Input) : Except IoError Bytes × Input :=
  readDataFrom input.ends input.lines 0 []

/-! ## Sessions -/

inductive AuthState
  | none
  | waitingForPlain
  | waitingForLoginUsername
  | waitingForLoginPassword (username : Text)
  deriving DecidableEq

structure Session where
  mailFrom : Option Text := none
  rcptTo : List AccountModel := []
  authenticated : Bool := false
  user : Option UserModel := none
  authRequired : Bool
  tlsActive : Bool
  authState : AuthState := .none
  peerIp : Option Text
  journal : Bool := false
  deriving DecidableEq

structure SmtpConfig where
  whitelist : Option (List Text) := none
  /-- there is a `tls_acceptor` -/
  tlsAcceptor : Bool := false
  authRequired : Bool := false
  deriving DecidableEq

/-- What a command asks of the rest of the server. -/
structure World where
  uppercase : Char → List Char
  base64Decode : Text → Option Bytes
  fromUtf8Lossy : Bytes → Text
  resolveUserFromToken : Text → Option UserModel
  journalEnabled : Bool
  allowPeer : Option Text → Bool → Bool
  isTarget : Text → Bool
  /-- nothing for an error of the database -/
  findByEmail : Text → Option (Option AccountModel)
  /-- the user may ingest mail of the account -/
  checkHasPermission : UserModel → Nat → Bool
  gatePaused : Bool
  /-- the mailbox, or nothing for an error -/
  ensureLocalInbox : Nat → Option Nat
  /-- whether the extraction of the data for an account and a mailbox succeeds -/
  extractEnvelopeFromSmtp : Bytes → Nat → Nat → Bool
  journalIngest : Bytes → Bool

/-- What a command does: its replies, what it hands to the archive, and what it accepts. -/
inductive Event
  | reply (text : String)
  /-- the token is one of the user -/
  | loggedIn (token : Text) (user : UserModel)
  | mailAccepted (addr : Text)
  | rcptAccepted (account : AccountModel)
  | journalAccepted
  /-- `extract_envelope_from_smtp` is called -/
  | delivered (account : AccountModel) (mailboxId : Nat) (data : Bytes)
  /-- `journal::ingest` is called -/
  | ingested (data : Bytes)
  deriving DecidableEq

inductive CommandResult
  | next
  | quit
  | startTls
  deriving DecidableEq

/-- Why the task of a connection ends before the client quits. -/
inductive Failure
  | io (e : IoError)
  | panic
  deriving DecidableEq

/-- What a command leaves behind, apart from the rest of the input. -/
structure Turn where
  session : Session
  events : List Event
  result : Except Failure CommandResult

namespace Session

def reset (s : Session) : Session := { s with mailFrom := none, rcptTo := [], journal := false }

def peerAllowed (W : World) (s : Session) : Bool :=
  !W.journalEnabled || s.authenticated || W.allowPeer s.peerIp s.tlsActive

def answer (s : Session) (text : String) : Turn := ⟨s, [.reply text], .ok .next⟩

end Session

/-! ## Commands -/

/-- The text from a byte on; the source panics where this is not a boundary of the text. -/
def sliceFrom : Nat → Text → Option Text
  | 0, text => some text
  | _ + 1, [] => none
  | n + 1, c :: text => if c.utf8Size ≤ n + 1 then sliceFrom (n + 1 - c.utf8Size) text else none

/-- Nothing where the source panics, because the first `>` comes before the first `<`. -/
def extractAddress (text : Text) : Option Text :=
  let s := trim text
  if '<' ∈ s ∧ '>' ∈ s then
    if s.idxOf '<' + 1 ≤ s.idxOf '>' then some ((s.take (s.idxOf '>')).drop (s.idxOf '<' + 1))
    else none
  else some s

def splitWhitespace (text : Text) : List Text := (text.splitOnP isWhitespace).filter (· ≠ [])

def authenticationRequired : String := "530 Authentication required\r\n"

def notAuthorized : String := "554 5.7.1 Delivery not authorized for this client address\r\n"

section

variable (W : World) (config : SmtpConfig) (session : Session)

/-- The token is the password of `AUTH LOGIN` and of `AUTH PLAIN`. -/
def logIn (token : Text) : Turn :=
  match W.resolveUserFromToken token with
  | some user =>
    ⟨{ session with authenticated := true, user := some user },
      [.loggedIn token user, .reply "235 Authentication successful\r\n"], .ok .next⟩
  | none => session.answer "535 Authentication failed\r\n"

def verifyPlainAuth (encoded : Text) : Turn :=
  match (W.base64Decode (trim encoded)).map (·.splitOn 0) with
  | some (_ :: _ :: password :: _) => logIn W session (W.fromUtf8Lossy password)
  | _ => session.answer "535 Authentication failed\r\n"

/-- The answer to the challenge of `AUTH PLAIN`. -/
def plainResponse (trimmed : Text) : Turn :=
  let turn := verifyPlainAuth W session trimmed
  { turn with session := { turn.session with authState := .none } }

def loginUsername (trimmed : Text) : Turn :=
  match W.base64Decode trimmed with
  | some decoded =>
    { session with authState := .waitingForLoginPassword (W.fromUtf8Lossy decoded) }.answer
      "334 UGFzc3dvcmQ6\r\n"
  | none => { session with authState := .none }.answer "501 Cannot decode\r\n"

def loginPassword (trimmed : Text) : Turn :=
  match W.base64Decode trimmed with
  | some decoded => logIn W { session with authState := .none } (W.fromUtf8Lossy decoded)
  | none => { session with authState := .none }.answer "501 Cannot decode\r\n"

def ehlo : Turn :=
  session.answer ("250-Bichon Hello\r\n250-SIZE 52428800\r\n250-8BITMIME\r\n" ++
    (if config.tlsAcceptor && !session.tlsActive then "250-STARTTLS\r\n" else "") ++
    "250-AUTH PLAIN LOGIN\r\n250 OK\r\n")

def startTls : Turn :=
  if !config.tlsAcceptor then session.answer "454 TLS not available\r\n"
  else if session.tlsActive then session.answer "503 TLS already active\r\n"
  else ⟨session, [.reply "220 Ready to start TLS\r\n"], .ok .startTls⟩

def auth (trimmed : Text) : Turn :=
  match splitWhitespace trimmed with
  | _ :: mechanism :: rest =>
    if mechanism.flatMap W.uppercase = "PLAIN".toList then
      match rest with
      | encoded :: _ => verifyPlainAuth W session encoded
      | [] => { session with authState := .waitingForPlain }.answer "334 \r\n"
    else if mechanism.flatMap W.uppercase = "LOGIN".toList then
      { session with authState := .waitingForLoginUsername }.answer "334 VXNlcm5hbWU6\r\n"
    else session.answer "504 Unrecognized auth type\r\n"
  | _ => session.answer "501 Syntax error\r\n"

/-- An empty list admits every sender. -/
def SmtpConfig.admits (addr : Text) : Bool :=
  match config.whitelist with
  | some (a :: as) => (a :: as).contains addr
  | _ => true

/-- `MAIL FROM`: the recipients stay. -/
def mailFrom (trimmed : Text) : Turn :=
  if session.authRequired && !session.authenticated then session.answer authenticationRequired
  else if !session.peerAllowed W then session.answer notAuthorized
  else
    match (sliceFrom 10 trimmed).bind extractAddress with
    | none => ⟨session, [], .error .panic⟩
    | some addr =>
      if config.admits addr then
        ⟨{ session with journal := false, mailFrom := some addr },
          [.mailAccepted addr, .reply "250 OK\r\n"], .ok .next⟩
      else session.answer "550 Sender not allowed\r\n"

/-- The permission of the user to ingest into the account, or the reply that refuses it. -/
def mayIngest (account : AccountModel) : Except String Unit :=
  if session.authRequired then
    match session.user with
    | some user =>
      if W.checkHasPermission user account.id then .ok ()
      else .error "554 5.7.1 Access denied: Insufficient permissions\r\n"
    | none => .error "530 5.7.0 Authentication required\r\n"
  else .ok ()

/-- `RCPT TO` for an account that was found. -/
def acceptRcpt (account : AccountModel) : Turn :=
  match mayIngest W session account with
  | .error text => session.answer text
  | .ok _ =>
    if account.accountType ≠ .noSync then
      session.answer ("550 5.7.1 <" ++ account.email ++
        ">: Not a local account that accepts SMTP delivery\r\n")
    else
      ⟨{ session with rcptTo := session.rcptTo ++ [account] },
        [.rcptAccepted account, .reply "250 OK\r\n"], .ok .next⟩

def tooManyRecipients : String :=
  "452 4.5.3 Too many recipients, try again in a new transaction\r\n"

def rcptTo (trimmed : Text) : Turn :=
  if !session.rcptTo.isEmpty || session.journal then session.answer tooManyRecipients
  else if session.authRequired && !session.authenticated then session.answer authenticationRequired
  else if session.mailFrom.isNone then session.answer "503 MAIL FROM required first\r\n"
  else if !session.peerAllowed W then session.answer notAuthorized
  else
    match (sliceFrom 8 trimmed).bind extractAddress with
    | none => ⟨session, [], .error .panic⟩
    | some addr =>
      if W.isTarget addr then
        ⟨{ session with journal := true }, [.journalAccepted, .reply "250 OK\r\n"], .ok .next⟩
      else
        match W.findByEmail addr with
        | some (some account) => acceptRcpt W session account
        | some none =>
          session.answer ("550 5.1.1 <" ++ String.ofList addr ++ ">: Bichon account not found\r\n")
        | none =>
          session.answer "451 4.3.0 Requested action aborted: local error in processing\r\n"

/-- What is handed to the archive, and whether it succeeds. -/
def parseEmail (data : Bytes) : List Event × Bool :=
  if W.gatePaused then ([], false)
  else
    match session.rcptTo with
    | [] => ([], true)
    | rcpt :: _ =>
      match W.ensureLocalInbox rcpt.id with
      | none => ([], false)
      | some mailboxId =>
        ([.delivered rcpt mailboxId data], W.extractEnvelopeFromSmtp data rcpt.id mailboxId)

/-- `journal::ingest` for a journal delivery, `parse_email` otherwise. -/
def archive (data : Bytes) : List Event × Bool :=
  if session.journal then ([.ingested data], W.journalIngest data) else parseEmail W session data

/-- `DATA` behind its 354 reply. -/
def receiveMessage (input : Input) : Turn × Input :=
  match readData input with
  | (.error e, rest) =>
    if "552".toList <:+: e.text then
      (session.answer "552 5.3.4 Message size exceeds limit of 52428800 bytes (50MB)\r\n", rest)
    else (⟨session, [], .error (.io e)⟩, rest)
  | (.ok data, rest) =>
    match archive W session data with
    | (events, true) =>
      (⟨session.reset, events ++ [.reply "250 2.0.0 OK: queued in Bichon\r\n"], .ok .next⟩, rest)
    | (events, false) =>
      (⟨session, events ++
          [.reply "451 4.3.0 Error: local error in processing, try again later\r\n"], .ok .next⟩,
        rest)

def data (input : Input) : Turn × Input :=
  if session.authRequired && !session.authenticated then
    (session.answer authenticationRequired, input)
  else if session.mailFrom.isNone then (session.answer "503 MAIL FROM required first\r\n", input)
  else if session.rcptTo.isEmpty && !session.journal then
    (session.answer "503 RCPT TO required first\r\n", input)
  else if !session.peerAllowed W then (session.answer notAuthorized, input)
  else
    let (turn, rest) := receiveMessage W session input
    ({ turn with events := .reply "354 End data with <CR><LF>.<CR><LF>\r\n" :: turn.events }, rest)

/-- A line outside of `AUTH`, and what is left of the input when it is answered. -/
def command (trimmed : Text) (input : Input) : Turn × Input :=
  let cmd := trimmed.flatMap W.uppercase
  if "EHLO".toList <+: cmd ∨ "HELO".toList <+: cmd then (ehlo config session, input)
  else if "STARTTLS".toList <+: cmd then (startTls config session, input)
  else if "AUTH ".toList <+: cmd then (auth W session trimmed, input)
  else if "MAIL FROM:".toList <+: cmd then (mailFrom W config session trimmed, input)
  else if "RCPT TO:".toList <+: cmd then (rcptTo W session trimmed, input)
  else if cmd = "DATA".toList then data W session input
  else if cmd = "RSET".toList then (session.reset.answer "250 OK\r\n", input)
  else if cmd = "NOOP".toList then (session.answer "250 OK\r\n", input)
  else if cmd = "QUIT".toList then (⟨session, [.reply "221 Bye\r\n"], .ok .quit⟩, input)
  else (session.answer "500 Command not recognized\r\n", input)

def commandTimeout : IoError := ⟨"Command timeout".toList⟩

def processCommand (input : Input) : Turn × Input :=
  match input.readLine commandTimeout with
  | (.error e, rest) => (⟨session, [], .error (.io e)⟩, rest)
  | (.ok none, rest) => (⟨session, [], .ok .quit⟩, rest)
  | (.ok (some line), rest) =>
    match session.authState with
    | .none => command W config session (trim line) rest
    | .waitingForPlain => (plainResponse W session (trim line), rest)
    | .waitingForLoginUsername => (loginUsername W session (trim line), rest)
    | .waitingForLoginPassword _ => (loginPassword W session (trim line), rest)

end

/-! ## Connections -/

inductive Mode
  | serving
  /-- between the reply to `STARTTLS` and the end of the handshake -/
  | upgrading
  | closed
  deriving DecidableEq

structure Conn where
  session : Session
  input : Input
  mode : Mode := .serving
  /-- all that has happened -/
  log : List Event := []
  deriving DecidableEq

/-- What the loop around `process_command` goes through. -/
inductive Step
  | command (W : World)
  /-- the handshake, and what the client sends behind it -/
  | handshake (input : Input)
  | handshakeFails

def Conn.open (config : SmtpConfig) (peerIp : Option Text) (input : Input) : Conn where
  session := { authRequired := config.authRequired, tlsActive := false, peerIp }
  input
  log := [.reply "220 localhost ESMTP (Bichon Email Archiver)\r\n"]

/-- A connection that is over TLS from its first byte on; it is not greeted. -/
def Conn.openTls (config : SmtpConfig) (peerIp : Option Text) (input : Input) : Conn where
  session := { authRequired := config.authRequired, tlsActive := true, peerIp }
  input

/-- `handle_connection` and `handle_tls_session`. What the client has sent behind its
`STARTTLS` line goes with the old reader. -/
def step (config : SmtpConfig) (c : Conn) : Step → Option Conn
  | .command W =>
    if c.mode = .serving then
      let (turn, rest) := processCommand W config c.session c.input
      some {
        session := turn.session
        input := rest
        mode :=
          match turn.result with
          | .ok .next => .serving
          | .ok .startTls => .upgrading
          | .ok .quit | .error _ => .closed
        log := c.log ++ turn.events }
    else none
  | .handshake input =>
    if c.mode = .upgrading then
      some { c with session := { c.session with tlsActive := true }.reset, input, mode := .serving }
    else none
  | .handshakeFails => if c.mode = .upgrading then some { c with mode := .closed } else none

/-- A server without accounts, users and journal, for the samples. -/
def emptyWorld : World where
  uppercase c := [c.toUpper]
  base64Decode _ := none
  fromUtf8Lossy bytes := (decode bytes).getD []
  resolveUserFromToken _ := none
  journalEnabled := false
  allowPeer _ _ := false
  isTarget _ := false
  findByEmail _ := some none
  checkHasPermission _ _ := false
  gatePaused := false
  ensureLocalInbox id := some id
  extractEnvelopeFromSmtp _ _ _ := true
  journalIngest _ := true

end Bichon.Smtp
