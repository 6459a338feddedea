import Bichon.Archive.Ingest
import Bichon.Lib.Transcript
import Bichon.Lib.Utf8
import Bichon.Lib.Texts

/-!
# What a download asks of the outside

A download talks to the server, to the stores, to the clock and to the task that may cancel
it. Each question is a `Request`, and an `Answer` has a place for everything that can be
asked; a request reads its own part of it. The server answers as it likes: it leaves out
messages and bodies, it breaks off, and it reports no `UIDVALIDITY`.

A session has one mailbox selected, and the requests on it name that mailbox. A date is a
number of days, and a set of UIDs a list; the texts in which they are sent are left out.
The mailbox is named by its decoded name.
-/

namespace Bichon.Imap

open Account Archive Gated ByteFile Texts

open Database (busy)

inductive IoErrorKind
  | brokenPipe
  | connectionReset
  | connectionAborted
  | timedOut
  | unexpectedEof
  | other
  deriving DecidableEq

inductive ImapErrorKind
  | io (kind : IoErrorKind)
  | connectionLost
  | other
  deriving DecidableEq

/-- `async_imap::error::Error`, with what `{:#?}` makes of it. -/
structure ImapError where
  kind : ImapErrorKind
  debug : String
  deriving DecidableEq

def classifyImapError (e : ImapError) : ErrorCode :=
  match e.kind with
  | .io .other => .imapCommandFailed
  | .io _ => .networkError
  | .connectionLost => .networkError
  | .other => .imapCommandFailed

namespace ImapError

/-- `raise_error!(format!("{:#?}", e), classify_imap_error(&e))`. -/
def classified (e : ImapError) : BichonError := ⟨e.debug, classifyImapError e⟩

/-- `raise_error!(format!("{:#?}", e), ErrorCode::InternalError)`. -/
def internal (e : ImapError) : BichonError := ⟨e.debug, .internalError⟩

end ImapError

/-- A response of the server to a `FETCH`. -/
structure Fetch where
  uid : Option Nat
  size : Option Nat := none
  /-- in milliseconds -/
  internalDate : Option Int := none
  body : Option Bytes := none
  header : Option Bytes := none

/-- What is seen of the stream of responses: one of them, or a silence of five seconds. -/
inductive StreamEvent
  | stall
  | message (f : Fetch)

def StreamEvent.message? : StreamEvent → Option Fetch
  | .stall => none
  | .message f => some f

inductive UidSet
  | list (uids : List Nat)
  /-- `start:*` -/
  | startingAt (start : Nat)

inductive FetchItems
  /-- `(UID RFC822.SIZE)` -/
  | sizes
  /-- `(UID RFC822.SIZE INTERNALDATE)` -/
  | sizesAndDates
  /-- `(UID INTERNALDATE RFC822.SIZE BODY.PEEK[])` -/
  | bodies
  /-- `(UID BODY.PEEK[HEADER])` -/
  | headers
  deriving DecidableEq

/-- A day, as the number of days since the first of 1970. -/
abbrev Date := Int

inductive SearchKey
  | all
  | since (date : Date)
  | before (date : Date)
  deriving DecidableEq

inductive FolderStatus
  | pending
  | downloading
  | success
  | failed
  | cancelled
  deriving DecidableEq

inductive DownloadStatus
  | running
  | success
  | failed
  | cancelled
  deriving DecidableEq

/-- A text for the user, and the error that is printed at its end. -/
structure Note where
  text : String
  cause : Option BichonError := none
  deriving DecidableEq

/-- The updates of the download state of an account. -/
inductive Report
  | folderProgress (folder : Text) (planned current : Nat) (status : FolderStatus)
      (message : Option Note)
  | sessionError (error : Note)
  | sessionStatus (status : DownloadStatus) (message : Option Note)
  | currentFolder (folder : Text)
  | folderDetails (folders : List Text)
  deriving DecidableEq

/-- How the extractor ends: with an outcome, with `EmailParseError`, or with an internal
error. -/
inductive Extraction
  | extracted (outcome : ExtractOutcome)
  | unparseable (message : String)
  | failed (message : String)
  deriving DecidableEq

def Extraction.result : Extraction → Except BichonError ExtractOutcome
  | .extracted outcome => .ok outcome
  | .unparseable message => .error ⟨message, .emailParseError⟩
  | .failed message => .error ⟨message, .internalError⟩

inductive Request
  | store (c : Command)
  | connect (accountId : Nat)
  | examine (mailbox : Text)
  /-- a connection of its own, and `STATUS (UIDVALIDITY)` -/
  | uidValidity (accountId : Nat) (mailbox : Text)
  | uidSearch (mailbox : Text) (criteria : List SearchKey)
  | uidFetch (mailbox : Text) (uids : UidSet) (items : FetchItems)
  | isCancelled
  | report (accountId : Nat) (r : Report)
  | now
  | sinceDate (d : DateSince)
  | calculateDate (d : RelativeDate)
  | messageIds (accountId mailboxId : Nat)
  | fresh
  | extract (d : Delivery)

structure Answer where
  /-- of a command on the stores, of a connection, of a date -/
  failure : Option BichonError := none
  /-- the server did not take the command -/
  refused : Option ImapError := none
  /-- the responses to a `FETCH`, and the error behind them -/
  events : List StreamEvent := []
  brokeOff : Option ImapError := none
  uids : List Nat := []
  /-- `UIDNEXT` of `EXAMINE`, `UIDVALIDITY` of `STATUS` -/
  number : Option Nat := none
  cancelled : Bool := false
  time : Int := 0
  date : Date := 0
  texts : List Text := []
  fresh : Fresh := ⟨"", fun _ => "", 0⟩
  extraction : Extraction := .extracted .imported

/-- Nothing went wrong, and nothing was asked for. -/
def Answer.fine : Answer := {}

def Answer.messages (a : Answer) : List Fetch := a.events.filterMap StreamEvent.message?

/-- A function of the source that downloads. -/
abbrev Sync (α : Type) := ExceptT BichonError (Prog Request Answer Stores) α

section

variable {α : Type}

def ask (r : Request) (f : Answer → Except BichonError α) : Sync α :=
  Prog.call r fun a _ => .done (f a)

def command (r : Request) (raise : ImapError → BichonError) (f : Answer → α) : Sync α :=
  ask r fun a =>
    match a.refused with
    | some e => .error (raise e)
    | none => .ok (f a)

/-- A question that can fail. -/
def query (r : Request) (f : Answer → α) : Sync α := ask r fun a =>
    match a.failure with
    | some e => .error e
    | none => .ok (f a)

end

def createConnection (accountId : Nat) : Sync Unit := query (.connect accountId) fun _ => ()

/-- `session.examine`, which returns `UIDNEXT`. -/
def examine (mailbox : Text) (raise : ImapError → BichonError) : Sync (Option Nat) :=
  command (.examine mailbox) raise (·.number)

def isCancelled : Sync Bool := ask .isCancelled fun a => .ok a.cancelled

/-- `ImapExecutor::uid_search`: a set of UIDs. -/
def uidSearch (mailbox : Text) (criteria : List SearchKey) : Sync (List Nat) := do
  let _ ← examine mailbox ImapError.classified
  command (.uidSearch mailbox criteria) ImapError.classified (·.uids.dedup)

def sorted (uids : List Nat) : List Nat := uids.insertionSort (· ≤ ·)

def sinceDate (d : DateSince) : Sync Date := query (.sinceDate d) (·.date)

def calculateDate (d : RelativeDate) : Sync Date := query (.calculateDate d) (·.date)

def dayOf (ms : Int) : Date := ms / dayMs

/-- `DateTime::from_timestamp_millis`, for the years from -262143 to 262142. -/
def fromTimestampMillis (ms : Int) : Option Date :=
  if -96465292 ≤ dayOf ms ∧ dayOf ms ≤ 95026236 then some (dayOf ms) else none

/-- The day of the cutoff, for an account whose window is active. -/
def floorAt (account : AccountModel) (now : Int) : Option Date :=
  if account.retentionDaysEffective = 0 || account.isOnHold then none
  else fromTimestampMillis (retentionCutoffMs now account.retentionDaysEffective)

/-- The clock is read for an active window only. -/
def retentionFloorDate (account : AccountModel) : Sync (Option Date) :=
  if account.retentionDaysEffective = 0 || account.isOnHold then return none
  else ask .now fun a => .ok (floorAt account a.time)

/-! ## The download state -/

section

variable (accountId : Nat)

/-- `DownloadState::update_state`: nothing is written for an account without a state. -/
def updateState (r : Report) : Sync Unit := do
  if ← Prog.read (·.downloadStates.contains accountId) then
    Prog.admitted busy (ask (.report accountId r) fun a =>
      match a.failure with
      | some e => .error ⟨e.message, .internalError⟩
      | none => .ok ())

def updateFolderProgress (folder : Text) (planned current : Nat)
    (status : FolderStatus) (message : Option Note) : Sync Unit :=
  updateState accountId (.folderProgress folder planned current status message)

def appendSessionError (error : Note) : Sync Unit := updateState accountId (.sessionError error)

def updateSessionStatus (status : DownloadStatus) (message : Option Note) :
    Sync Unit :=
  updateState accountId (.sessionStatus status message)

def setCurrentFolder (folder : Text) : Sync Unit := updateState accountId (.currentFolder folder)

end

/-! ## The extractor -/

/-- The extractor as something that is asked. -/
def askExtractor (d : Delivery) : Sync ExtractOutcome := ask (.extract d) (·.extraction.result)

/-- A response without a body is skipped, and that is no error. -/
def extractEnvelopeAndStoreIt (core : Delivery → Sync ExtractOutcome) (f : Fetch)
    (accountId mailboxId : Nat) : Sync Unit :=
  Prog.admitted busy <|
    match f.body with
    | none => return ()
    | some body => do
      let _ ← core
        { body
          uid := f.uid.getD 0
          size := f.size.getD body.length
          internalDate := f.internalDate.getD 0
          accountId
          mailboxId }

/-! ## Message-IDs -/

/-- The spellings of the header that are looked for. -/
def messageIdHeaders : List Text :=
  ["Message-ID:".toList, "Message-Id:".toList, "Message-id:".toList]

def stripBrackets (value : Text) : Text :=
  let value := (value.dropPrefix? ['<']).getD value
  ((value.reverse.dropPrefix? ['>']).map List.reverse).getD value

def parseMessageIdHeader (headerBytes : Bytes) : Option Text := do
  let header ← Utf8.decode headerBytes
  (header.splitOn '\n').findSome? fun line => do
    let value ← messageIdHeaders.findSome? fun h => line.dropPrefix? h
    let stripped := stripBrackets (trim value)
    if stripped.isEmpty then none else some stripped

end Bichon.Imap
