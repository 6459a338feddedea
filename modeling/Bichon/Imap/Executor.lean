import Bichon.Imap.Session

/-!
# Fetching messages

`uid_batch_retrieve_emails` fetches the sizes of a set of messages and then the bodies of
those that are not too large, and hands each body to the extractor as it arrives. A body
that cannot be parsed is skipped, any other error ends the batch. The incremental
downloads first list what is behind the last known UID and then fetch it batch by batch.

The extractor is a parameter. The hint about a slow server that goes with the progress is
left out, and so are the pauses.
-/

namespace Bichon.Imap

open Account Archive Gated ByteFile Texts

def maxNetworkRetries : Nat := 3

def defaultBatchSize : Nat := 30

def defaultMaxEmailSize : Nat := 100 * 1024 * 1024

/-- The largest size that is fetched. -/
def sizeLimit (account : AccountModel) : Nat := account.maxEmailSizeBytes.getD defaultMaxEmailSize

structure BatchFetchOutcome where
  stored : Nat := 0
  throttled : Bool := false
  parseSkipped : Nat := 0
  deriving DecidableEq

def streamCancelled : BichonError := ⟨"Stream cancelled", .internalError⟩

def userStopped : Note := ⟨"User stopped or system shutdown", none⟩

/-- A size of zero is unknown, and such a message is fetched. -/
def Fetch.oversized (f : Fetch) (limit : Nat) : Bool :=
  f.size.getD 0 != 0 && decide (limit < f.size.getD 0)

def collect {α : Type} (r : Request) (f : List Fetch → α) : Sync α := ask r fun a =>
    match a.refused, a.brokeOff with
    | some e, _ => .error e.classified
    | none, some e => .error e.classified
    | none, none => .ok (f a.messages)

/-- `nums.chunks(size)`, for at most so many chunks as there are numbers. -/
def chunksOf {α : Type} (size : Nat) : Nat → List α → List (List α)
  | _, [] => []
  | 0, _ => []
  | fuel + 1, xs => xs.take size :: chunksOf size fuel (xs.drop size)

/-- The batches. A batch size of zero is a panic. -/
def generateUidSequenceHashset (uids : List Nat) (chunkSize : Nat) : Sync (List (List Nat)) :=
  if chunkSize = 0 then throw panicked else return chunksOf chunkSize uids.length uids

section

variable (core : Delivery → Sync ExtractOutcome) (account : AccountModel) (mailboxId : Nat)
  (progress : Nat → Sync Unit)

def unparseableNote (mailboxId uid : Nat) : Note :=
  ⟨"Skipped unparseable email (mailbox " ++ toString mailboxId ++ ", uid " ++ toString uid ++
    "): message not archived; gap-fill will keep detecting it", none⟩

/-- The loop over the stream of the bodies. -/
def receiveBodies (brokeOff : Option ImapError) :
    List StreamEvent → BatchFetchOutcome → (stalls : Nat) → Sync BatchFetchOutcome
  | [], seen, stalls =>
    match brokeOff with
    | some e => do
      Prog.ignoring (progress seen.stored)
      throw e.classified
    | none => return { seen with throttled := decide (2 ≤ stalls) }
  | .stall :: events, seen, stalls => do
    if ← isCancelled then
      Prog.ignoring (progress seen.stored)
      throw streamCancelled
    else
      progress seen.stored
      receiveBodies brokeOff events seen (stalls + 1)
  | .message f :: events, seen, _ => do
    if ← isCancelled then
      Prog.ignoring (progress seen.stored)
      throw streamCancelled
    else
      match ← Prog.attempt (extractEnvelopeAndStoreIt core f account.id mailboxId) with
      | .ok () =>
        progress (seen.stored + 1)
        receiveBodies brokeOff events { seen with stored := seen.stored + 1 } 0
      | .error e =>
        if e.code = .emailParseError then
          Prog.ignoring (appendSessionError account.id (unparseableNote mailboxId (f.uid.getD 0)))
          receiveBodies brokeOff events { seen with parseSkipped := seen.parseSkipped + 1 } 0
        else
          Prog.ignoring (progress seen.stored)
          throw e

def uidBatchRetrieveEmails (folder : Text) (uids : List Nat) : Sync BatchFetchOutcome := do
  let acceptable ← collect (.uidFetch folder (.list uids) .sizes) fun fs =>
    (fs.filter (!·.oversized (sizeLimit account))).map (·.uid.getD 0)
  if acceptable.isEmpty then return {}
  else
    let a ← command (.uidFetch folder (.list (sorted acceptable)) .bodies) ImapError.classified id
    receiveBodies core account mailboxId progress a.brokeOff a.events {} 0

/-- The `loop` around a batch: after a network error it is tried again on a new connection,
`left` more times. -/
def retrieveWithRetry (folder : Text) (uids : List Nat) (onRetry : Sync Unit) :
    (left : Nat) → Sync (Except BichonError BatchFetchOutcome)
  | 0 => Prog.attempt (uidBatchRetrieveEmails core account mailboxId progress folder uids)
  | left + 1 => do
    match ← Prog.attempt (uidBatchRetrieveEmails core account mailboxId progress folder uids) with
    | .ok outcome => return .ok outcome
    | .error e =>
      if e.code = .networkError then
        onRetry
        match ← Prog.attempt (createConnection account.id) with
        | .error _ => return .error e
        | .ok () =>
          match ← Prog.attempt (examine folder ImapError.internal) with
          | .error e' =>
            appendSessionError account.id
              ⟨"Re-examine failed after reconnect: " ++ e'.message, none⟩
            return .error e
          | .ok _ => retrieveWithRetry folder uids onRetry left
      else return .error e

end

/-! ## New messages -/

/-- `(uid, size, internal_date)`. -/
abbrev Entry := Nat × Nat × Int

section

variable (account : AccountModel) (mailbox : MailBox)

/-- The loop over the list of messages, with the number of those that are too large. -/
def collectEntries : List Fetch → List Entry → (skippedOversized : Nat) → Sync (List Entry × Nat)
  | [], entries, skipped => return (entries, skipped)
  | f :: fs, entries, skipped => do
    if ← isCancelled then
      updateSessionStatus account.id .cancelled (some userStopped)
      throw streamCancelled
    else
      match f.uid with
      | none => collectEntries fs entries skipped
      | some uid =>
        if f.oversized (sizeLimit account) then collectEntries fs entries (skipped + 1)
        else
          collectEntries fs (entries ++ [(uid, f.size.getD 0, f.internalDate.getD 0)]) skipped

def collectRangeUids (start : Nat) : Sync (List Entry × Nat) := do
  let a ← ask (.uidFetch mailbox.name (.startingAt start) .sizesAndDates) .ok
  let folder := String.ofList mailbox.name
  match a.refused with
  | some e =>
    Prog.ignoring (appendSessionError account.id
      ⟨"UID FETCH failed in [" ++ folder ++ "]: " ++ e.debug, none⟩)
    throw e.classified
  | none =>
    let found ← collectEntries account a.messages [] 0
    match a.brokeOff with
    | some e =>
      Prog.ignoring (appendSessionError account.id
        ⟨"UID FETCH stream failed in [" ++ folder ++ "]: " ++ e.debug, none⟩)
      throw e.classified
    | none => return found

/-- `empty_enumeration_anomaly`: the server claims to have what it did not list. -/
def emptyEnumerationAnomaly (start : Nat) (uidNext : Option Nat) : Bool := uidNext.any (start < ·)

def rangePurged : Note :=
  ⟨"UID FETCH range returned empty; tail UIDs appear to have been purged. " ++
    "highest_uid unchanged, will retry on next sync.", none⟩

def noNewEmails : Note := ⟨"No new emails found.", none⟩

/-- Nothing to fetch, and the watermark stays. -/
def nothingNew (anomaly : Bool) : Sync (Option Nat) := do
  updateFolderProgress account.id mailbox.name 0 0 .success
    (some (if anomaly then rangePurged else noNewEmails))
  return none

variable (core : Delivery → Sync ExtractOutcome)

/-- The loop over the batches. It stops early when the count has reached the plan. -/
def downloadRange (planned : Nat) : List (List Nat) → (count : Nat) → Sync Nat
  | [], count => return count
  | batch :: batches, count => do
    if ← isCancelled then
      updateSessionStatus account.id .cancelled (some userStopped)
      throw streamCancelled
    else
      match ← retrieveWithRetry core account mailbox.id
          (fun n => updateFolderProgress account.id mailbox.name planned n .downloading none)
          mailbox.name batch (pure ()) maxNetworkRetries with
      | .error e =>
        appendSessionError account.id ⟨"", some e⟩
        throw e
      | .ok outcome =>
        let count := count + outcome.stored
        updateFolderProgress account.id mailbox.name planned count .downloading none
        if count = planned then return count else downloadRange planned batches count

def fetchNewMailRange (start : Nat) (uidNext : Option Nat) : Sync (Option Nat) := do
  let (entries, skipped) ← collectRangeUids account mailbox start
  let uids := (sorted (entries.map (·.1))).filter (start ≤ ·)
  if uids.isEmpty then
    nothingNew account mailbox (skipped == 0 && emptyEnumerationAnomaly start uidNext)
  else
    let planned := uids.length
    let batches ← generateUidSequenceHashset uids (account.downloadBatchSize.getD defaultBatchSize)
    updateFolderProgress account.id mailbox.name planned 0 .downloading none
    let count ← downloadRange account mailbox core planned batches 0
    updateFolderProgress account.id mailbox.name count count .success none
    return uids.getLast?

def filterBeforeDate (entries : List Entry) (date : Date) : List Nat :=
  sorted ((entries.filter fun e => dayOf e.2.2 < date).map (·.1))

/-- The loop over the batches of a download up to a date, without a second try. -/
def downloadBefore (planned : Nat) : List (List Nat) → (count : Nat) → Sync Nat
  | [], count => return count
  | batch :: batches, count => do
    if ← isCancelled then
      updateSessionStatus account.id .cancelled (some userStopped)
      updateFolderProgress account.id mailbox.name planned count .cancelled none
      throw streamCancelled
    else
      let outcome ← uidBatchRetrieveEmails core account mailbox.id
        (fun n => Prog.ignoring
          (updateFolderProgress account.id mailbox.name planned n .downloading none))
        mailbox.name batch
      let count := count + outcome.stored
      updateFolderProgress account.id mailbox.name planned count .downloading none
      downloadBefore planned batches count

def fetchNewMailWithBefore (start : Nat) (date : Date) (uidNext : Option Nat) :
    Sync (Option Nat) := do
  let (entries, skipped) ← collectRangeUids account mailbox start
  let uids := (filterBeforeDate entries date).filter (start ≤ ·)
  if uids.isEmpty then
    nothingNew account mailbox
      (skipped == 0 && entries.isEmpty && emptyEnumerationAnomaly start uidNext)
  else
    let planned := uids.length
    let batches ← generateUidSequenceHashset uids (account.downloadBatchSize.getD defaultBatchSize)
    updateFolderProgress account.id mailbox.name planned 0 .pending none
    let count ← downloadBefore account mailbox core planned batches 0
    updateFolderProgress account.id mailbox.name count count .success none
    return uids.getLast?

def fetchNewMail (start : Nat) (before : Option Date) : Sync (Option Nat) := do
  let uidNext ← examine mailbox.name ImapError.classified
  match before with
  | some date => fetchNewMailWithBefore account mailbox core start date uidNext
  | none => fetchNewMailRange account mailbox core start uidNext

end

/-! ## Message-IDs of the server -/

/-- The loop of `fetch_uid_metadata`. -/
def collectMetadata : List Fetch → List (Nat × Option Text) → Sync (List (Nat × Option Text))
  | [], found => return found
  | f :: fs, found => do
    if ← isCancelled then throw streamCancelled
    else collectMetadata fs ((f.uid.getD 0, f.header.bind parseMessageIdHeader) :: found)

/-- The last response for a UID is found first. -/
def fetchUidMetadata (folder : Text) (uids : List Nat) : Sync (List (Nat × Option Text)) := do
  let a ← command (.uidFetch folder (.list uids) .headers) ImapError.classified id
  let found ← collectMetadata a.messages []
  match a.brokeOff with
  | some e => throw e.classified
  | none => return found

end Bichon.Imap
