import Bichon.Imap.Executor

/-!
# The downloads of an account

A folder without a row is downloaded as a whole or by date, and a mailbox with another
`UIDVALIDITY` is compared with the index message by message. Both give the new watermark.

A cancelled or failed download of a whole folder ends with `Ok(None)`, the other ones
with an error. The semaphore of the downloads is never closed.
-/

namespace Bichon.Imap

open Account Archive Gated ByteFile Texts

open Database (busy)

inductive FetchDirection
  | since
  | before
  deriving DecidableEq

section

variable (core : Delivery → Sync ExtractOutcome) (account : AccountModel)

/-! ## Whole folders -/

/-- An error is shown for the folder and in the session before it is returned. -/
def showingFailure {α : Type} (mailbox : MailBox) (text : String) (body : Sync α) : Sync α := do
  match ← Prog.attempt body with
  | .ok a => return a
  | .error e =>
    updateFolderProgress account.id mailbox.name 0 0 .failed (some ⟨text, some e⟩)
    appendSessionError account.id ⟨text, some e⟩
    throw e

def skippedNote (mailbox : MailBox) (skipped : Nat) : Note :=
  ⟨"Mailbox '" ++ String.ofList mailbox.name ++ "': " ++ toString skipped ++
    " email(s) could not be parsed and were skipped (not archived); gap-fill will keep " ++
    "detecting them", none⟩

def batchFailed (index : Nat) (e : BichonError) : Note :=
  ⟨"Batch " ++ toString index ++ " failed: ", some e⟩

/-- How the loop over the batches of a folder ends. -/
structure FolderProgress where
  stopped : Bool
  processed : Nat
  parseSkipped : Nat
  deriving DecidableEq

/-- The loop of the two downloads of a whole folder; they differ in what they report before
a batch and before a second try. -/
def downloadBatches (mailbox : MailBox) (planned : Nat) (heartbeat onRetry : Sync Unit) :
    List (List Nat) → (index processed skipped : Nat) → Sync FolderProgress
  | [], _, processed, skipped => return ⟨false, processed, skipped⟩
  | batch :: batches, index, processed, skipped => do
    if ← isCancelled then
      updateSessionStatus account.id .cancelled (some userStopped)
      updateFolderProgress account.id mailbox.name planned processed .cancelled none
      return ⟨true, processed, skipped⟩
    else
      heartbeat
      match ← retrieveWithRetry core account mailbox.id
          (fun n => Prog.ignoring
            (updateFolderProgress account.id mailbox.name planned n .downloading none))
          mailbox.name batch onRetry maxNetworkRetries with
      | .ok outcome =>
        let processed := processed + outcome.stored
        updateFolderProgress account.id mailbox.name planned processed .downloading none
        downloadBatches mailbox planned heartbeat onRetry batches (index + 1) processed
          (skipped + outcome.parseSkipped)
      | .error e =>
        appendSessionError account.id (batchFailed index e)
        updateFolderProgress account.id mailbox.name planned processed .failed
          (some (batchFailed index e))
        return ⟨true, processed, skipped⟩

/-- A watermark is returned only when no batch has failed. -/
def downloadFolder (mailbox : MailBox) (uids : List Nat) (announce heartbeat onRetry : Sync Unit) :
    Sync (Option Nat) := do
  if uids.isEmpty then
    updateFolderProgress account.id mailbox.name 0 0 .success none
    return none
  else
    let planned := uids.length
    let batches ← generateUidSequenceHashset uids (account.downloadBatchSize.getD defaultBatchSize)
    announce
    let done ← downloadBatches core account mailbox planned heartbeat onRetry batches 0 0 0
    if done.stopped then return none
    else
      if 0 < done.parseSkipped then
        Prog.ignoring (appendSessionError account.id (skippedNote mailbox done.parseSkipped))
      updateFolderProgress account.id mailbox.name planned done.processed .success none
      return uids.getLast?

def fetchAndSaveByDate (date : Date) (mailbox : MailBox) (direction : FetchDirection) :
    Sync (Option Nat) := do
  showingFailure account mailbox "Connection failed for this folder: " (createConnection account.id)
  let uids ← showingFailure account mailbox
    ("UID search failed in [" ++ String.ofList mailbox.name ++ "]: ")
    (uidSearch mailbox.name
      [match direction with
        | .since => .since date
        | .before => .before date])
  let uids := sorted uids
  downloadFolder core account mailbox uids
    (updateFolderProgress account.id mailbox.name uids.length 0 .pending none) (pure ()) (pure ())

def fetchAndSaveFullMailbox (mailbox : MailBox) : Sync (Option Nat) := do
  showingFailure account mailbox "Connection failed for this folder: " (createConnection account.id)
  let floor ← retentionFloorDate account
  let uids ← showingFailure account mailbox
    ("UID SEARCH failed in [" ++ String.ofList mailbox.name ++ "]: ")
    (uidSearch mailbox.name
      [match floor with
        | some floor => .since floor
        | none => .all])
  downloadFolder core account mailbox (sorted uids) (pure ()) (do
      setCurrentFolder account.id mailbox.name
      setCurrentFolder account.id mailbox.name)
    (Prog.ignoring (setCurrentFolder account.id mailbox.name))

/-! ## Another `UIDVALIDITY` -/

def cancelledError : BichonError := ⟨"Cancelled", .internalError⟩

/-- The UIDs whose Message-ID is not in the index. -/
def missingUids (remoteIds : List (Nat × Option Text)) (localIds : List Text) :
    List Nat → List Nat → Sync (List Nat)
  | [], missing => return missing
  | uid :: uids, missing => do
    if ← isCancelled then throw cancelledError
    else if (remoteIds.lookup uid).join.any localIds.contains then
      missingUids remoteIds localIds uids missing
    else missingUids remoteIds localIds uids (missing ++ [uid])

/-- The loop over the missing messages, without a second try. -/
def downloadMissing (mailbox : MailBox) (planned : Nat) :
    List (List Nat) → (index downloaded skipped : Nat) → Sync FolderProgress
  | [], _, downloaded, skipped => return ⟨false, downloaded, skipped⟩
  | batch :: batches, index, downloaded, skipped => do
    if ← isCancelled then
      updateFolderProgress account.id mailbox.name planned downloaded .cancelled none
      throw cancelledError
    else
      match ← Prog.attempt (uidBatchRetrieveEmails core account mailbox.id
          (fun n => Prog.ignoring
            (updateFolderProgress account.id mailbox.name planned n .downloading none))
          mailbox.name batch) with
      | .ok outcome =>
        let downloaded := downloaded + outcome.stored
        updateFolderProgress account.id mailbox.name planned downloaded .downloading none
        downloadMissing mailbox planned batches (index + 1) downloaded
          (skipped + outcome.parseSkipped)
      | .error e =>
        appendSessionError account.id (batchFailed index e)
        updateFolderProgress account.id mailbox.name planned downloaded .failed
          (some (batchFailed index e))
        throw e

/-- The search of the UIDs that are compared. -/
def reconcileCriteria : Sync (List SearchKey) := do
  let floor ← retentionFloorDate account
  let since ← account.dateSince.mapM sinceDate
  let before ← account.dateBefore.mapM calculateDate
  let criteria := since.toList.map .since ++ before.toList.map .before ++ floor.toList.map .since
  return if criteria.isEmpty then [.all] else criteria

/-- The download of what is missing. -/
def fetchMissing (mailbox : MailBox) (missing : List Nat) : Sync Unit := do
  let planned := missing.length
  updateFolderProgress account.id mailbox.name planned 0 .downloading
    (some ⟨"UIDVALIDITY changed, downloading missing emails...", none⟩)
  createConnection account.id
  let _ ← examine mailbox.name ImapError.internal
  let batches ← generateUidSequenceHashset missing (account.downloadBatchSize.getD defaultBatchSize)
  let done ← downloadMissing core account mailbox planned batches 0 0 0
  if 0 < done.parseSkipped then
    Prog.ignoring (appendSessionError account.id (skippedNote mailbox done.parseSkipped))
  updateFolderProgress account.id mailbox.name planned done.processed .success none

def reconcileUidValidityChange (localMailbox remoteMailbox : MailBox) : Sync (Option Nat) := do
  createConnection account.id
  let _ ← examine remoteMailbox.name ImapError.internal
  let criteria ← reconcileCriteria account
  let found ← command (.uidSearch remoteMailbox.name criteria) ImapError.internal (·.uids.dedup)
  let remoteUids := sorted found
  if remoteUids.isEmpty then
    updateFolderProgress account.id remoteMailbox.name 0 0 .success
      (some ⟨"UIDVALIDITY changed but remote mailbox is empty.", none⟩)
    return none
  else
    let remoteIds ← fetchUidMetadata remoteMailbox.name remoteUids
    let localIds ← query (.messageIds account.id localMailbox.id) (·.texts)
    let missing ← missingUids remoteIds localIds remoteUids []
    if missing.isEmpty then
      updateFolderProgress account.id remoteMailbox.name 0 0 .success none
    else fetchMissing core account remoteMailbox missing
    return remoteUids.getLast?

end

end Bichon.Imap
