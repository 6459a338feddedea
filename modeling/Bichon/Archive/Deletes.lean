import Mathlib.Algebra.Group.Int.Defs
import Bichon.Archive.Stores
import Bichon.Database.Update

/-!
# The operations that delete

The deletions of messages, mailboxes and accounts, the sweep of the retention, and the
legal hold, as programs over the stores. Each of them awaits the write gate, the lock of
an index writer, and the answers of the stores, and others run in between.

A set is a list here; only its members matter. The audit events and the scheduling of the
downloads are left out.
-/

namespace Bichon.Archive

open Account Gated

open Database (busy)

/-- A function of the source that changes the stores or fails. -/
abbrev Op (α : Type) := ExceptT BichonError (Prog Command (Option BichonError) Stores) α

def run (c : Command) : Op Unit := Prog.call c fun o _ => .done (o.elim (.ok ()) .error)

def sure (c : Command) : Op Unit := Prog.call c fun _ _ => .done (.ok ())

def search {α : Type} (x : IndexName) (f : Stores → α) : Op α :=
  Prog.call (.search x) fun o s => .done (o.elim (.ok (f s)) .error)

/-- `index_writer.lock()`, up to the end of the body. -/
def withWriter {α : Type} (x : IndexName) (body : Op α) : Op α :=
  Prog.call (.lock x) fun _ _ => Prog.bind body fun r => .call (.unlock x) fun _ _ => .done r

/-- `{:#?}` of `DbError::NotFound`. -/
def debugNotFound (collection key : String) : String :=
  "NotFound(\n    \"" ++ collection ++ "\",\n    \"" ++ key ++ "\",\n)"

/-- `update_impl`: the row is read and written in two steps. -/
def updateImpl {R : Type} (collection : String) (id : Nat) (find : Stores → Option R)
    (update : R → R) (write : R → Command) : Op R :=
  Prog.admitted busy do
    match ← Prog.read find with
    | none => throw ⟨debugNotFound collection (toString id), .internalError⟩
    | some current =>
      run (write (update current))
      return update current

def deleteImpl (collection : String) (id : Nat) (existed : Stores → Bool) (delete : Command) :
    Op Unit :=
  Prog.admitted busy (ExceptT.mk (Prog.call delete fun o s => .done (match o with
      | some e => .error e
      | none =>
        if existed s then .ok ()
        else .error ⟨collection ++ " '" ++ toString id ++ "' not found for deletion",
          .resourceNotFound⟩)))

def getAccount (id : Nat) : Op AccountModel := do
  match ← Prog.read (·.account id) with
  | some account => return account
  | none => throw ⟨"Account with ID '" ++ toString id ++ "' not found", .resourceNotFound⟩

def getMailBox (id : Nat) : Op MailBox := do
  match ← Prog.read (·.mailbox id) with
  | some mailbox => return mailbox
  | none => throw ⟨"mailbox " ++ toString id ++ " not found", .internalError⟩

/-! ## Documents and blobs -/

/-- The hashes and the leaves of the documents about to be deleted. -/
structure Collected where
  keys : List DedupKey
  attachmentHashes : List String
  leaves : List LeafRecord

namespace Collected

def ofDocs (docs : List EnvelopeDoc) : Collected where
  keys := docs.map (·.key)
  attachmentHashes := docs.flatMap (·.attachmentHashes)
  leaves := docs.map (·.leaf)

def append (c d : Collected) : Collected :=
  ⟨c.keys ++ d.keys, c.attachmentHashes ++ d.attachmentHashes, c.leaves ++ d.leaves⟩

def isEmpty (c : Collected) : Bool := c.keys.isEmpty && c.attachmentHashes.isEmpty

/-- Mails and attachments share the keys of the blobs. -/
def candidates (c : Collected) : List String := c.keys.map (·.contentHash) ++ c.attachmentHashes

end Collected

def collectContentHashes (q : DocQuery) : Op Collected :=
  search .envelopes fun s => .ofDocs (s.envelopes.committed.filter (·.matches q))

/-- The loops around `collect_content_hashes`. -/
def collectAll : List DocQuery → Op Collected
  | [] => return ⟨[], [], []⟩
  | q :: qs => do
    let c ← collectContentHashes q
    let cs ← collectAll qs
    return c.append cs

/-- The two counts of `cleanup_unused_content`, taken together. -/
def referenced (docs : List EnvelopeDoc) (hash : String) : Bool :=
  docs.any fun d => d.contentHash == hash || d.attachmentHashes.contains hash

def cleanupUnusedContent (c : Collected) : Op Unit := do
  sure (.fatalCommit .envelopes)
  let toDelete ← search .envelopes fun s =>
    c.candidates.filter (!referenced s.envelopes.committed ·)
  if toDelete.isEmpty then return () else run (.deleteBlobs toDelete)

def cleanupIfAny (found : Collected) : Op Unit :=
  if found.isEmpty then return () else cleanupUnusedContent found

/-- What the deletions of envelopes have in common: the queries, what is done before the
blobs are looked at, and which entries the cache keeps. -/
def purgeEnvelopes (queries : List DocQuery) (between : Op Unit)
    (keep : Collected → DedupKey → Bool) : Op Unit := do
  let found ← collectAll queries
  withWriter .envelopes do
    Prog.each (fun q => run (.deleteQuery .envelopes q)) queries
    run (.commit .envelopes)
    between
    cleanupIfAny found
    sure (.dedupRemove (keep found))
    sure (.recordDeletions found.leaves)

/-- What the deletions of attachments have in common. -/
def purgeAttachments (queries : List DocQuery) : Op Unit :=
  Prog.admitted busy <| withWriter .attachments do
    Prog.each (fun q => run (.deleteQuery .attachments q)) queries
    run (.commit .attachments)

section

variable (accountId : Nat)

def deleteAccountAttachments : Op Unit := purgeAttachments [.account accountId]

/-- The attachments are deleted while the admission and the lock of this function are
held, under an admission of their own. -/
def deleteAccountEnvelopes : Op Unit :=
  Prog.admitted busy <| purgeEnvelopes [.account accountId] (deleteAccountAttachments accountId)
    fun _ key => key.accountId != accountId

def deleteMailboxEnvelopes (mailboxIds : List Nat) : Op Unit :=
  if mailboxIds.isEmpty then return ()
  else Prog.admitted busy <| purgeEnvelopes (mailboxIds.map (.mailbox accountId)) (pure ())
    fun _ key => !mailboxIds.contains key.mailboxId

def deleteMailboxAttachments (mailboxIds : List Nat) : Op Unit :=
  if mailboxIds.isEmpty then return () else purgeAttachments (mailboxIds.map (.mailbox accountId))

end

/-- The ids of a request, by account. -/
abbrev Request := List (Nat × List String)

def Request.queries (request : Request) : List DocQuery :=
  request.flatMap fun (accountId, ids) => ids.dedup.map (.envelope accountId)

def deleteEnvelopesMultiAccount (request : Request) : Op Unit :=
  if request.isEmpty then return ()
  else Prog.admitted busy <| purgeEnvelopes request.queries (pure ())
    fun found key => !found.keys.contains key

def deleteAttachmentsMultiAccount (request : Request) : Op Unit :=
  if request.isEmpty then return () else purgeAttachments request.queries

/-- The attachments of the envelopes stay in their index. -/
def deleteEnvelopesBefore (accountId : Nat) (cutoffMs : Int) : Op Unit := do
  let count ← search .envelopes fun s =>
    (s.envelopes.committed.filter (·.matches (.before accountId cutoffMs))).length
  if count = 0 then return ()
  else
    Prog.admitted busy (purgeEnvelopes [.before accountId cutoffMs] (pure ())
      fun found key => !found.keys.contains key)

/-! ## Messages, mailboxes and accounts -/

/-- The refusal of an account on hold. -/
def heldError (account : AccountModel) (what : String) : BichonError :=
  ⟨"Account " ++ toString account.id ++ " (" ++ account.email ++ ") is under a legal hold; " ++
    what ++ " is disabled while the hold is active", .forbidden⟩

def deleteMessagesImpl (request : Request) : Op Unit := do
  Prog.each (fun accountId => do
    let account ← getAccount accountId
    if account.isOnHold then throw (heldError account "deleting its messages")) (request.map (·.1))
  deleteEnvelopesMultiAccount request
  deleteAttachmentsMultiAccount request

/-- The mailbox and what is below it, by the rows of its account. -/
def MailBox.subtreeIds (mailbox : MailBox) (accountId mailboxId : Nat) (rows : List MailBox) :
    List Nat :=
  let pathPrefix := mailbox.name ++ mailbox.delimiter.getD ['/']
  ((rows.filter (·.accountId == accountId)).filter fun m =>
    m.id == mailboxId || pathPrefix.isPrefixOf m.name).map (·.id)

def mailboxSubtreeIds (accountId mailboxId : Nat) : Op (List Nat) := do
  let mailbox ← getMailBox mailboxId
  Prog.read fun s => mailbox.subtreeIds accountId mailboxId s.mailboxes

def deleteMailBox (id : Nat) : Op Unit :=
  deleteImpl "mailboxes" id (fun s => (s.mailbox id).isSome) (.deleteMailBoxes [id])

def deleteMailboxImpl (accountId mailboxId : Nat) : Op Unit := do
  let account ← getAccount accountId
  if account.isOnHold then throw (heldError account "deleting its mailboxes")
  let idsToDelete ← mailboxSubtreeIds accountId mailboxId
  if idsToDelete.isEmpty then return ()
  else
    Prog.each deleteMailBox idsToDelete
    deleteMailboxEnvelopes accountId idsToDelete
    deleteMailboxAttachments accountId idsToDelete

def viewsReferencing (accounts : List AccountModel) (accountId : Nat) : List Nat :=
  ((accounts.filter (·.isViewAccount)).filter fun a =>
    a.sources.any (·.accountId == accountId)).map (·.id)

def ensureDeletable (account : AccountModel) : Op Unit := do
  if account.isOnHold then throw (heldError account "deleting the account")
  if account.isJournalAccount then
    throw ⟨"Account " ++ toString account.id ++ " (" ++ account.email ++
      ") is a journal archive and cannot be deleted; point journaling at another address " ++
      "instead and keep this record", .forbidden⟩
  let views ← Prog.read fun s => viewsReferencing s.accounts account.id
  if !views.isEmpty then
    throw ⟨"Account " ++ toString account.id ++ " (" ++ account.email ++ ") is a source of view " ++
      "account(s) " ++ ", ".intercalate (views.map toString) ++
      "; remove it from those views first", .forbidden⟩

/-- `update_impl` of an account. -/
def updateAccount (id : Nat) (why : AccountWrite) (update : AccountModel → AccountModel) :
    Op AccountModel :=
  updateImpl "accounts" id (·.account id) update (.writeAccount · why)

section

variable (accountId : Nat)

def placeLegalHold : Op AccountModel :=
  updateAccount accountId .placeHold fun current => { current with legalHold := true }

def releaseLegalHold : Op AccountModel :=
  updateAccount accountId .releaseHold fun current => { current with legalHold := false }

/-- `DownloadState::delete`. -/
def deleteDownloadState : Op Unit := do
  if ← Prog.read (·.downloadStates.contains accountId) then
    deleteImpl "download_states" accountId (·.downloadStates.contains accountId)
      (.deleteDownloadState accountId)

/-- `OAuth2AccessToken::try_delete`. -/
def tryDeleteToken : Op Unit := do
  if ← Prog.read (·.tokens.contains accountId) then
    deleteImpl "oauth2_tokens" accountId (·.tokens.contains accountId) (.deleteToken accountId)

/-- `UserModel::cleanup_account`. -/
def cleanupUsers : Op Unit := do
  let users ← Prog.read fun s => s.users.filter fun u => u.accountAccessMap.any (·.1 == accountId)
  Prog.each (fun user => do
    let _ ← updateImpl "users" user.id (fun s => s.users.find? (·.id == user.id))
      (fun current => { current with
        accountAccessMap := current.accountAccessMap.filter (·.1 != accountId) })
      .writeUser) users

/-- `MailBox::clean`. -/
def cleanMailBoxes : Op Unit := do
  let ids ← Prog.read fun s => (s.mailboxes.filter (·.accountId == accountId)).map (·.id)
  if ids.isEmpty then return () else Prog.admitted busy (run (.deleteMailBoxes ids))

def deleteAccount : Op Unit :=
  deleteImpl "accounts" accountId (fun s => (s.account accountId).isSome) (.deleteAccount accountId)

/-- What is cleaned up for every type of account. -/
def cleanupCommon : Op Unit := do
  tryDeleteToken accountId
  cleanupUsers accountId
  cleanMailBoxes accountId
  deleteAccountEnvelopes accountId
  deleteAccountAttachments accountId
  deleteAccount accountId

end

def cleanupAccountResourcesSequential (account : AccountModel) : Op Unit := do
  if account.accountType = .imap then deleteDownloadState account.id
  cleanupCommon account.id

def deleteAndWait (accountId : Nat) : Op Unit := do
  let account ← getAccount accountId
  ensureDeletable account
  let _ ← updateAccount accountId .other fun current =>
    { current with deleting := true, enabled := false }
  Prog.onError (cleanupAccountResourcesSequential account)
    (updateAccount accountId .other fun current =>
      { current with deleting := false, enabled := true })

/-! ## The retention sweep and the rebuild of a mailbox -/

def dayMs : Int := 24 * 60 * 60 * 1000

def saturated (x : Int) : Int := max (-2 ^ 63) (min x (2 ^ 63 - 1))

def retentionCutoffMs (now : Int) (days : Nat) : Int :=
  saturated (now - saturated (saturated days * dayMs))

/-- One account of the sweep. An error is logged and the sweep goes on. -/
def sweepAccount (now : Int) (account : AccountModel) : Op Unit :=
  if account.retentionDaysEffective = 0 || account.isOnHold then return ()
  else ExceptT.mk (Prog.bind
    (deleteEnvelopesBefore account.id (retentionCutoffMs now account.retentionDaysEffective))
      fun _ => .done (.ok ()))

def retentionSweep (now : Int) : Op Unit := Prog.peek fun paused =>
    if paused then .done (.ok ())
    else show Op Unit from do
      let accounts ← Prog.read (·.accounts)
      Prog.each (sweepAccount now) accounts

/-- The deletion at the start of `rebuild_mailbox_cache` and of
`rebuild_mailbox_cache_by_date`. What is fetched afterwards is ingested message by
message. -/
def rebuildMailboxCache (accountId localMailboxId : Nat) : Op Unit := do
  deleteMailboxEnvelopes accountId [localMailboxId]
  deleteMailboxAttachments accountId [localMailboxId]

end Bichon.Archive
