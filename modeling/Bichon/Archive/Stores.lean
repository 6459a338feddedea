import Bichon.Account.Access
import Bichon.Envelope.Detach
import Bichon.Lib.Gated

/-!
# The stores of the archive

What the operations of the archive read and change: the rows of the database, the index
of the envelopes and the one of the attachments, the blobs, and the queues in front of
them. `Command` lists the operations on a store that happen at once, and `exec` says what
each of them does. An operation that can fail fails with any error and changes nothing.

A writer of an index collects additions and deletions in their order, and a commit
applies them all. A document in a queue or with a writer is lost in a crash, a row, a
committed document and a stored blob are not.
-/

namespace Bichon.Archive

open Account ByteFile Texts

open Envelope (AttachmentInfo)

structure MailBox where
  id : Nat
  accountId : Nat
  name : Text
  delimiter : Option Text := none
  /-- `exists`, the number of messages -/
  messages : Nat := 0
  uidValidity : Option Nat := none
  highestUid : Option Nat := none
  deriving DecidableEq

/-- What the index stores of an envelope, as far as it is read here. -/
structure EnvelopeDoc where
  id : String
  accountId : Nat
  mailboxId : Nat
  uid : Nat
  date : Int
  internalDate : Int
  contentHash : String
  attachmentCount : Nat
  attachments : List AttachmentInfo
  deriving DecidableEq

namespace EnvelopeDoc

/-- The field `attachment_content_hash`. -/
def attachmentHashes (d : EnvelopeDoc) : List String := d.attachments.map (·.storageHash)

/-- The keys of the blobs the envelope needs. -/
def blobKeys (d : EnvelopeDoc) : List String := d.contentHash :: d.attachmentHashes

end EnvelopeDoc

structure AttachmentDoc where
  id : String
  envelopeId : String
  accountId : Nat
  mailboxId : Nat
  contentHash : String
  deriving DecidableEq

/-- The queries documents are deleted by. -/
inductive DocQuery
  | account (accountId : Nat)
  | mailbox (accountId mailboxId : Nat)
  | envelope (accountId : Nat) (envelopeId : String)
  | before (accountId : Nat) (cutoffMs : Int)
  deriving DecidableEq

def DocQuery.accountId : DocQuery → Nat
  | .account accountId | .mailbox accountId _ | .envelope accountId _ | .before accountId _ =>
    accountId

/-- `0 < date < cutoff`: a date of zero is unknown. -/
def outOfWindow (cutoffMs date : Int) : Bool := 0 < date && date < cutoffMs

def EnvelopeDoc.matches (d : EnvelopeDoc) : DocQuery → Bool
  | .account accountId => d.accountId == accountId
  | .mailbox accountId mailboxId => d.accountId == accountId && d.mailboxId == mailboxId
  | .envelope accountId envelopeId => d.accountId == accountId && d.id == envelopeId
  | .before accountId cutoffMs =>
    d.accountId == accountId && (outOfWindow cutoffMs d.date || outOfWindow cutoffMs d.internalDate)

theorem EnvelopeDoc.accountId_of_matches {d : EnvelopeDoc} {q : DocQuery} (h : d.matches q = true) :
    d.accountId = q.accountId := by
  cases q with
  | account => exact beq_iff_eq.mp h
  | mailbox | envelope | before => exact beq_iff_eq.mp (Bool.and_eq_true_iff.mp h).1

/-- The index of the attachments has no date of the server, and the sweep does not
query it. -/
def AttachmentDoc.matches (d : AttachmentDoc) : DocQuery → Bool
  | .account accountId => d.accountId == accountId
  | .mailbox accountId mailboxId => d.accountId == accountId && d.mailboxId == mailboxId
  | .envelope accountId envelopeId => d.accountId == accountId && d.envelopeId == envelopeId
  | .before _ _ => false

/-- What a writer has collected since its last commit. -/
inductive WriterOp (D : Type)
  | add (d : D)
  | delete (q : DocQuery)
  deriving DecidableEq

def WriterOp.added? {D : Type} : WriterOp D → Option D
  | .add d => some d
  | .delete _ => none

structure IndexStore (D : Type) where
  committed : List D
  pending : List (WriterOp D) := []
  /-- the channel in front of the writer -/
  queue : List D := []
  locked : Bool := false
  deriving DecidableEq

namespace IndexStore

variable {D : Type} (hit : D → DocQuery → Bool)

def apply (ds : List D) : WriterOp D → List D
  | .add d => ds ++ [d]
  | .delete q => ds.filter (!hit · q)

section

variable (x : IndexStore D)

def flushed : List D := x.pending.foldl (apply hit) x.committed

def commit : IndexStore D := { x with committed := x.flushed hit, pending := [] }

def write (op : WriterOp D) : IndexStore D :=
  { x with pending := x.pending ++ [op] }

/-- `receiver.recv()` and then `try_recv()` until the channel is empty. -/
def receive : Option (IndexStore D) :=
  if x.queue = [] then none
  else some { x with queue := [], pending := x.pending ++ x.queue.map .add }

/-- The channel takes a hundred documents and then lets the sender wait. -/
def send (d : D) : Option (IndexStore D) :=
  if x.queue.length < 100 then some { x with queue := x.queue ++ [d] } else none

def lock : Option (IndexStore D) :=
  if x.locked then none else some { x with locked := true }

def unlock : IndexStore D := { x with locked := false }

def reopen : IndexStore D := { committed := x.committed }

end

end IndexStore

structure DetachedEmail where
  email : String × Bytes
  attachments : List (String × Bytes)
  deriving DecidableEq

def DetachedEmail.records (eml : DetachedEmail) : List (String × Bytes) :=
  eml.email :: eml.attachments

structure BlobStore where
  stored : List (String × Bytes) := []
  queue : List DetachedEmail := []
  /-- what the writer task has taken from the queue and not stored yet -/
  batch : List (String × Bytes) := []
  deriving DecidableEq

namespace BlobStore

section

variable (b : BlobStore)

def exists? (key : String) : Bool := b.stored.any (·.1 == key)

def get (key : String) : Option Bytes := b.stored.lookup key

def send (eml : DetachedEmail) : Option BlobStore :=
  if b.queue.length < 100 then some { b with queue := b.queue ++ [eml] } else none

/-- The writer task takes all of the queue when it is done with its batch. -/
def take : Option BlobStore :=
  if b.batch = [] ∧ b.queue ≠ [] then
    some { b with queue := [], batch := b.queue.flatMap (·.records) }
  else
    none

/-- `process_detached_email` for the next record: a key that exists is not written
again. -/
def storeNext : Option BlobStore :=
  match b.batch with
  | [] => none
  | r :: rest =>
    some { b with batch := rest, stored := if b.exists? r.1 then b.stored else r :: b.stored }

def delete (keys : List String) : BlobStore :=
  { b with stored := b.stored.filter (!keys.contains ·.1) }

def reopen : BlobStore := { stored := b.stored }

end

end BlobStore

/-- A triple of the cache of the messages that were queued for the index. -/
structure DedupKey where
  accountId : Nat
  mailboxId : Nat
  contentHash : String
  deriving DecidableEq

def EnvelopeDoc.key (d : EnvelopeDoc) : DedupKey := ⟨d.accountId, d.mailboxId, d.contentHash⟩

/-- A leaf of the deletions. It also has the time of the ingest, which nothing here depends
on. -/
structure LeafRecord where
  envelopeId : String
  contentHash : String
  deriving DecidableEq

def EnvelopeDoc.leaf (d : EnvelopeDoc) : LeafRecord := ⟨d.id, d.contentHash⟩

structure Stores where
  accounts : List AccountModel
  mailboxes : List MailBox
  users : List UserModel := []
  tokens : List Nat := []
  downloadStates : List Nat := []
  envelopes : IndexStore EnvelopeDoc
  attachments : IndexStore AttachmentDoc
  blobs : BlobStore := {}
  dedup : List DedupKey := []
  leaves : List LeafRecord := []
  deriving DecidableEq

/-- Why a row of an account is written. -/
inductive AccountWrite
  | placeHold
  | releaseHold
  | other
  deriving DecidableEq

inductive IndexName
  | envelopes
  | attachments
  deriving DecidableEq

inductive Command
  | writeAccount (row : AccountModel) (why : AccountWrite)
  | deleteAccount (id : Nat)
  | writeMailBoxes (rows : List MailBox)
  | deleteMailBoxes (ids : List Nat)
  | writeUser (row : UserModel)
  | deleteToken (accountId : Nat)
  | deleteDownloadState (accountId : Nat)
  | lock (x : IndexName)
  | unlock (x : IndexName)
  /-- a search of the index, which can fail -/
  | search (x : IndexName)
  | deleteQuery (x : IndexName) (q : DocQuery)
  | commit (x : IndexName)
  /-- `fatal_commit`, which ends the process when it fails -/
  | fatalCommit (x : IndexName)
  | receive (x : IndexName)
  | queueEnvelope (d : EnvelopeDoc)
  | queueAttachment (d : AttachmentDoc)
  | queueBlob (eml : DetachedEmail)
  | takeBlobs
  | storeBlob
  | deleteBlobs (keys : List String)
  | dedupInsert (key : DedupKey)
  | dedupFill (keys : List DedupKey)
  | dedupRemove (keep : DedupKey → Bool)
  | recordDeletions (leaves : List LeafRecord)

/-- A row by its id, in the place of the row with the same id if there is one. -/
def upsert {R : Type} (id : R → Nat) : List R → R → List R
  | [], row => [row]
  | r :: rs, row => if id r = id row then row :: rs else r :: upsert id rs row

namespace Stores

section

variable (s : Stores)

def account (id : Nat) : Option AccountModel := findAccount s.accounts id

def mailbox (id : Nat) : Option MailBox := s.mailboxes.find? (·.id == id)

def onIndex (x : IndexName)
    (fe : IndexStore EnvelopeDoc → Option (IndexStore EnvelopeDoc))
    (fa : IndexStore AttachmentDoc → Option (IndexStore AttachmentDoc)) : Option Stores :=
  match x with
  | .envelopes => (fe s.envelopes).map fun e => { s with envelopes := e }
  | .attachments => (fa s.attachments).map fun a => { s with attachments := a }

def commit (x : IndexName) : Option Stores :=
  s.onIndex x (fun e => some (e.commit EnvelopeDoc.matches))
    (fun a => some (a.commit AttachmentDoc.matches))

/-- What a command does when it succeeds. -/
def perform : Command → Option Stores
  | .writeAccount row _ => some { s with accounts := upsert (·.id) s.accounts row }
  | .deleteAccount id => some { s with accounts := s.accounts.filter (·.id != id) }
  | .writeMailBoxes rows => some { s with mailboxes := rows.foldl (upsert (·.id)) s.mailboxes }
  | .deleteMailBoxes ids => some { s with mailboxes := s.mailboxes.filter (!ids.contains ·.id) }
  | .writeUser row => some { s with users := upsert (·.id) s.users row }
  | .deleteToken accountId => some { s with tokens := s.tokens.filter (· != accountId) }
  | .deleteDownloadState accountId =>
    some { s with downloadStates := s.downloadStates.filter (· != accountId) }
  | .lock x => s.onIndex x (·.lock) (·.lock)
  | .unlock x => s.onIndex x (fun e => some e.unlock) (fun a => some a.unlock)
  | .search _ => some s
  | .deleteQuery x q => s.onIndex x (fun e => some (e.write (.delete q)))
      (fun a => some (a.write (.delete q)))
  | .commit x | .fatalCommit x => s.commit x
  | .receive x => s.onIndex x (·.receive) (·.receive)
  | .queueEnvelope d => (s.envelopes.send d).map fun e => { s with envelopes := e }
  | .queueAttachment d => (s.attachments.send d).map fun a => { s with attachments := a }
  | .queueBlob eml => (s.blobs.send eml).map fun b => { s with blobs := b }
  | .takeBlobs => s.blobs.take.map fun b => { s with blobs := b }
  | .storeBlob => s.blobs.storeNext.map fun b => { s with blobs := b }
  | .deleteBlobs keys => some { s with blobs := s.blobs.delete keys }
  | .dedupInsert key => some { s with dedup := key :: s.dedup }
  | .dedupFill keys => some { s with dedup := keys ++ s.dedup }
  | .dedupRemove keep => some { s with dedup := s.dedup.filter keep }
  | .recordDeletions leaves => some { s with leaves := s.leaves ++ leaves }

end

end Stores

def Command.canFail : Command → Bool
  | .writeAccount _ _ | .deleteAccount _ | .writeMailBoxes _ | .deleteMailBoxes _ | .writeUser _
  | .deleteToken _ | .deleteDownloadState _ | .search _ | .deleteQuery _ _ | .commit _
  | .deleteBlobs _ => true
  | _ => false

/-- The outcome is `none` for a success, or the error. -/
def exec (c : Command) (o : Option BichonError) (s : Stores) : Option Stores :=
  match o with
  | none => s.perform c
  | some _ => if c.canFail then some s else none

/-- What is left of the stores after a crash. -/
def Stores.restart (s : Stores) : Stores :=
  { s with envelopes := s.envelopes.reopen, attachments := s.attachments.reopen,
           blobs := s.blobs.reopen, dedup := [] }

/-- The archive of the samples: account 1 with the mailbox 2, which has one message and one
attachment. -/
def oneMessage : Stores where
  accounts := [{ id := 1, accountType := .noSync }]
  mailboxes := [{ id := 2, accountId := 1, name := ['A'] }]
  envelopes := { committed := [⟨"m", 1, 2, 7, 0, 0, "h", 0, []⟩] }
  attachments := { committed := [⟨"a", "m", 1, 2, "c"⟩] }
  blobs := { stored := [("h", [])] }
  dedup := [⟨1, 2, "h"⟩]

end Bichon.Archive
