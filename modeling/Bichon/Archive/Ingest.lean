import Bichon.Archive.Deletes

/-!
# Archiving a message

`extract_envelope_core` hashes a message, parses it, applies the rules of the account,
detaches its attachments, hands the blobs to the writer of the blob store and the
documents to the writers of the two indexes. Nothing is stored when it returns: the
records are in the channels.

The parser is given from outside, like the functions of `Extern`; so are the identifiers
and the time. The texts that are only displayed or searched (the preview, the addresses,
the tags) are left out.
-/

namespace Bichon.Archive

open Account Gated ByteFile

open Database (busy)

open Envelope (Extern AttachmentInfo MessagePart ExtractionFilter ExtractedText TextCandidate
  DetachedBody computeContentHash stripAttachmentBodies)

/-- What the parser reports of a message. -/
structure Message where
  attachments : List MessagePart
  /-- the first address of `From` -/
  sender : Option String := none
  subject : Option String := none
  /-- in milliseconds, zero if there is none -/
  date : Int := 0
  /-- the raw header says `yes` or `true` -/
  saysYes : String → Bool := fun _ => false

inductive ExtractOutcome
  | imported
  | duplicate
  deriving DecidableEq

/-- What is new with every call: the identifiers and the time. -/
structure Fresh where
  envelopeId : String
  attachmentId : Nat → String
  now : Int

/-- The arguments of `extract_envelope_core`. -/
structure Delivery where
  body : Bytes
  uid : Nat := 0
  size : Nat
  internalDate : Int := 0
  accountId : Nat
  mailboxId : Nat
  journalReport : Option Bytes := none

def effectiveDateMs (date internalDate : Int) : Option Int :=
  if date = 0 then if internalDate = 0 then none else some internalDate
  else if internalDate = 0 then some date
  else some (min date internalDate)

section

variable (X : Extern) (parse : Bytes → Option Message)

def filteredOut (account : Option AccountModel) (message : Message) (size : Nat) : Bool :=
  match account.bind (·.archiveRules) with
  | none => false
  | some rules => !rules.shouldArchive X.regexMatches message.sender message.subject size
      (rules.spamHeaders.any message.saysYes)

def belowRetentionFloor (account : Option AccountModel) (now date internalDate : Int) : Bool :=
  match account with
  | none => false
  | some account =>
    decide (0 < account.retentionDaysEffective) && !account.isOnHold &&
      (effectiveDateMs date internalDate).any
        (· < retentionCutoffMs now account.retentionDaysEffective)

/-- The report of a journal delivery, as one more attachment. -/
def reportInfo (report : Bytes) : AttachmentInfo where
  fileType := "message/rfc822"
  inline := false
  filename := some "journal-report.eml"
  size := report.length
  contentId := none
  contentHash := computeContentHash X report
  rawContentHash := none
  isMessage := true
  extractedText := none
  extractedPageCount := none
  extractedIsOcr := false

def addReport (report : Option Bytes) (d : DetachedBody) : DetachedBody :=
  match report with
  | none => d
  | some report => { d with
      infos := d.infos ++ [reportInfo X report],
      blobs := d.blobs ++ [(computeContentHash X report, report)] }

/-- The texts by the hash of their attachment; a later one replaces an earlier one. -/
def extractedTexts (candidates : List TextCandidate) : List (String × ExtractedText) :=
  candidates.foldl (fun texts c =>
    match X.extractText c.fileType c.ext c.bytes with
    | some text => (c.contentHash, text) :: texts.filter (·.1 != c.contentHash)
    | none => texts) []

/-- Each text goes to the first attachment with its hash. -/
def fillTexts (texts : List (String × ExtractedText)) :
    List AttachmentInfo → List AttachmentInfo
  | [] => []
  | info :: infos =>
    match texts.lookup info.contentHash with
    | some text =>
      { info with
          extractedText := some text.text
          extractedPageCount := text.pageCount
          extractedIsOcr := text.isOcr } ::
        fillTexts (texts.filter (·.1 != info.contentHash)) infos
    | none => info :: fillTexts texts infos

def panicked : BichonError := ⟨"panic", .internalError⟩

def extractionFilter (account : Option AccountModel) (mailbox : Option MailBox)
    (message : Message) : ExtractionFilter :=
  let rules := account.bind (·.extractionRules)
  { rules
    mailboxName :=
      if rules.any (!·.folders.isEmpty) then mailbox.map (String.ofList ·.name) else none
    sender := message.sender }

section

variable (delivery : Delivery)

def detachAndStoreAttachments (message : Message)
    (emlContentHash : String) : Op (List AttachmentInfo) := do
  let account ← Prog.read fun s =>
    if 0 < delivery.accountId then s.account delivery.accountId else none
  let mailbox ← Prog.read (·.mailbox delivery.mailboxId)
  match stripAttachmentBodies X delivery.body message.attachments
      (some (extractionFilter account mailbox message)) with
  | none => throw panicked
  | some detached =>
    let detached := addReport X delivery.journalReport detached
    sure (.queueBlob ⟨(emlContentHash, detached.strippedEml), detached.blobs⟩)
    return fillTexts (extractedTexts X detached.textCandidates) detached.infos

/-- The attachments that have a document of their own. -/
def attachmentDocs (fresh : Fresh) (infos : List AttachmentInfo) :
    List AttachmentDoc :=
  (infos.filter fun a => !a.inline || a.contentId.isNone).mapIdx fun i a =>
    ⟨fresh.attachmentId i, fresh.envelopeId, delivery.accountId, delivery.mailboxId, a.contentHash⟩

/-- The number of attachments is the parser's. -/
def envelopeDoc (fresh : Fresh) (message : Message)
    (emlContentHash : String) (internalDate : Int) (infos : List AttachmentInfo) : EnvelopeDoc where
  id := fresh.envelopeId
  accountId := delivery.accountId
  mailboxId := delivery.mailboxId
  uid := delivery.uid
  date := message.date
  internalDate := internalDate
  contentHash := emlContentHash
  attachmentCount := message.attachments.length
  attachments := infos

/-- The part behind the rules of the account. -/
def storeMessage (fresh : Fresh) (message : Message) (internalDate : Int) : Op ExtractOutcome := do
  let hash := computeContentHash X delivery.body
  let infos ← detachAndStoreAttachments X delivery message hash
  sure (.queueEnvelope (envelopeDoc delivery fresh message hash internalDate infos))
  sure (.dedupInsert ⟨delivery.accountId, delivery.mailboxId, hash⟩)
  Prog.each (fun d => sure (.queueAttachment d)) (attachmentDocs delivery fresh infos)
  return .imported

def extractEnvelopeCore (fresh : Fresh) : Op ExtractOutcome := do
  let key : DedupKey := ⟨delivery.accountId, delivery.mailboxId, computeContentHash X delivery.body⟩
  if ← Prog.read (·.dedup.contains key) then return .duplicate
  else
    match parse delivery.body with
    | none =>
      throw ⟨"Email parse failed (uid " ++ toString delivery.uid ++ ", " ++
        toString delivery.size ++ " bytes): message not archived", .emailParseError⟩
    | some message =>
      let account ← Prog.read (·.account delivery.accountId)
      let internalDate := if delivery.internalDate = 0 then message.date else delivery.internalDate
      if filteredOut X account message delivery.size ||
          belowRetentionFloor account fresh.now message.date internalDate then return .imported
      else storeMessage X delivery fresh message internalDate

end

/-- `extract_envelope_and_store_it` and the other entries: the whole of it under one
admission. A fetched message without a body is skipped. -/
def extractEnvelope (delivery : Option Delivery) (fresh : Fresh) : Op ExtractOutcome :=
  Prog.admitted busy <|
    match delivery with
    | none => return .imported
    | some delivery => extractEnvelopeCore X parse delivery fresh

end

/-! ## The writer tasks -/

/-- `receiver.recv()` of an index writer: what is queued is added, and committed when there
is enough of it. -/
def receiveDocs (x : IndexName) (enough : Bool) : Op Unit := withWriter x do
    sure (.receive x)
    if enough then sure (.fatalCommit x)

/-- `do_populate`, which the first check of the cache runs: the reader is opened before the
entries are locked, and only what is `recent` is filled in. Without a reader the cache stays
as it is. -/
def populateDedup (recent : EnvelopeDoc → Bool) : Op Unit := do
  let keys ← search .envelopes fun s => (s.envelopes.committed.filter recent).map (·.key)
  sure (.dedupFill keys)

/-- `commit_interval.tick()`. -/
def commitTick (x : IndexName) : Op Unit := withWriter x (sure (.fatalCommit x))

end Bichon.Archive
