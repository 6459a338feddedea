import Bichon.Archive.References

/-!
# Reading an archived message back

`reattach_eml_content` looks up an envelope, loads the body of the message, and puts the
attachments back into it. It refuses an envelope whose number of attachments is not the
number of its records. The number is the parser's, and the report of a journal delivery is
one more record.
-/

namespace Bichon.Archive

open Account Gated Transition ByteFile List Option

open Envelope (Failure Extern AttachmentInfo DetachedBody stripAttachmentBodies computeContentHash
  foldlM_stripPart reattachParts Digests exists_reattachParts inReverse)

section

variable (s : Stores) (accountId : Nat) (envelopeId : String)

/-- `get_envelope_by_id`, before the document is read. -/
def getEnvelopeById : Option EnvelopeDoc :=
  s.envelopes.committed.find? fun d => d.accountId == accountId && d.id == envelopeId

def reattachEmlContent :
    Except Failure (EnvelopeView × Bytes) :=
  match getEnvelopeById s accountId envelopeId with
  | none => .error (.error ⟨"Envelope not found: account_id=" ++ toString accountId ++
      " envelope_id=" ++ envelopeId, .resourceNotFound⟩)
  | some d =>
    match fromTantivyDoc s d with
    | .error e => .error (.error e)
    | .ok view =>
      match s.blobs.get d.contentHash with
      | none => .error (.error ⟨"Original email content not found: account_id=" ++
          toString accountId ++ " envelope_id=" ++ envelopeId ++ " content_hash=" ++
          d.contentHash, .resourceNotFound⟩)
      | some restoredEml =>
        if d.attachmentCount = 0 then .ok (view, restoredEml)
        else if d.attachmentCount ≠ d.attachments.length then
          .error (.error ⟨"Consistency check failed: envelope.attachment_count (" ++
            toString d.attachmentCount ++ ") does not match attachments.len (" ++
            toString d.attachments.length ++ ")", .internalError⟩)
        else
          (reattachParts restoredEml d.attachments fun hash => .ok (s.blobs.get hash)).map
            fun restored => (view, restored)

/-- The envelope is indexed with the right number of attachments, and it is read back. -/
def ReadsBack : Prop :=
  ∃ d, getEnvelopeById s accountId envelopeId = some d ∧
    d.attachmentCount = d.attachments.length ∧
      ∃ r, reattachEmlContent s accountId envelopeId = .ok r

end

/-! ## What an ingest leaves in the queues -/

/-- The message is new, it is parsed, and the account takes it. -/
structure Accepted (X : Extern) (parse : Bytes → Option Message) (s : Stores) (delivery : Delivery)
    (fresh : Fresh) (message : Message) : Prop where
  new : s.dedup.contains ⟨delivery.accountId, delivery.mailboxId,
    computeContentHash X delivery.body⟩ = false
  parsed : parse delivery.body = some message
  taken : (filteredOut X (s.account delivery.accountId) message delivery.size ||
    belowRetentionFloor (s.account delivery.accountId) fresh.now message.date
      (if delivery.internalDate = 0 then message.date else delivery.internalDate)) = false

/-- One record and one envelope more in the queues. -/
structure Queued (s s' : Stores) (eml : DetachedEmail) (d : EnvelopeDoc) : Prop where
  accounts : s'.accounts = s.accounts
  mailboxes : s'.mailboxes = s.mailboxes
  envelopes : s'.envelopes = { s.envelopes with queue := s.envelopes.queue ++ [d] }
  blobs : s'.blobs = { s.blobs with queue := s.blobs.queue ++ [eml] }

section

variable {X : Extern} {parse : Bytes → Option Message} {s s' : Stores}

theorem perform_of_alone_sure {c : Command} {r : Except BichonError Unit}
    (h : (sure c).run.alone exec none s = some (s', r)) : s.perform c = some s' := by
  obtain ⟨t, ht, hr⟩ := bind_eq_some_iff.mp h
  cases hr
  exact ht

theorem alone_detachAndStoreAttachments {delivery : Delivery} {message : Message} {hash : String}
    {infos : List AttachmentInfo}
    (h : (detachAndStoreAttachments X delivery message hash).run.alone exec none s =
      some (s', .ok infos)) :
    ∃ filter detached, stripAttachmentBodies X delivery.body message.attachments filter =
        some detached ∧
      infos = fillTexts (extractedTexts X detached.textCandidates)
        (addReport X delivery.journalReport detached).infos ∧
      s.perform (.queueBlob ⟨(hash, detached.strippedEml),
        (addReport X delivery.journalReport detached).blobs⟩) = some s' := by
  simp only [detachAndStoreAttachments, Prog.alone_read] at h
  split at h
  next => cases h
  next detached hstrip =>
    obtain ⟨t, _, hqueue, hdone⟩ := Prog.alone_bindE h
    cases hdone
    refine ⟨_, detached, hstrip, ?_, ?_⟩
    · cases delivery.journalReport <;> rfl
    · have hperform := perform_of_alone_sure hqueue
      cases hreport : delivery.journalReport <;> rw [hreport] at hperform <;> exact hperform

theorem alone_queueAttachments {docs : List AttachmentDoc} {r : Except BichonError Unit}
    (h : (Prog.each (fun d => sure (.queueAttachment d)) docs).run.alone exec none s =
      some (s', r)) :
    s'.accounts = s.accounts ∧ s'.mailboxes = s.mailboxes ∧ s'.envelopes = s.envelopes ∧
      s'.blobs = s.blobs ∧ r = .ok () := by
  induction docs generalizing s with
  | nil =>
    cases h
    exact ⟨rfl, rfl, rfl, rfl, rfl⟩
  | cons d docs ih =>
    obtain ⟨t, ht, hrest⟩ := bind_eq_some_iff.mp h
    obtain ⟨a, -, rfl⟩ := map_eq_some_iff.mp ht
    have hdocs := ih hrest
    exact hdocs

theorem queued_of_extractEnvelopeCore {delivery : Delivery} {fresh : Fresh} {message : Message}
    {outcome : ExtractOutcome} (haccepted : Accepted X parse s delivery fresh message)
    (h : (extractEnvelopeCore X parse delivery fresh).run.alone exec none s =
      some (s', .ok outcome)) :
    ∃ filter detached, stripAttachmentBodies X delivery.body message.attachments filter =
        some detached ∧
      Queued s s'
        ⟨(computeContentHash X delivery.body, detached.strippedEml),
          (addReport X delivery.journalReport detached).blobs⟩
        (envelopeDoc delivery fresh message (computeContentHash X delivery.body)
          (if delivery.internalDate = 0 then message.date else delivery.internalDate)
          (fillTexts (extractedTexts X detached.textCandidates)
            (addReport X delivery.journalReport detached).infos)) := by
  have hstore : (storeMessage X delivery fresh message
      (if delivery.internalDate = 0 then message.date else delivery.internalDate)).run.alone
        exec none s = some (s', .ok outcome) := by
    simpa only [extractEnvelopeCore, Prog.alone_read, haccepted.new, haccepted.parsed,
      haccepted.taken, Bool.false_eq_true, if_false] using h
  obtain ⟨s₁, infos, hdetach, hrest⟩ := Prog.alone_bindE hstore
  obtain ⟨filter, detached, hstrip, rfl, hblob⟩ := alone_detachAndStoreAttachments hdetach
  obtain ⟨s₂, _, henvelope, hrest⟩ := Prog.alone_bindE hrest
  obtain ⟨s₃, _, hdedup, hrest⟩ := Prog.alone_bindE hrest
  obtain ⟨s₄, _, hattachments, hrest⟩ := Prog.alone_bindE hrest
  cases hrest
  obtain ⟨b, hb, rfl⟩ := map_eq_some_iff.mp hblob
  obtain ⟨-, ⟨⟩⟩ := ite_none_right_eq_some.mp hb
  obtain ⟨e, he, rfl⟩ := map_eq_some_iff.mp (perform_of_alone_sure henvelope)
  obtain ⟨-, ⟨⟩⟩ := ite_none_right_eq_some.mp he
  cases perform_of_alone_sure hdedup
  obtain ⟨haccounts, hmailboxes, henvelopes, hblobs, -⟩ := alone_queueAttachments hattachments
  exact ⟨filter, detached, hstrip, haccounts, hmailboxes, henvelopes, hblobs⟩

end

/-! ## The writers -/

def Command.OfWriter : Command → Prop
  | .lock _ | .unlock _ | .receive _ | .fatalCommit _ | .takeBlobs | .storeBlob => True
  | _ => False

def Drained (s : Stores) : Prop :=
  s.envelopes.queue = [] ∧ s.envelopes.pending = [] ∧ s.blobs.queue = [] ∧ s.blobs.batch = []

instance (s : Stores) : Decidable (Drained s) := inferInstanceAs (Decidable (_ ∧ _))

/-- What is committed when the writer has taken the queue and applied what it has. -/
def IndexStore.eventual (e : IndexStore EnvelopeDoc) : List EnvelopeDoc :=
  (e.pending ++ e.queue.map WriterOp.add).foldl (IndexStore.apply EnvelopeDoc.matches) e.committed

variable {d : EnvelopeDoc} {s : Stores}

/-- What stays true of a queued message while the writers work: its rows and the keys of
its blobs, and its document is the only one with its id. -/
structure OnItsWay (accounts : List AccountModel) (mailboxes : List MailBox) (d : EnvelopeDoc)
    (s : Stores) : Prop where
  accounts : s.accounts = accounts
  mailboxes : s.mailboxes = mailboxes
  coming : d ∈ s.envelopes.eventual
  unique : ∀ d' ∈ s.envelopes.docs, d'.id = d.id → d' = d
  keys : d.blobKeys ⊆ s.blobs.keys

theorem OnItsWay.next {accounts : List AccountModel} {mailboxes : List MailBox}
    {s' : Stores} {c : Command} (h : OnItsWay accounts mailboxes d s) (hc : c.OfWriter)
    (hperform : s.perform c = some s') : OnItsWay accounts mailboxes d s' := by
  have hunique : ∀ d' ∈ s'.envelopes.docs, d'.id = d.id → d' = d := by
    intro d' hd'
    rcases mem_docs_exec (o := none) hperform hd' with hd' | rfl
    · exact h.unique d' hd'
    · exact hc.elim
  have hkeys : d.blobKeys ⊆ s'.blobs.keys := by
    intro key hkey
    rcases mem_keys_exec (o := none) hperform (h.keys hkey) with hkey | ⟨ks, rfl, -⟩
    · exact hkey
    · exact hc.elim
  cases perform_effect hperform with
  | writeAccount | deleteAccount | writeMailBoxes | deleteMailBoxes => exact hc.elim
  | blobs | dedup | leaves => exact ⟨h.accounts, h.mailboxes, h.coming, hunique, hkeys⟩
  | other haccounts hmailboxes hmail =>
    have henvelopes : s'.envelopes = s.envelopes := congrArg Mail.envelopes hmail
    exact ⟨haccounts.trans h.accounts, hmailboxes.trans h.mailboxes, henvelopes ▸ h.coming,
      hunique, hkeys⟩
  | envelopes henvelopes =>
    refine ⟨h.accounts, h.mailboxes, ?_, hunique, hkeys⟩
    cases henvelopes with
    | lock | unlock => exact h.coming
    | deleteQuery | commit | queue => exact hc.elim
    | fatalCommit =>
      have hcoming := h.coming
      rw [IndexStore.eventual, foldl_append] at hcoming
      exact hcoming
    | receive => simpa [IndexStore.eventual] using h.coming

theorem OnItsWay.run {accounts : List AccountModel} {mailboxes : List MailBox}
    {t : Stores} {cs : List Command} (h : OnItsWay accounts mailboxes d s)
    (hcs : ∀ c ∈ cs, c.OfWriter) (hrun : runFrom Stores.perform s cs = some t) :
    OnItsWay accounts mailboxes d t := by
  have halong : Along Stores.perform (fun _ c => c.OfWriter) s cs :=
    Along.of_forall fun c hc _ => hcs c hc
  exact halong.invariant (fun h hc hperform => h.next hc hperform) h hrun

theorem onItsWay_of_queued {s' : Stores} {eml : DetachedEmail}
    (h : Queued s s' eml d) (hfresh : ∀ d' ∈ s.envelopes.docs, d'.id ≠ d.id)
    (hkeys : d.blobKeys ⊆ eml.records.map (·.1)) : OnItsWay s.accounts s.mailboxes d s' where
  accounts := h.accounts
  mailboxes := h.mailboxes
  coming := by
    rw [h.envelopes, IndexStore.eventual, map_append, ← append_assoc, foldl_append]
    exact mem_append_right _ mem_cons_self
  unique d' hd' hid := by
    rw [h.envelopes] at hd'
    exact (IndexStore.mem_docs_queue hd').resolve_left fun hd' => hfresh d' hd' hid
  keys key hkey := by
    rw [h.blobs]
    exact BlobStore.mem_keys_queue.mpr (.inr (hkeys hkey))

/-! ## The number of attachments -/

section

variable {X : Extern} {body : Bytes} {parts : List Envelope.MessagePart}
variable {filter : Option Envelope.ExtractionFilter} {detached : DetachedBody}

theorem infos_strip (h : stripAttachmentBodies X body parts filter = some detached) :
    detached.infos = Envelope.detachedInfos X body parts := by
  rw [stripAttachmentBodies, foldlM_stripPart] at h
  obtain ⟨eml, -, rfl⟩ := map_eq_some_iff.mp h
  rfl

theorem length_infos_strip (h : stripAttachmentBodies X body parts filter = some detached) :
    detached.infos.length = parts.length := by
  rw [infos_strip h, length_map, inReverse, length_insertionSort]

theorem length_fillTexts (texts : List (String × Envelope.ExtractedText))
    (infos : List AttachmentInfo) : (fillTexts texts infos).length = infos.length := by
  simpa using congrArg length (map_fillTexts (f := fun _ => ()) (fun _ _ _ _ => rfl) texts infos)

theorem digests_fillTexts {infos : List AttachmentInfo} (h : Digests infos)
    (texts : List (String × Envelope.ExtractedText)) : Digests (fillTexts texts infos) where
  storage := by
    have hmap := forall_mem_map.mpr h.storage
    rw [← map_fillTexts (fun _ _ _ _ => rfl) texts] at hmap
    exact forall_mem_map.mp hmap
  content := by
    have hmap := forall_mem_map.mpr h.content
    rw [← map_fillTexts (fun _ _ _ _ => rfl) texts] at hmap
    exact forall_mem_map.mp hmap

end

section

variable {X : Extern} {delivery : Delivery} {fresh : Fresh} {message : Message} {hash : String}
variable {internalDate : Int} {texts : List (String × Envelope.ExtractedText)}
variable {filter : Option Envelope.ExtractionFilter} {detached : DetachedBody}

theorem attachmentCount_envelopeDoc
    (h : stripAttachmentBodies X delivery.body message.attachments filter = some detached) :
    (envelopeDoc delivery fresh message hash internalDate
        (fillTexts texts (addReport X delivery.journalReport detached).infos)).attachmentCount =
      (envelopeDoc delivery fresh message hash internalDate
        (fillTexts texts (addReport X delivery.journalReport detached).infos)).attachments.length ↔
    delivery.journalReport = none := by
  simp only [envelopeDoc, length_fillTexts, ← length_infos_strip h]
  cases delivery.journalReport with
  | none | some => simp [addReport]

theorem blobKeys_envelopeDoc
    (h : stripAttachmentBodies X delivery.body message.attachments filter = some detached) :
    (envelopeDoc delivery fresh message hash internalDate
      (fillTexts texts (addReport X delivery.journalReport detached).infos)).blobKeys ⊆
    (⟨(hash, detached.strippedEml), (addReport X delivery.journalReport detached).blobs⟩ :
      DetachedEmail).records.map (·.1) := by
  rw [EnvelopeDoc.blobKeys, EnvelopeDoc.attachmentHashes, envelopeDoc,
    map_fillTexts fun _ _ _ _ => rfl, map_storageHash_addReport X (map_storageHash_strip X h)]
  exact List.Subset.refl _

end

theorem getEnvelopeById_of_unique (hd : d ∈ s.envelopes.committed)
    (hunique : ∀ d' ∈ s.envelopes.committed, d'.id = d.id → d' = d) :
    getEnvelopeById s d.accountId d.id = some d := by
  obtain ⟨d', hd'⟩ := isSome_iff_exists.mp
    (find?_isSome.mpr ⟨d, hd, by simp⟩ :
      (getEnvelopeById s d.accountId d.id).isSome = true)
  have hid : d'.id = d.id := by
    have := find?_some hd'
    simp only [Bool.and_eq_true, beq_iff_eq] at this
    exact this.2
  rw [getEnvelopeById, hd', hunique d' (mem_of_find?_eq_some hd') hid]

theorem isSome_get {b : BlobStore} {key : String} (h : key ∈ b.stored.map (·.1)) :
    (b.get key).isSome = true := by
  rw [BlobStore.get, lookup_isSome_iff]
  obtain ⟨r, hr, rfl⟩ := mem_map.mp h
  exact ⟨r, hr, beq_self_eq_true _⟩

theorem exists_reattachEmlContent {accountId : Nat}
    {envelopeId : String} (hget : getEnvelopeById s accountId envelopeId = some d)
    (hrows : HasRows s d) (hbody : (s.blobs.get d.contentHash).isSome = true)
    (hcount : d.attachmentCount = d.attachments.length) (hdigests : Digests d.attachments) :
    ∃ r, reattachEmlContent s accountId envelopeId = .ok r := by
  obtain ⟨view, hview⟩ := fromTantivyDoc_of_hasRows hrows
  obtain ⟨eml, heml⟩ := isSome_iff_exists.mp hbody
  obtain ⟨restored, hrestored⟩ : ∃ restored,
      reattachParts eml d.attachments (fun hash => .ok (s.blobs.get hash)) = .ok restored :=
    exists_reattachParts hdigests eml fun _ => ⟨_, rfl⟩
  simp only [reattachEmlContent, hget, hview, heml, hcount, ne_eq, not_true_eq_false, if_false,
    hrestored]
  split
  · exact ⟨_, rfl⟩
  · exact ⟨_, rfl⟩

/-- An accepted message of which everything was written reads back, with the right number
of attachments, if and only if it came without a journal report: whatever the body, the
rules of the account, what the stores contain and the order in which the writers work. -/
theorem reads_back_iff_no_report (X : Extern) (parse : Bytes → Option Message) {s s₁ t : Stores}
    {delivery : Delivery} {fresh : Fresh} {message : Message} {cs : List Command}
    (haccepted : Accepted X parse s delivery fresh message)
    (hfresh : ∀ d ∈ s.envelopes.docs, d.id ≠ fresh.envelopeId)
    (haccount : (s.account delivery.accountId).isSome = true)
    (hmailbox : (s.mailbox delivery.mailboxId).isSome = true)
    (hcore : (extractEnvelopeCore X parse delivery fresh).run.alone exec none s =
      some (s₁, .ok .imported))
    (hcs : ∀ c ∈ cs, c.OfWriter) (hdrain : runFrom Stores.perform s₁ cs = some t)
    (hdrained : Drained t) :
    ReadsBack t delivery.accountId fresh.envelopeId ↔ delivery.journalReport = none := by
  obtain ⟨filter, detached, hstrip, hqueued⟩ := queued_of_extractEnvelopeCore haccepted hcore
  have hway := (onItsWay_of_queued hqueued hfresh (blobKeys_envelopeDoc hstrip)).run hcs hdrain
  have hcommitted := hway.coming
  rw [IndexStore.eventual, hdrained.1, hdrained.2.1] at hcommitted
  have hget := getEnvelopeById_of_unique hcommitted fun d' hd' =>
    hway.unique d' (mem_append_left _ hd')
  constructor
  · rintro ⟨d', hd', hcount, -⟩
    cases hget.symm.trans hd'
    exact (attachmentCount_envelopeDoc hstrip).mp hcount
  · intro hreport
    refine ⟨_, hget, (attachmentCount_envelopeDoc hstrip).mpr hreport,
      exists_reattachEmlContent hget ⟨?_, ?_⟩ ?_
        ((attachmentCount_envelopeDoc hstrip).mpr hreport) ?_⟩
    · rwa [Stores.account, hway.accounts]
    · rwa [Stores.mailbox, hway.mailboxes]
    · have hbody := BlobStore.mem_keys.mp (hway.keys mem_cons_self)
      rw [hdrained.2.2.1, hdrained.2.2.2] at hbody
      exact isSome_get (by simpa using hbody)
    · rw [hreport]
      refine digests_fillTexts ?_ _
      rw [addReport, infos_strip hstrip]
      exact Envelope.digests_detachedInfos

def emptyArchive : Stores :=
  { oneMessage with
    envelopes := { committed := [] }, attachments := { committed := [] }, dedup := [] }

/-- All of the blobs, then all of the envelopes. -/
def writeAll (records : Nat) : List Command :=
  .takeBlobs :: List.replicate records .storeBlob ++
    [.lock .envelopes, .receive .envelopes, .fatalCommit .envelopes, .unlock .envelopes]

/-- A message of two bytes, the second of which is an attachment. -/
def oneAttachment : Message where
  attachments := [{ rawBodyOffset := 1, rawEndOffset := 2, contents := [66] }]

def withReport (report : Option Bytes) : Delivery :=
  { body := [65, 66], size := 2, accountId := 1, mailboxId := 2, journalReport := report }

def ingestSample (report : Option Bytes) : Option (Stores × Except BichonError ExtractOutcome) :=
  (extractEnvelopeCore Envelope.sampleExtern (fun _ => some oneAttachment) (withReport report)
    ⟨"e", fun _ => "", 0⟩).run.alone exec none emptyArchive

theorem reads_back_iff_no_report_sample :
    ∃ s₁ t, ingestSample none = some (s₁, .ok .imported) ∧
      runFrom Stores.perform s₁ (writeAll 2) = some t ∧ ReadsBack t 1 "e" := by
  obtain ⟨⟨s₁, r⟩, hcore, hr, t, hdrain, hdrained⟩ :
      ∃ r ∈ ingestSample none, r.2.toOption = some .imported ∧
        ∃ t ∈ runFrom Stores.perform r.1 (writeAll 2), Drained t := by decide +kernel
  cases r with
  | error e => cases hr
  | ok outcome =>
    cases hr
    have haccepted : Accepted Envelope.sampleExtern (fun _ => some oneAttachment) emptyArchive
        (withReport none) ⟨"e", fun _ => "", 0⟩ oneAttachment :=
      ⟨by decide +kernel, rfl, by decide +kernel⟩
    refine ⟨s₁, t, hcore, hdrain, (reads_back_iff_no_report _ _ haccepted ?_ ?_ ?_ hcore ?_ hdrain
      hdrained).mpr rfl⟩
    · nofun
    · decide +kernel
    · decide +kernel
    · simp [writeAll, Command.OfWriter]

/-- The report is a second record of an envelope with one attachment, and the message is
not read back. -/
theorem journal_report_is_not_counted :
    (ingestSample (some [67])).bind (fun r => (runFrom Stores.perform r.1 (writeAll 3)).map fun t =>
      (t.envelopes.committed.map fun d => (d.attachmentCount, d.attachments.length),
        match reattachEmlContent t 1 "e" with
        | .error (.error e) => some e.message
        | _ => none)) =
    some ([(1, 2)], some ("Consistency check failed: envelope.attachment_count (1) does not " ++
      "match attachments.len (2)")) := by
  decide +kernel

end Bichon.Archive
