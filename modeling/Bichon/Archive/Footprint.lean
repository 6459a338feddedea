import Bichon.Archive.Protocol
import Bichon.Archive.System
import Bichon.Envelope.RoundTrip

/-!
# What a call can do

Every call keeps the order of the commands and its own footprint, whatever runs next to it.
What a call sees matters: a deletion looks at the flag of the account, and the mailboxes that
are deleted are those that were found.
-/

namespace Bichon.Archive

open Account Gated ByteFile Prog List Keeps

open Envelope (Extern AttachmentInfo DetachedBody stripAttachmentBodies computeContentHash
  foldlM_stripPart)

def Call.footprint (sees : Stores → Prop) : Call → Footprint
  | .ingest delivery _ =>
    { ingests := fun a m => ∃ d ∈ delivery, d.accountId = a ∧ d.mailboxId = m }
  | .deleteMessages request => { deletes := fun a => a ∈ request.map (·.1) ∧ SeenFree sees a }
  | .deleteMailbox accountId mailboxId =>
    { deletes := fun a => a = accountId ∧ SeenFree sees a
      removesMailBox := SeenUnder sees accountId mailboxId }
  | .deleteAccount accountId =>
    { deletes := fun a => a = accountId ∧ SeenFree sees a
      writes := fun row => ∃ s current, sees s ∧ s.account accountId = some current ∧
        row.id = accountId ∧ row.isOnHold = current.isOnHold
      removesAccount := fun a => a = accountId ∧ SeenFree sees a
      removesMailBox := SeenMailBox sees accountId }
  | .placeLegalHold accountId => { writes := fun row => row.id = accountId ∧ row.isOnHold = true }
  | .releaseLegalHold accountId => { writes := fun row => row.id = accountId }
  | .retentionSweep _ => { deletes := SeenFree sees }
  | .rebuildMailbox accountId _ => { deletes := (· = accountId) }
  | .receiveDocs _ _ | .commitTick _ | .takeBlobs | .storeBlob | .populateDedup _
  | .evictDedup _ => {}

section

variable (X : Extern) (parse : Bytes → Option Message) {R : Rules}

theorem map_storageHash_strip {body : Bytes} {parts : List Envelope.MessagePart}
    {filter : Option Envelope.ExtractionFilter} {d : DetachedBody}
    (h : stripAttachmentBodies X body parts filter = some d) :
    d.infos.map (·.storageHash) = d.blobs.map (·.1) := by
  rw [stripAttachmentBodies, foldlM_stripPart] at h
  obtain ⟨eml, -, rfl⟩ := Option.map_eq_some_iff.mp h
  simp only [nil_append, map_map]
  rfl

theorem map_storageHash_addReport {report : Option Bytes} {d : DetachedBody}
    (h : d.infos.map (·.storageHash) = d.blobs.map (·.1)) :
    (addReport X report d).infos.map (·.storageHash) = (addReport X report d).blobs.map (·.1) := by
  cases report with
  | none => exact h
  | some report =>
    simp only [addReport, map_append, h]
    rfl

theorem map_fillTexts {β : Type} {f : AttachmentInfo → β} (hf : ∀ info text pages ocr, f { info with
      extractedText := text, extractedPageCount := pages, extractedIsOcr := ocr } = f info)
    (texts : List (String × Envelope.ExtractedText)) (infos : List AttachmentInfo) :
    (fillTexts texts infos).map f = infos.map f := by
  induction infos generalizing texts with
  | nil => rfl
  | cons info infos ih =>
    rw [fillTexts]
    split
    · rw [map_cons, map_cons, ih, hf]
    · rw [map_cons, map_cons, ih]

/-- After the attachments were detached, the record with the body and with every attachment
has just been queued. -/
def Detached (hash : String) : Except BichonError (List AttachmentInfo) → Phase → Prop
  | .ok infos, t => t = .queued (hash :: infos.map (·.storageHash))
  | .error _, t => t.rest = .idle

theorem follows_detachAndStoreAttachments (delivery : Delivery) (message : Message) (hash : String)
    {t : Phase} (ht : t.rest = .idle) :
    (detachAndStoreAttachments X delivery message hash).run.Follows (order R)
      (Detached hash) t := by
  have hrest : t.rest.rest.rest = .idle := by rw [t.rest_rest, t.rest_rest, ht]
  -- the account, then the mailbox is read
  intro _ _ _ _
  dsimp only [Prog.bind, ExceptT.bindCont]
  split
  next => exact hrest
  next detached hstrip =>
    refine ⟨⟨hrest, trivial⟩, fun _ _ _ => ?_⟩
    refine congrArg Phase.queued (congrArg (hash :: ·) ?_)
    rw [map_fillTexts fun _ _ _ _ => rfl,
      map_storageHash_addReport X (map_storageHash_strip X hstrip)]

theorem orderly_storeMessage (delivery : Delivery) (fresh : Fresh) (message : Message)
    (internalDate : Int) (hF : R.footprint.ingests delivery.accountId delivery.mailboxId) :
    Orderly R .idle (storeMessage X delivery fresh message internalDate) := by
  intro t ht
  refine Prog.Follows.bind (follows_detachAndStoreAttachments X delivery message _ ht)
    fun r t' hr => ?_
  cases r with
  | error e => exact hr
  | ok infos =>
    subst hr
    have hrest : Orderly R .idle (do
        Prog.each (fun d => sure (.queueAttachment d)) (attachmentDocs delivery fresh infos)
        return ExtractOutcome.imported) :=
      bindE (each fun _ _ => orderly_sure trivial trivial) fun _ => orderly_pure _
    exact ⟨⟨rfl, hF⟩, fun _ _ _ => ⟨⟨⟨_, rfl, rfl⟩, trivial⟩, fun _ _ _ => hrest .idle rfl⟩⟩

theorem orderly_extractEnvelope (delivery : Option Delivery) (fresh : Fresh)
    (hF : ∀ d ∈ delivery, R.footprint.ingests d.accountId d.mailboxId) :
    Orderly R .idle (extractEnvelope X parse delivery fresh) := by
  refine admitted ?_
  cases delivery with
  | none => exact orderly_pure _
  | some delivery =>
    refine bindE (read _) fun known => ite (orderly_pure _) ?_
    split
    · exact orderly_throw _
    · exact bindE (read _) fun _ =>
        ite (orderly_pure _) (orderly_storeMessage X _ _ _ _ (hF _ rfl))

theorem orderly_fatalCommit : Orderly R .writing (sure (.fatalCommit .envelopes)) :=
  fun t ht => ⟨⟨ht, trivial⟩, fun _ _ _ => t.rest_rest.trans ht⟩

theorem orderly_receiveDocs (x : IndexName) (enough : Bool) :
    Orderly R .idle (receiveDocs x enough) := by
  cases x with
  | envelopes =>
    exact orderly_withWriter_envelopes <| bindE (orderly_sure trivial trivial) fun _ =>
      ite orderly_fatalCommit (orderly_pure _)
  | attachments =>
    exact orderly_withWriter_attachments <| bindE (orderly_sure trivial trivial) fun _ =>
      ite (orderly_sure trivial trivial) (orderly_pure _)

theorem orderly_commitTick (x : IndexName) : Orderly R .idle (commitTick x) := by
  cases x with
  | envelopes => exact orderly_withWriter_envelopes orderly_fatalCommit
  | attachments => exact orderly_withWriter_attachments (orderly_sure trivial trivial)

theorem orderly_populateDedup (recent : EnvelopeDoc → Bool) :
    Orderly R .idle (populateDedup recent) := by
  refine fun t ht => ⟨⟨trivial, trivial⟩, fun o s _ => ?_⟩
  have hphase : t.search s.envelopes.committed = .found s.envelopes.committed := by
    cases t with
    | idle | found | queued | indexed => rfl
    | writing | counted => cases ht
  change Prog.Follows _ _ (t.search _) _
  rw [hphase]
  cases o with
  | some e => rfl
  | none =>
    refine ⟨⟨⟨_, rfl, fun key hkey => ?_⟩, trivial⟩, fun _ _ _ => rfl⟩
    obtain ⟨d, hd, rfl⟩ := mem_map.mp hkey
    exact ⟨d, (mem_filter.mp hd).1, rfl⟩

/-- Every call keeps the order and its footprint. -/
theorem Call.orderly (c : Call) (sees : Stores → Prop) :
    Orderly { sees, footprint := c.footprint sees } .idle (c.op X parse) := by
  cases c with
  | ingest delivery fresh =>
    exact bindE (orderly_extractEnvelope X parse delivery fresh fun d hd => ⟨d, hd, rfl, rfl⟩)
      fun _ => orderly_pure _
  | deleteMessages request => exact orderly_deleteMessagesImpl fun a ha hfree => ⟨ha, hfree⟩
  | deleteMailbox accountId mailboxId =>
    exact orderly_deleteMailboxImpl (fun hfree => ⟨rfl, hfree⟩) fun _ h => h
  | deleteAccount accountId =>
    exact orderly_deleteAndWait (fun hfree => ⟨rfl, hfree⟩) (fun row s current hs hc hid hhold =>
        ⟨s, current, hs, hc, hid.trans (s.id_of_account hc), hhold⟩)
      (fun _ h => h) fun hfree => ⟨rfl, hfree⟩
  | placeLegalHold accountId =>
    refine bindE (orderly_updateAccount fun current s _ hc => ?_) fun _ => orderly_pure _
    exact ⟨(show current.id = accountId from s.id_of_account hc), rfl⟩
  | releaseLegalHold accountId =>
    refine bindE (orderly_updateAccount fun current s _ hc => ?_) fun _ => orderly_pure _
    exact (show current.id = accountId from s.id_of_account hc)
  | retentionSweep now => exact orderly_retentionSweep now trivial fun _ h => h
  | rebuildMailbox accountId mailboxId => exact orderly_rebuildMailboxCache mailboxId rfl
  | receiveDocs x enough => exact orderly_receiveDocs x enough
  | commitTick x => exact orderly_commitTick x
  | takeBlobs | storeBlob | evictDedup => exact orderly_sure trivial trivial
  | populateDedup recent => exact orderly_populateDedup recent

end

/-- The rules for the call that was started last in a slot. -/
def rulesOf (sees : Stores → Prop) (c : Option Call) : Rules :=
  { sees, footprint := c.elim {} (·.footprint sees) }

abbrev ArchivePool (ι : Type) :=
  Pool ι Command (Option BichonError) Stores (Except BichonError Unit)

abbrev ArchiveStep (ι : Type) := PoolStep ι (Option BichonError) Call

abbrev TrackedArchive (ι : Type) :=
  System.Tracked ι Command (Option BichonError) Stores (Except BichonError Unit) Call

section

variable {ι : Type} [DecidableEq ι] {X : Extern} {parse : Bytes → Option Message}
variable {sees : Stores → Prop}

theorem obeyed_calls {p p' : ArchivePool ι} {calls : ι → Option Call} {l : ArchiveStep ι}
    {phase : ι → Phase} (hsees : sees p.store)
    (h : System.Obeyed (fun c => order (rulesOf sees c)) .idle p calls phase)
    (hnext : (archive X parse).next p l = some p') :
    ∃ phase', System.Obeyed (fun c => order (rulesOf sees c)) .idle p'
        (System.relabel some calls l) phase' ∧
      System.Moved (archive X parse) (fun c => order (rulesOf sees c)) .idle p calls phase l p'
        phase' :=
  System.obeyed_next (fun _ c _ => c.orderly X parse _) (fun _ => rfl) (fun _ => hsees) h hnext

end

end Bichon.Archive
