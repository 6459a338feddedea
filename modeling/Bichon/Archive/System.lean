import Bichon.Archive.Ingest
import Bichon.Lib.Pool

/-!
# The archive as a whole

Any number of calls run next to each other on the stores, with the writer tasks, the
pauses of the gate and crashes in between. `perform_effect` says what a command can do to
the stores; the invariants of the archive are derived from it.
-/

namespace Bichon.Archive

open Account Gated ByteFile List Option

open Envelope (Extern)

inductive Call
  | ingest (delivery : Option Delivery) (fresh : Fresh)
  | deleteMessages (request : Request)
  | deleteMailbox (accountId mailboxId : Nat)
  | deleteAccount (accountId : Nat)
  | placeLegalHold (accountId : Nat)
  | releaseLegalHold (accountId : Nat)
  | retentionSweep (now : Int)
  | rebuildMailbox (accountId mailboxId : Nat)
  | receiveDocs (x : IndexName) (enough : Bool)
  | commitTick (x : IndexName)
  | takeBlobs
  | storeBlob
  | populateDedup (recent : EnvelopeDoc → Bool)
  /-- the cache is full and keeps the newest entries -/
  | evictDedup (kept : DedupKey → Bool)

section

variable (X : Extern) (parse : Bytes → Option Message)

def Call.op : Call → Op Unit
  | .ingest delivery fresh => do let _ ← extractEnvelope X parse delivery fresh
  | .deleteMessages request => deleteMessagesImpl request
  | .deleteMailbox accountId mailboxId => deleteMailboxImpl accountId mailboxId
  | .deleteAccount accountId => deleteAndWait accountId
  | .placeLegalHold accountId => do let _ ← Archive.placeLegalHold accountId
  | .releaseLegalHold accountId => do let _ ← Archive.releaseLegalHold accountId
  | .retentionSweep now => Archive.retentionSweep now
  | .rebuildMailbox accountId mailboxId => rebuildMailboxCache accountId mailboxId
  | .receiveDocs x enough => Archive.receiveDocs x enough
  | .commitTick x => Archive.commitTick x
  | .takeBlobs => sure .takeBlobs
  | .storeBlob => sure .storeBlob
  | .populateDedup recent => Archive.populateDedup recent
  | .evictDedup kept => sure (.dedupRemove kept)

def archive : System Command (Option BichonError) Stores (Except BichonError Unit) Call where
  exec := exec
  program c := (c.op X parse).run
  restart := Stores.restart
  idle := .ok ()

end

section

variable {R : Type} (id : R → Nat)

theorem find_upsert (rows : List R) (row : R) (i : Nat) :
    (upsert id rows row).find? (id · == i) =
      if id row = i then some row else rows.find? (id · == i) := by
  induction rows with
  | nil =>
    by_cases hi : id row = i
    · simp [upsert, hi]
    · simp [upsert, hi]
  | cons r rs ih =>
    rw [upsert]
    by_cases hr : id r = id row
    · rw [if_pos hr]
      by_cases hi : id row = i
      · simp [hi]
      · simp [hi, hr]
    · rw [if_neg hr]
      by_cases hri : id r = i
      · have hi : id row ≠ i := fun h => hr (hri.trans h.symm)
        simp [hri, hi]
      · simp only [find?_cons, beq_false_of_ne hri]
        exact ih

end

def WriterOp.deleted? {D : Type} : WriterOp D → Option DocQuery
  | .add _ => none
  | .delete q => some q

theorem IndexStore.mem_foldl_apply {D : Type} (hit : D → DocQuery → Bool) (ops : List (WriterOp D))
    {ds : List D} {d : D} (h : d ∈ ops.foldl (apply hit) ds) : d ∈ ds ∨ WriterOp.add d ∈ ops := by
  induction ops generalizing ds with
  | nil => exact .inl h
  | cons op ops ih =>
    rcases ih h with hd | hd
    · cases op with
      | add d' =>
        rcases mem_append.mp hd with hd | hd
        · exact .inl hd
        · rw [mem_singleton.mp hd]
          exact .inr mem_cons_self
      | delete q => exact .inl (mem_of_mem_filter hd)
    · exact .inr (mem_cons_of_mem _ hd)

theorem IndexStore.mem_foldl_apply_of_not_hit {D : Type} {hit : D → DocQuery → Bool}
    {ops : List (WriterOp D)} {ds : List D} {d : D} (hd : d ∈ ds)
    (hops : ∀ op ∈ ops, ∀ q ∈ op.deleted?, hit d q = false) : d ∈ ops.foldl (apply hit) ds := by
  induction ops generalizing ds with
  | nil => exact hd
  | cons op ops ih =>
    rw [forall_mem_cons] at hops
    refine ih ?_ hops.2
    cases op with
    | add d' => exact mem_append_left _ hd
    | delete q =>
      have hq : hit d q = false := hops.1 q rfl
      exact mem_filter.mpr ⟨hd, by rw [hq]; rfl⟩

/-- What a command does to the index of the envelopes. -/
inductive EnvelopesEffect (e : IndexStore EnvelopeDoc) : Command → IndexStore EnvelopeDoc → Prop
  | lock (h : e.locked = false) : EnvelopesEffect e (.lock .envelopes) { e with locked := true }
  | unlock : EnvelopesEffect e (.unlock .envelopes) e.unlock
  | deleteQuery (q : DocQuery) :
      EnvelopesEffect e (.deleteQuery .envelopes q) (e.write (.delete q))
  | commit : EnvelopesEffect e (.commit .envelopes) (e.commit EnvelopeDoc.matches)
  | fatalCommit : EnvelopesEffect e (.fatalCommit .envelopes) (e.commit EnvelopeDoc.matches)
  | receive : EnvelopesEffect e (.receive .envelopes)
      { e with queue := [], pending := e.pending ++ e.queue.map .add }
  | queue (d : EnvelopeDoc) :
      EnvelopesEffect e (.queueEnvelope d) { e with queue := e.queue ++ [d] }

/-- What a command does to the blobs. -/
inductive BlobsEffect (b : BlobStore) : Command → BlobStore → Prop
  | queue (eml : DetachedEmail) :
      BlobsEffect b (.queueBlob eml) { b with queue := b.queue ++ [eml] }
  | take {b' : BlobStore} (h : b.take = some b') : BlobsEffect b .takeBlobs b'
  | store {b' : BlobStore} (h : b.storeNext = some b') : BlobsEffect b .storeBlob b'
  | delete (keys : List String) : BlobsEffect b (.deleteBlobs keys) (b.delete keys)

inductive DedupEffect (keys : List DedupKey) : Command → List DedupKey → Prop
  | insert (key : DedupKey) : DedupEffect keys (.dedupInsert key) (key :: keys)
  | fill (new : List DedupKey) : DedupEffect keys (.dedupFill new) (new ++ keys)
  | remove (keep : DedupKey → Bool) : DedupEffect keys (.dedupRemove keep) (keys.filter keep)

/-- What is stored of the messages. -/
structure Mail where
  envelopes : IndexStore EnvelopeDoc
  blobs : BlobStore
  dedup : List DedupKey
  leaves : List LeafRecord

def Stores.mail (s : Stores) : Mail := ⟨s.envelopes, s.blobs, s.dedup, s.leaves⟩

/-- What a command does to the rows of the accounts and the mailboxes, and to the mail. -/
inductive Effect (s : Stores) : Command → Stores → Prop
  | writeAccount (row : AccountModel) (why : AccountWrite) :
      Effect s (.writeAccount row why) { s with accounts := upsert (·.id) s.accounts row }
  | deleteAccount (id : Nat) :
      Effect s (.deleteAccount id) { s with accounts := s.accounts.filter (·.id != id) }
  | writeMailBoxes (rows : List MailBox) :
      Effect s (.writeMailBoxes rows)
        { s with mailboxes := rows.foldl (upsert (·.id)) s.mailboxes }
  | deleteMailBoxes (ids : List Nat) :
      Effect s (.deleteMailBoxes ids)
        { s with mailboxes := s.mailboxes.filter (!ids.contains ·.id) }
  | envelopes {c : Command} {e : IndexStore EnvelopeDoc} (h : EnvelopesEffect s.envelopes c e) :
      Effect s c { s with envelopes := e }
  | blobs {c : Command} {b : BlobStore} (h : BlobsEffect s.blobs c b) :
      Effect s c { s with blobs := b }
  | dedup {c : Command} {keys : List DedupKey} (h : DedupEffect s.dedup c keys) :
      Effect s c { s with dedup := keys }
  | leaves (records : List LeafRecord) :
      Effect s (.recordDeletions records) { s with leaves := s.leaves ++ records }
  | other {c : Command} {s' : Stores} (haccounts : s'.accounts = s.accounts)
      (hmailboxes : s'.mailboxes = s.mailboxes) (hmail : s'.mail = s.mail) : Effect s c s'

theorem perform_effect {s s' : Stores} {c : Command} (h : s.perform c = some s') :
    Effect s c s' := by
  cases c with
  | writeAccount row why => cases h; exact .writeAccount row why
  | deleteAccount id => cases h; exact .deleteAccount id
  | writeMailBoxes rows => cases h; exact .writeMailBoxes rows
  | deleteMailBoxes ids => cases h; exact .deleteMailBoxes ids
  | recordDeletions records => cases h; exact .leaves records
  | dedupInsert | dedupFill | dedupRemove => cases h; exact .dedup (by constructor)
  | writeUser | deleteToken | deleteDownloadState | search => cases h; exact .other rfl rfl rfl
  | lock x =>
    cases x with
    | envelopes =>
      obtain ⟨e, he, rfl⟩ := map_eq_some_iff.mp h
      obtain ⟨hlocked, ⟨⟩⟩ := ite_none_left_eq_some.mp he
      exact .envelopes (.lock (Bool.eq_false_iff.mpr hlocked))
    | attachments =>
      obtain ⟨_, -, rfl⟩ := map_eq_some_iff.mp h
      exact .other rfl rfl rfl
  | receive x =>
    cases x with
    | envelopes =>
      obtain ⟨e, he, rfl⟩ := map_eq_some_iff.mp h
      obtain ⟨-, ⟨⟩⟩ := ite_none_left_eq_some.mp he
      exact .envelopes .receive
    | attachments =>
      obtain ⟨_, -, rfl⟩ := map_eq_some_iff.mp h
      exact .other rfl rfl rfl
  | unlock x | deleteQuery x | commit x | fatalCommit x =>
    cases x with
    | envelopes => cases h; exact .envelopes (by constructor)
    | attachments => cases h; exact .other rfl rfl rfl
  | queueEnvelope d =>
    obtain ⟨e, he, rfl⟩ := map_eq_some_iff.mp h
    obtain ⟨-, ⟨⟩⟩ := ite_none_right_eq_some.mp he
    exact .envelopes (.queue d)
  | queueAttachment d =>
    obtain ⟨_, -, rfl⟩ := map_eq_some_iff.mp h
    exact .other rfl rfl rfl
  | queueBlob eml =>
    obtain ⟨b, hb, rfl⟩ := map_eq_some_iff.mp h
    obtain ⟨-, ⟨⟩⟩ := ite_none_right_eq_some.mp hb
    exact .blobs (.queue eml)
  | takeBlobs =>
    obtain ⟨b, hb, rfl⟩ := map_eq_some_iff.mp h
    exact .blobs (.take hb)
  | storeBlob =>
    obtain ⟨b, hb, rfl⟩ := map_eq_some_iff.mp h
    exact .blobs (.store hb)
  | deleteBlobs keys => cases h; exact .blobs (.delete keys)

theorem exec_cases {c : Command} {o : Option BichonError} {s s' : Stores}
    (h : exec c o s = some s') :
    ((∃ e, o = some e) ∧ c.canFail = true ∧ s' = s) ∨ (o = none ∧ Effect s c s') := by
  cases o with
  | none => exact .inr ⟨rfl, perform_effect h⟩
  | some e =>
    obtain ⟨hfail, ⟨⟩⟩ := ite_none_right_eq_some.mp h
    exact .inl ⟨⟨e, rfl⟩, hfail, rfl⟩

/-- A command leaves the index of the envelopes as it is, or it is one of this index. -/
theorem envelopes_exec {c : Command} {o : Option BichonError} {s s' : Stores}
    (h : exec c o s = some s') : s'.envelopes = s.envelopes ∨
      (o = none ∧ EnvelopesEffect s.envelopes c s'.envelopes) := by
  rcases exec_cases h with ⟨-, -, rfl⟩ | ⟨ho, heffect⟩
  · exact .inl rfl
  · cases heffect with
    | envelopes henvelopes => exact .inr ⟨ho, henvelopes⟩
    | writeAccount | deleteAccount | writeMailBoxes | deleteMailBoxes | blobs | dedup | leaves =>
      exact .inl rfl
    | other _ _ hmail => exact .inl (congrArg Mail.envelopes hmail)

/-- What holds of the deletions that the index writer has collected goes on to hold. -/
theorem pending_exec {P : DocQuery → Prop} {c : Command} {o : Option BichonError} {s s' : Stores}
    (h : exec c o s = some s') (hquery : ∀ q, c = .deleteQuery .envelopes q → P q)
    (hs : ∀ op ∈ s.envelopes.pending, ∀ q ∈ op.deleted?, P q) :
    ∀ op ∈ s'.envelopes.pending, ∀ q ∈ op.deleted?, P q := by
  rcases envelopes_exec h with heq | ⟨-, heffect⟩
  · rwa [heq]
  · generalize s'.envelopes = e at heffect
    cases heffect with
    | lock | unlock | queue => exact hs
    | commit | fatalCommit => exact nofun
    | receive => exact forall_mem_append.mpr ⟨hs, forall_mem_map.mpr fun _ _ => nofun⟩
    | deleteQuery q =>
      refine forall_mem_append.mpr ⟨hs, forall_mem_singleton.mpr fun _ hq => ?_⟩
      cases hq
      exact hquery q rfl

theorem EnvelopesEffect.committed {e e' : IndexStore EnvelopeDoc} {c : Command}
    (h : EnvelopesEffect e c e') : e'.committed = e.committed ∨
      ((c = .commit .envelopes ∨ c = .fatalCommit .envelopes) ∧
        e' = e.commit EnvelopeDoc.matches) := by
  cases h with
  | commit => exact .inr ⟨.inl rfl, rfl⟩
  | fatalCommit => exact .inr ⟨.inr rfl, rfl⟩
  | lock | unlock | deleteQuery | receive | queue => exact .inl rfl

end Bichon.Archive
