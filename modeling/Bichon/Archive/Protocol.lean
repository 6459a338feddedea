import Bichon.Archive.Deletes

/-!
# The order in which the operations use the stores

An operation holds the lock of the envelope writer while it commits. It deletes blobs right
after it has looked for references to them, still with the lock. It queues an envelope right
after the record with its blobs, and then enters it into the cache. `Phase` says where an
operation is in this order, and every deletion keeps it.

A `Footprint` says what an operation does to the rows and to the index, which can depend on
what it `sees`.
-/

namespace Bichon.Archive

open Account Gated Prog Keeps

open Database (busy)

inductive Phase
  /-- without the lock of the envelope writer -/
  | idle
  /-- these documents were the committed ones just now -/
  | found (docs : List EnvelopeDoc)
  /-- a record with these keys was queued for the blob store just now -/
  | queued (keys : List String)
  /-- its envelope was queued just now -/
  | indexed (d : EnvelopeDoc)
  /-- with the lock -/
  | writing
  /-- with the lock, and these documents were the committed ones just now -/
  | counted (docs : List EnvelopeDoc)

namespace Phase

def rest : Phase → Phase
  | .idle | .found _ | .queued _ | .indexed _ => .idle
  | .writing | .counted _ => .writing

theorem rest_rest (t : Phase) : t.rest.rest = t.rest := by
  cases t <;> rfl

def search (docs : List EnvelopeDoc) : Phase → Phase
  | .idle | .found _ | .queued _ | .indexed _ => .found docs
  | .writing | .counted _ => .counted docs

theorem rest_search (docs : List EnvelopeDoc) (t : Phase) : (t.search docs).rest = t.rest := by
  cases t <;> rfl

def after (t : Phase) (c : Command) (_ : Option BichonError) (s : Stores) : Phase :=
  match c with
  | .lock .envelopes => .writing
  | .unlock .envelopes => .idle
  | .search .envelopes => t.search s.envelopes.committed
  | .queueBlob eml => .queued (eml.records.map (·.1))
  | .queueEnvelope d => .indexed d
  | _ => t.rest

/-- Which commands an operation gives in a phase. -/
def allows (t : Phase) : Command → Prop
  | .lock .envelopes | .queueBlob _ => t.rest = .idle
  | .unlock .envelopes | .commit .envelopes | .fatalCommit .envelopes => t.rest = .writing
  | .deleteBlobs keys => ∃ docs, t = .counted docs ∧ ∀ d ∈ docs, ∀ key ∈ d.blobKeys, key ∉ keys
  | .queueEnvelope d => t = .queued d.blobKeys
  | .dedupInsert key => ∃ d, t = .indexed d ∧ d.key = key
  | .dedupFill keys => ∃ docs, t = .found docs ∧ ∀ key ∈ keys, ∃ d ∈ docs, d.key = key
  | _ => True

/-- What a command does to the phase. -/
inductive Effect (t : Phase) (s : Stores) : Command → Phase → Prop
  | lock : Effect t s (.lock .envelopes) .writing
  | unlock : Effect t s (.unlock .envelopes) .idle
  | search : Effect t s (.search .envelopes) (t.search s.envelopes.committed)
  | queueBlob (eml : DetachedEmail) (ht : t.rest = .idle) :
      Effect t s (.queueBlob eml) (.queued (eml.records.map (·.1)))
  | queueEnvelope (d : EnvelopeDoc) (ht : t.rest = .idle) :
      Effect t s (.queueEnvelope d) (.indexed d)
  | other {c : Command} (hlock : c ≠ .lock .envelopes) (hunlock : c ≠ .unlock .envelopes) :
      Effect t s c t.rest

theorem effect_of_allows {t : Phase} {c : Command} (h : t.allows c) (o : Option BichonError)
    (s : Stores) : t.Effect s c (t.after c o s) := by
  cases c with
  | lock x =>
    cases x with
    | envelopes => exact .lock
    | attachments => exact .other nofun nofun
  | unlock x =>
    cases x with
    | envelopes => exact .unlock
    | attachments => exact .other nofun nofun
  | search x =>
    cases x with
    | envelopes => exact .search
    | attachments => exact .other nofun nofun
  | queueBlob eml => exact .queueBlob eml h
  | queueEnvelope d => exact .queueEnvelope d (by rw [show t = .queued _ from h]; rfl)
  | _ => exact .other nofun nofun

end Phase

/-! ## Footprints -/

/-- Which accounts an operation deletes envelopes of, which rows it writes and removes, and
for which account and mailbox it queues envelopes. -/
structure Footprint where
  deletes : Nat → Prop := fun _ => False
  writes : AccountModel → Prop := fun _ => False
  removesAccount : Nat → Prop := fun _ => False
  removesMailBox : Nat → Prop := fun _ => False
  ingests : Nat → Nat → Prop := fun _ _ => False

def Footprint.allows (F : Footprint) : Command → Prop
  | .writeAccount row _ => F.writes row
  | .deleteAccount id => F.removesAccount id
  | .writeMailBoxes _ => False
  | .deleteMailBoxes ids => ∀ id ∈ ids, F.removesMailBox id
  | .deleteQuery .envelopes q => F.deletes q.accountId
  | .queueEnvelope d => F.ingests d.accountId d.mailboxId
  | _ => True

structure Rules where
  sees : Stores → Prop
  footprint : Footprint
  mayPeek : Prop := True

def order (R : Rules) : Discipline Command (Option BichonError) Stores Phase where
  allowed t c := t.allows c ∧ R.footprint.allows c
  after := Phase.after
  rest := Phase.rest
  rest_rest := Phase.rest_rest
  sees := R.sees
  mayPeek := R.mayPeek

/-- It was seen that the account is not on hold. -/
def SeenFree (sees : Stores → Prop) (accountId : Nat) : Prop :=
  ∃ s, sees s ∧ ∃ account ∈ s.accounts, account.id = accountId ∧ account.isOnHold = false

/-- It was seen that the mailbox is one of those below another. -/
def SeenUnder (sees : Stores → Prop) (accountId mailboxId id : Nat) : Prop :=
  ∃ s s', sees s ∧ sees s' ∧ ∃ mailbox, s.mailbox mailboxId = some mailbox ∧
    id ∈ mailbox.subtreeIds accountId mailboxId s'.mailboxes

def SeenMailBox (sees : Stores → Prop) (accountId id : Nat) : Prop :=
  ∃ s, sees s ∧ ∃ row ∈ s.mailboxes, row.accountId = accountId ∧ row.id = id

/-- The commands that are allowed in every phase. -/
def Command.Neutral : Command → Prop
  | .lock .envelopes | .unlock .envelopes | .commit .envelopes | .fatalCommit .envelopes
  | .deleteBlobs _ | .queueBlob _ | .queueEnvelope _ | .dedupInsert _ | .dedupFill _ => False
  | _ => True

/-- The operation keeps the order, and starts and ends in the same phase. -/
abbrev Orderly {α : Type} (R : Rules) (t₀ : Phase) (p : Op α) : Prop := p.run.Keeps (order R) t₀

section

variable {α : Type} {R : Rules} {t₀ : Phase}

theorem Command.Neutral.allowed {c : Command} (h : c.Neutral) (hF : R.footprint.allows c)
    (t : Phase) (ht : t.rest = t₀) :
    (order R).allowed t c ∧ ∀ o s, ((order R).after t c o s).rest = t₀ := by
  have hrest : t.rest.rest = t₀ := t.rest_rest.trans ht
  have hphase : t.allows c ∧ ∀ o s, (t.after c o s).rest = t₀ := by
    cases c with
    | lock x | unlock x | commit x | fatalCommit x =>
      cases x with
      | envelopes => exact h.elim
      | attachments => exact ⟨trivial, fun _ _ => hrest⟩
    | search x =>
      cases x with
      | envelopes => exact ⟨trivial, fun _ s => (t.rest_search _).trans ht⟩
      | attachments => exact ⟨trivial, fun _ _ => hrest⟩
    | deleteBlobs | queueBlob | queueEnvelope | dedupInsert | dedupFill => exact h.elim
    | writeAccount | deleteAccount | writeMailBoxes | deleteMailBoxes | writeUser | deleteToken
    | deleteDownloadState | deleteQuery | receive | queueAttachment | takeBlobs | storeBlob
    | dedupRemove | recordDeletions => exact ⟨trivial, fun _ _ => hrest⟩
  exact ⟨⟨hphase.1, hF⟩, hphase.2⟩

theorem orderly_neutral {c : Command} {k : Option BichonError → Stores → Except BichonError α}
    (h : c.Neutral) (hF : R.footprint.allows c) :
    Orderly R t₀ (Prog.call c fun o s => .done (k o s)) :=
  call (h.allowed hF) fun _ _ => done _

theorem orderly_run {c : Command} (h : c.Neutral) (hF : R.footprint.allows c) :
    Orderly R t₀ (run c) :=
  orderly_neutral h hF

theorem orderly_sure {c : Command} (h : c.Neutral) (hF : R.footprint.allows c) :
    Orderly R t₀ (sure c) :=
  orderly_neutral h hF

theorem orderly_search (x : IndexName) (f : Stores → α) : Orderly R t₀ (search x f) :=
  orderly_neutral trivial trivial

theorem orderly_pure (a : α) : Orderly R t₀ (pure a) := Keeps.done _

theorem orderly_throw (e : BichonError) : Orderly R t₀ (throw e : Op α) := done _

theorem orderly_withWriter_attachments {body : Op α} (h : Orderly R t₀ body) :
    Orderly R t₀ (withWriter .attachments body) :=
  call (Command.Neutral.allowed trivial trivial) fun _ _ => bind h fun _ =>
    orderly_neutral trivial trivial

theorem orderly_withWriter_envelopes {body : Op α} (h : Orderly R .writing body) :
    Orderly R .idle (withWriter .envelopes body) :=
  fun _ ht => ⟨⟨ht, trivial⟩, fun _ _ _ => Prog.Follows.bind (h .writing rfl) fun _ _ ht' =>
    ⟨⟨ht', trivial⟩, fun _ _ _ => rfl⟩⟩

/-! ## Documents and blobs -/

theorem orderly_collectAll (queries : List DocQuery) : Orderly R t₀ (collectAll queries) := by
  induction queries with
  | nil => exact orderly_pure _
  | cons q qs ih =>
    exact bindE (orderly_search _ _) fun _ => bindE ih fun _ => orderly_pure _

theorem referenced_iff {docs : List EnvelopeDoc} {key : String} :
    referenced docs key = true ↔ ∃ e ∈ docs, key ∈ e.blobKeys := by
  rw [referenced, List.any_eq_true]
  refine exists_congr fun e => and_congr_right fun _ => ?_
  rw [Bool.or_eq_true, beq_iff_eq, List.contains_iff_mem, EnvelopeDoc.blobKeys, List.mem_cons,
    eq_comm]

theorem orderly_cleanupUnusedContent (c : Collected) :
    Orderly R .writing (cleanupUnusedContent c) := by
  refine fun t ht => ⟨⟨ht, trivial⟩, fun _ _ _ => ⟨⟨trivial, trivial⟩, fun o s _ => ?_⟩⟩
  have hphase : t.rest.search s.envelopes.committed = .counted s.envelopes.committed :=
    congrArg (Phase.search _) ht
  change Prog.Follows _ _ (t.rest.search _) _
  rw [hphase]
  cases o with
  | some e => rfl
  | none =>
    change (if _ then _ else _ : Op Unit).run.Follows _ _ _
    split
    · rfl
    · refine ⟨⟨⟨_, rfl, fun d hd key hkey hmem => ?_⟩, trivial⟩, fun _ _ _ => rfl⟩
      have hunused := (List.mem_filter.mp hmem).2
      rw [referenced_iff.mpr ⟨d, hd, hkey⟩] at hunused
      cases hunused

theorem orderly_purgeEnvelopes {queries : List DocQuery} {between : Op Unit}
    {keep : Collected → DedupKey → Bool} (hF : ∀ q ∈ queries, R.footprint.deletes q.accountId)
    (hbetween : Orderly R .writing between) :
    Orderly R .idle (purgeEnvelopes queries between keep) := by
  refine bindE (orderly_collectAll queries) fun found => orderly_withWriter_envelopes ?_
  have hcommit : Orderly R .writing (run (.commit .envelopes)) :=
    fun t ht => ⟨⟨ht, trivial⟩, fun _ _ _ => t.rest_rest.trans ht⟩
  refine bindE (each fun q hq => orderly_run trivial (hF q hq)) fun _ => ?_
  refine bindE hcommit fun _ => bindE hbetween fun _ => ?_
  refine bindE ?_ fun _ => bindE (orderly_sure trivial trivial) fun _ =>
    orderly_sure trivial trivial
  exact ite (orderly_pure _) (orderly_cleanupUnusedContent found)

theorem orderly_purgeAttachments (queries : List DocQuery) :
    Orderly R t₀ (purgeAttachments queries) :=
  admitted <| orderly_withWriter_attachments <|
    bindE (each fun _ _ => orderly_run trivial trivial) fun _ => orderly_run trivial trivial

/-! ## Messages, mailboxes and accounts -/

theorem gives_getAccount (id : Nat) : Gives (order R) t₀
    (fun a => ∃ s, R.sees s ∧ s.account id = some a) (getAccount id) :=
  Gives.bindE (Gives.read _) fun
    | some _, ⟨s, hs, ha⟩ => Gives.pure ⟨s, hs, ha.symm⟩
    | none, _ => Gives.throw _

theorem gives_getMailBox (id : Nat) : Gives (order R) t₀
    (fun m => ∃ s, R.sees s ∧ s.mailbox id = some m) (getMailBox id) :=
  Gives.bindE (Gives.read _) fun
    | some _, ⟨s, hs, hm⟩ => Gives.pure ⟨s, hs, hm.symm⟩
    | none, _ => Gives.throw _

theorem Stores.id_of_account {s : Stores} {id : Nat} {account : AccountModel}
    (h : s.account id = some account) : account.id = id := by
  simpa using List.find?_some h

theorem seenFree_of_account {sees : Stores → Prop} {s : Stores} {id : Nat} {account : AccountModel}
    (hs : sees s) (h : s.account id = some account) (hfree : ¬ account.isOnHold = true) :
    SeenFree sees id :=
  ⟨s, hs, account, List.mem_of_find?_eq_some h, s.id_of_account h, Bool.not_eq_true _ ▸ hfree⟩

theorem orderly_updateImpl {A : Type} (collection : String) (id : Nat) (find : Stores → Option A)
    {update : A → A} {write : A → Command}
    (h : ∀ r s, R.sees s → find s = some r →
      (write (update r)).Neutral ∧ R.footprint.allows (write (update r))) :
    Orderly R t₀ (updateImpl collection id find update write) :=
  admitted <| Gives.bindK (Gives.read _) fun
    | some r, ⟨s, hs, hr⟩ =>
      bindE (orderly_run (h r s hs hr.symm).1 (h r s hs hr.symm).2) fun _ => orderly_pure _
    | none, _ => orderly_throw _

theorem orderly_updateAccount {id : Nat} {why : AccountWrite}
    {update : AccountModel → AccountModel}
    (h : ∀ current s, R.sees s → s.account id = some current →
      R.footprint.writes (update current)) :
    Orderly R t₀ (updateAccount id why update) :=
  orderly_updateImpl _ _ _ fun r s hs hr => ⟨trivial, h r s hs hr⟩

theorem orderly_deleteImpl (collection : String) (id : Nat) (existed : Stores → Bool)
    {delete : Command} (h : delete.Neutral) (hF : R.footprint.allows delete) :
    Orderly R t₀ (deleteImpl collection id existed delete) :=
  admitted (orderly_neutral h hF)

theorem orderly_deleteAccountEnvelopes {accountId : Nat} (hF : R.footprint.deletes accountId) :
    Orderly R .idle (deleteAccountEnvelopes accountId) :=
  admitted <| orderly_purgeEnvelopes (List.forall_mem_singleton.mpr hF) (orderly_purgeAttachments _)

theorem orderly_deleteMailboxEnvelopes {accountId : Nat} (mailboxIds : List Nat)
    (hF : R.footprint.deletes accountId) :
    Orderly R .idle (deleteMailboxEnvelopes accountId mailboxIds) := by
  refine ite (orderly_pure _) (admitted (orderly_purgeEnvelopes ?_ (orderly_pure _)))
  exact List.forall_mem_map.mpr fun _ _ => hF

theorem orderly_deleteMailboxAttachments (accountId : Nat) (mailboxIds : List Nat) :
    Orderly R t₀ (deleteMailboxAttachments accountId mailboxIds) :=
  ite (orderly_pure _) (orderly_purgeAttachments _)

theorem orderly_deleteMessagesImpl {request : Request}
    (hF : ∀ a ∈ request.map (·.1), SeenFree R.sees a → R.footprint.deletes a) :
    Orderly R .idle (deleteMessagesImpl request) := by
  have hcheck : ∀ a, Gives (order R) .idle (fun _ => SeenFree R.sees a) (do
      let account ← getAccount a
      if account.isOnHold then throw (heldError account "deleting its messages")) := by
    intro a
    refine Gives.bindE (gives_getAccount a) fun account ⟨s, hs, ha⟩ => ?_
    split
    next => exact Gives.throw _
    next hfree => exact Gives.pure (seenFree_of_account hs ha hfree)
  refine Gives.bindK (Gives.each hcheck) fun _ hfree => bindE ?_ fun _ =>
    ite (orderly_pure _) (orderly_purgeAttachments _)
  refine ite (orderly_pure _) (admitted (orderly_purgeEnvelopes (fun q hq => ?_) (orderly_pure _)))
  obtain ⟨⟨a, ids⟩, ha, hids⟩ := List.mem_flatMap.mp hq
  obtain ⟨id, -, rfl⟩ := List.mem_map.mp hids
  have ha : a ∈ request.map (·.1) := List.mem_map_of_mem ha
  exact hF a ha (hfree a ha)

theorem orderly_deleteMailboxImpl {accountId mailboxId : Nat}
    (hF : SeenFree R.sees accountId → R.footprint.deletes accountId)
    (hrows : ∀ id, SeenUnder R.sees accountId mailboxId id → R.footprint.removesMailBox id) :
    Orderly R .idle (deleteMailboxImpl accountId mailboxId) := by
  refine Gives.bindK (gives_getAccount _) fun account ⟨s, hs, ha⟩ => ?_
  have hids : Gives (order R) .idle
      (fun ids => ∀ id ∈ ids, SeenUnder R.sees accountId mailboxId id)
      (mailboxSubtreeIds accountId mailboxId) := by
    refine Gives.bindE (gives_getMailBox _) fun mailbox ⟨s, hs, hm⟩ t ht => ?_
    refine (Gives.read _ t ht).imp fun r t' ⟨ht', hr⟩ => ⟨ht', fun ids hok id hid => ?_⟩
    obtain ⟨s', hs', rfl⟩ := hr ids hok
    exact ⟨s, s', hs, hs', mailbox, hm, hid⟩
  have hrest (hfree : ¬ account.isOnHold = true) : Orderly R .idle
      (mailboxSubtreeIds accountId mailboxId >>= fun ids => if ids.isEmpty then pure () else do
        Prog.each deleteMailBox ids
        deleteMailboxEnvelopes accountId ids
        deleteMailboxAttachments accountId ids) := by
    refine Gives.bindK hids fun ids hunder => ite (orderly_pure _) (bindE (each fun id hid =>
      orderly_deleteImpl _ _ _ trivial ?_) fun _ => bindE (orderly_deleteMailboxEnvelopes _
        (hF (seenFree_of_account hs ha hfree))) fun _ => orderly_deleteMailboxAttachments _ _)
    exact List.forall_mem_singleton.mpr (hrows id (hunder id hid))
  split
  next => exact orderly_throw _
  next hfree => exact hrest hfree

theorem orderly_deleteIfFound (collection : String) (id : Nat) (found : Stores → Bool)
    {c : Command} (h : c.Neutral) (hF : R.footprint.allows c) :
    Orderly R t₀ (do if ← Prog.read found then deleteImpl collection id found c) :=
  bindE (read _) fun _ => ite (orderly_deleteImpl _ _ _ h hF) (orderly_pure _)

theorem orderly_cleanupCommon {accountId : Nat} (hF : R.footprint.deletes accountId)
    (hrows : ∀ id, SeenMailBox R.sees accountId id → R.footprint.removesMailBox id)
    (hrow : R.footprint.removesAccount accountId) :
    Orderly R .idle (cleanupCommon accountId) := by
  refine bindE (orderly_deleteIfFound _ _ _ trivial trivial) fun _ => ?_
  have husers : Orderly R .idle (cleanupUsers accountId) := bindE (read _) fun _ => each fun _ _ =>
      bindE (orderly_updateImpl _ _ _ fun _ _ _ _ => ⟨trivial, trivial⟩) fun _ => orderly_pure _
  have hclean : Orderly R .idle (cleanMailBoxes accountId) := by
    refine Gives.bindK (Gives.read _) fun ids ⟨s, hs, hids⟩ =>
      ite (orderly_pure _) (admitted (orderly_run trivial fun id hid => hrows id ?_))
    rw [hids] at hid
    obtain ⟨row, hrow, rfl⟩ := List.mem_map.mp hid
    obtain ⟨hrow, haccount⟩ := List.mem_filter.mp hrow
    exact ⟨s, hs, row, hrow, by simpa using haccount, rfl⟩
  exact bindE husers fun _ => bindE hclean fun _ =>
    bindE (orderly_deleteAccountEnvelopes hF) fun _ =>
      bindE (orderly_purgeAttachments _) fun _ => orderly_deleteImpl _ _ _ trivial hrow

theorem orderly_cleanup {row : AccountModel} (hF : R.footprint.deletes row.id)
    (hrows : ∀ id, SeenMailBox R.sees row.id id → R.footprint.removesMailBox id)
    (hrow : R.footprint.removesAccount row.id) :
    Orderly R .idle (cleanupAccountResourcesSequential row) :=
  ite (bindE (orderly_deleteIfFound _ _ _ trivial trivial) fun _ =>
    orderly_cleanupCommon hF hrows hrow) (orderly_cleanupCommon hF hrows hrow)

theorem gives_ensureDeletable (row : AccountModel) :
    Gives (order R) t₀ (fun _ => ¬ row.isOnHold = true) (ensureDeletable row) := by
  change Gives _ _ _ (if _ then _ else _ : Op Unit)
  split
  next => exact Gives.throw _
  next hfree =>
    split
    next => exact Gives.throw _
    next =>
      refine Gives.bindE (Gives.read _) fun views _ => ?_
      split
      · exact Gives.throw _
      · exact Gives.pure hfree

theorem orderly_deleteAndWait {accountId : Nat}
    (hF : SeenFree R.sees accountId → R.footprint.deletes accountId)
    (hwrites : ∀ row s current, R.sees s → s.account accountId = some current →
      row.id = current.id → row.isOnHold = current.isOnHold → R.footprint.writes row)
    (hrows : ∀ id, SeenMailBox R.sees accountId id → R.footprint.removesMailBox id)
    (hrow : SeenFree R.sees accountId → R.footprint.removesAccount accountId) :
    Orderly R .idle (deleteAndWait accountId) := by
  refine Gives.bindK (gives_getAccount _) fun account ⟨s, hs, ha⟩ =>
    Gives.bindK (gives_ensureDeletable account) fun _ hfree => ?_
  have hid := s.id_of_account ha
  subst hid
  have hseen := seenFree_of_account hs ha hfree
  exact bindE (orderly_updateAccount fun current s hs hr => hwrites _ s current hs hr rfl rfl)
    fun _ => onError (orderly_cleanup (hF hseen) hrows (hrow hseen))
      (orderly_updateAccount fun current s hs hr => hwrites _ s current hs hr rfl rfl)

theorem orderly_deleteEnvelopesBefore {accountId : Nat} (cutoffMs : Int)
    (hF : R.footprint.deletes accountId) :
    Orderly R .idle (deleteEnvelopesBefore accountId cutoffMs) :=
  bindE (orderly_search _ _) fun _ => ite (orderly_pure _)
    (admitted (orderly_purgeEnvelopes (List.forall_mem_singleton.mpr hF) (orderly_pure _)))

theorem orderly_retentionSweep (now : Int) (hpeek : R.mayPeek)
    (hF : ∀ a, SeenFree R.sees a → R.footprint.deletes a) :
    Orderly R .idle (retentionSweep now) := by
  refine peek hpeek fun
    | true => done _
    | false => Gives.bindK (Gives.read _) fun accounts ⟨s, hs, haccounts⟩ =>
        each fun account haccount => ?_
  change Prog.Keeps _ _ (if _ then _ else _ : Op Unit).run
  split
  next => exact orderly_pure _
  next hkept =>
    have hfree : account.isOnHold = false := by
      rw [Bool.or_eq_true, not_or] at hkept
      exact Bool.eq_false_iff.mpr hkept.2
    exact bind (orderly_deleteEnvelopesBefore _ (hF _ ⟨s, hs, account, haccounts ▸ haccount, rfl,
      hfree⟩)) fun _ => done _

theorem orderly_rebuildMailboxCache {accountId : Nat} (localMailboxId : Nat)
    (hF : R.footprint.deletes accountId) :
    Orderly R .idle (rebuildMailboxCache accountId localMailboxId) :=
  bindE (orderly_deleteMailboxEnvelopes _ hF) fun _ => orderly_deleteMailboxAttachments _ _

end

end Bichon.Archive
