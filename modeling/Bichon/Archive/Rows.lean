import Mathlib.Data.Fintype.Basic
import Bichon.Archive.Footprint

/-!
# The rows of an indexed envelope

A document of the index names its account and its mailbox by their ids, and reading it
back looks up both rows. The rows and the documents are in different stores. Deleting a
mailbox removes its row before its documents, deleting an account the rows of all its
mailboxes, and an ingest puts a document into a channel that is committed later.
-/

namespace Bichon.Archive

open Account Gated Transition ByteFile List Texts

open Envelope (Extern)

/-- An envelope as it is read back, with the address of the account and the name of the
mailbox. -/
structure EnvelopeView where
  doc : EnvelopeDoc
  accountEmail : String
  mailboxName : Text
  deriving DecidableEq

/-- `AccountModel::get` and `MailBox::get` outside of a program. -/
def fromTantivyDoc (s : Stores) (d : EnvelopeDoc) : Except BichonError EnvelopeView :=
  match s.account d.accountId with
  | none => .error ⟨"Account with ID '" ++ toString d.accountId ++ "' not found", .resourceNotFound⟩
  | some account =>
    match s.mailbox d.mailboxId with
    | none => .error ⟨"mailbox " ++ toString d.mailboxId ++ " not found", .internalError⟩
    | some mailbox => .ok ⟨d, account.email, mailbox.name⟩

/-- `search_inner`: one page of the documents a query matches, in the order of `sort`. -/
def searchInner (s : Stores) (query : EnvelopeDoc → Bool)
    (sort : List EnvelopeDoc → List EnvelopeDoc) (page pageSize : Nat) :
    Except BichonError (List EnvelopeView) :=
  let found := s.envelopes.committed.filter query
  let offset := (page - 1) * pageSize
  if found.length = 0 ∨ found.length < offset then .ok []
  else (((sort found).drop offset).take pageSize).mapM (fromTantivyDoc s)

def HasRows (s : Stores) (d : EnvelopeDoc) : Prop :=
  (s.account d.accountId).isSome = true ∧ (s.mailbox d.mailboxId).isSome = true

instance (s : Stores) (d : EnvelopeDoc) : Decidable (HasRows s d) :=
  inferInstanceAs (Decidable (_ ∧ _))

/-- Every committed envelope has its rows. -/
def RowsKept (s : Stores) : Prop := ∀ d ∈ s.envelopes.committed, HasRows s d

theorem fromTantivyDoc_of_hasRows {s : Stores} {d : EnvelopeDoc} (h : HasRows s d) :
    ∃ v, fromTantivyDoc s d = .ok v := by
  obtain ⟨account, ha⟩ := Option.isSome_iff_exists.mp h.1
  obtain ⟨mailbox, hm⟩ := Option.isSome_iff_exists.mp h.2
  exact ⟨⟨d, account.email, mailbox.name⟩, by rw [fromTantivyDoc, ha, hm]⟩

theorem mapM_fromTantivyDoc {s : Stores} {ds : List EnvelopeDoc} (h : ∀ d ∈ ds, HasRows s d) :
    ∃ vs, ds.mapM (fromTantivyDoc s) = .ok vs := by
  induction ds with
  | nil => exact ⟨[], rfl⟩
  | cons d ds ih =>
    rw [forall_mem_cons] at h
    obtain ⟨v, hv⟩ := fromTantivyDoc_of_hasRows h.1
    obtain ⟨vs, hvs⟩ := ih h.2
    exact ⟨v :: vs, by rw [mapM_cons, hv, hvs]; rfl⟩

theorem searchInner_ok {s : Stores} (h : RowsKept s) (query : EnvelopeDoc → Bool)
    {sort : List EnvelopeDoc → List EnvelopeDoc} (hsort : ∀ ds, sort ds ⊆ ds)
    (page pageSize : Nat) : ∃ vs, searchInner s query sort page pageSize = .ok vs := by
  simp only [searchInner]
  split
  · exact ⟨[], rfl⟩
  · refine mapM_fromTantivyDoc fun d hd => h d ?_
    have hd := hsort _ (mem_of_mem_drop (mem_of_mem_take hd))
    exact mem_of_mem_filter hd

section

variable {s : Stores}

theorem isSome_account_upsert (row : AccountModel) {i : Nat} (h : (s.account i).isSome = true) :
    (findAccount (upsert (·.id) s.accounts row) i).isSome = true := by
  rw [findAccount, find_upsert]
  split
  · rfl
  · exact h

theorem isSome_find_filter {R : Type} (id : R → Nat) (keep : R → Bool) {rows : List R} {i : Nat}
    (hkeep : ∀ r, id r = i → keep r = true) (h : (rows.find? (id · == i)).isSome = true) :
    ((rows.filter keep).find? (id · == i)).isSome = true := by
  rw [find?_isSome] at h ⊢
  obtain ⟨r, hr, hi⟩ := h
  exact ⟨r, mem_filter.mpr ⟨hr, hkeep r (by simpa using hi)⟩, hi⟩

end

/-! ## Documents -/

def IndexStore.inFlight {D : Type} (x : IndexStore D) : List D :=
  x.pending.filterMap (·.added?) ++ x.queue

def IndexStore.docs {D : Type} (x : IndexStore D) : List D := x.committed ++ x.inFlight

namespace IndexStore

variable {D : Type} {x x' : IndexStore D} {d : D}

theorem mem_docs : d ∈ x.docs ↔ d ∈ x.committed ∨ WriterOp.add d ∈ x.pending ∨ d ∈ x.queue := by
  have hpending : d ∈ x.pending.filterMap (·.added?) ↔ WriterOp.add d ∈ x.pending := by
    rw [mem_filterMap]
    constructor
    · rintro ⟨op, hop, hd⟩
      cases op with
      | add d' =>
        cases hd
        exact hop
      | delete q => cases hd
    · exact fun h => ⟨_, h, rfl⟩
  rw [docs, inFlight, mem_append, mem_append, hpending]

theorem mem_docs_commit {hit : D → DocQuery → Bool} (h : d ∈ (x.commit hit).docs) : d ∈ x.docs := by
  rw [mem_docs] at h ⊢
  rcases h with h | h | h
  · exact (mem_foldl_apply hit _ h).imp_right .inl
  · cases h
  · exact .inr (.inr h)

theorem mem_docs_queue {d' : D}
    (h : d ∈ ({ x with queue := x.queue ++ [d'] } : IndexStore D).docs) :
    d ∈ x.docs ∨ d = d' := by
  rw [mem_docs] at h ⊢
  simpa [or_assoc] using h

end IndexStore

variable {s s' : Stores} {c : Command} {o : Option BichonError}

theorem mem_docs_exec {d : EnvelopeDoc} (hexec : exec c o s = some s')
    (hd : d ∈ s'.envelopes.docs) : d ∈ s.envelopes.docs ∨ c = .queueEnvelope d := by
  rcases envelopes_exec hexec with heq | ⟨-, heffect⟩
  · exact .inl (heq ▸ hd)
  · generalize s'.envelopes = e at hd heffect
    cases heffect with
    | lock | unlock => exact .inl hd
    | commit | fatalCommit => exact .inl (IndexStore.mem_docs_commit hd)
    | deleteQuery | receive =>
      rw [IndexStore.mem_docs] at hd ⊢
      simpa [IndexStore.write, or_assoc] using hd
    | queue d' => exact (IndexStore.mem_docs_queue hd).imp_right fun h => by rw [h]

/-! ## Rows that are deleted -/

/-- The account and the mailbox of a document. -/
def EnvelopeDoc.place (d : EnvelopeDoc) : Nat × Nat := (d.accountId, d.mailboxId)

/-- Where the envelope of an ingest goes. -/
def Call.place? : Call → Option (Nat × Nat)
  | .ingest delivery _ => delivery.map fun d => (d.accountId, d.mailboxId)
  | _ => none

/-- The call deletes the mailbox with one above it, or the account, or all the mailboxes of
an account. -/
def Call.strands (rows : List MailBox) (place : Nat × Nat) : Call → Bool
  | .deleteMailbox accountId mailboxId =>
    (rows.find? (·.id == mailboxId)).any fun mailbox =>
      (mailbox.subtreeIds accountId mailboxId rows).contains place.2
  | .deleteAccount accountId =>
    place.1 == accountId || rows.any fun row => row.accountId == accountId && row.id == place.2
  | _ => false

/-- Rows of mailboxes are only deleted. -/
def Remaining (rows : List MailBox) (s : Stores) : Prop :=
  ∃ ids : List Nat, s.mailboxes = rows.filter (!ids.contains ·.id)

theorem Remaining.exec {rows : List MailBox} {F : Footprint} (h : Remaining rows s)
    (hallows : F.allows c) (hexec : exec c o s = some s') : Remaining rows s' := by
  rcases exec_cases hexec with ⟨-, -, rfl⟩ | ⟨-, heffect⟩
  · exact h
  · obtain ⟨ids, hids⟩ := h
    cases heffect with
    | writeMailBoxes => exact hallows.elim
    | deleteMailBoxes ids' =>
      refine ⟨ids' ++ ids, ?_⟩
      rw [hids, filter_filter]
      simp only [contains_eq_mem, mem_append, Bool.decide_or, Bool.not_or]
    | writeAccount | deleteAccount | envelopes | blobs | dedup | leaves => exact ⟨ids, hids⟩
    | other _ hmailboxes => exact ⟨ids, hmailboxes.trans hids⟩

section

variable {rows : List MailBox} {accountId mailboxId id : Nat}

theorem mailbox_of_remaining {mailbox : MailBox} (h : Remaining rows s)
    (hmailbox : s.mailbox mailboxId = some mailbox) :
    rows.find? (·.id == mailboxId) = some mailbox := by
  obtain ⟨ids, hids⟩ := h
  rw [Stores.mailbox, hids, find?_filter] at hmailbox
  have hkept : mailboxId ∉ ids := by
    have hrow : mailbox.id ∉ ids ∧ mailbox.id = mailboxId := by simpa using find?_some hmailbox
    exact hrow.2 ▸ hrow.1
  rw [← hmailbox]
  refine congrArg (find? · rows) (funext fun row => ?_)
  by_cases hrow : row.id = mailboxId
  · simp [hrow, hkept]
  · simp [hrow]

theorem mem_subtreeIds_of_remaining {mailbox : MailBox} (h : Remaining rows s)
    (hid : id ∈ mailbox.subtreeIds accountId mailboxId s.mailboxes) :
    id ∈ mailbox.subtreeIds accountId mailboxId rows := by
  obtain ⟨ids, hids⟩ := h
  rw [hids] at hid
  exact ((filter_sublist.filter _).filter _).map _ |>.subset hid

/-- Who deletes the row of a mailbox or an account strands what is under it. -/
theorem strands_of_allows {call? : Option Call} {place : Nat × Nat}
    (hallows : (rulesOf (Remaining rows) call?).footprint.allows c)
    (hremoves : (∃ ids, c = .deleteMailBoxes ids ∧ place.2 ∈ ids) ∨ c = .deleteAccount place.1) :
    ∃ call ∈ call?, call.strands rows place = true := by
  cases call? with
  | none =>
    rcases hremoves with ⟨ids, rfl, hid⟩ | rfl
    · exact (hallows _ hid).elim
    · exact hallows.elim
  | some call =>
    refine ⟨call, rfl, ?_⟩
    rcases hremoves with ⟨ids, rfl, hid⟩ | rfl
    · have hid : (call.footprint (Remaining rows)).removesMailBox place.2 := hallows _ hid
      cases call with
      | deleteMailbox a m =>
        obtain ⟨s, s', hs, hs', mailbox, hmailbox, hid⟩ := hid
        rw [Call.strands, mailbox_of_remaining hs hmailbox, Option.any_some]
        exact contains_iff_mem.mpr (mem_subtreeIds_of_remaining hs' hid)
      | deleteAccount a =>
        obtain ⟨s, ⟨ids, hids⟩, row, hrow, ha, hid⟩ := hid
        rw [hids] at hrow
        rw [Call.strands, Bool.or_eq_true, any_eq_true]
        exact .inr ⟨row, (mem_filter.mp hrow).1, by simp [ha, hid]⟩
      | _ => exact hid.elim
    · have hid : (call.footprint (Remaining rows)).removesAccount place.1 := hallows
      cases call with
      | deleteAccount a => simp [Call.strands, hid.1]
      | _ => exact hid.elim

end

/-! ## Runs -/

section

variable {ι : Type} {X : Extern} {parse : Bytes → Option Message}
variable {rows : List MailBox} {place : Nat × Nat} {t t' : TrackedArchive ι}

def RowsAt (s : Stores) (place : Nat × Nat) : Prop :=
  (s.account place.1).isSome = true ∧ (s.mailbox place.2).isSome = true

/-- A mailbox or an account is deleted only when no envelope is in it or on its way to it.
An ingest is started only when its rows are there and nobody is about to delete them. -/
def VacantFirst (rows : List MailBox) (t : TrackedArchive ι) : ArchiveStep ι → Prop
  | .spawn _ c =>
    (∀ d ∈ t.pool.store.envelopes.docs, c.strands rows d.place = false) ∧
    (∀ i, ∀ c' ∈ t.underway i, ∀ place ∈ c'.place?, c.strands rows place = false) ∧
    ∀ place ∈ c.place?, RowsAt t.pool.store place ∧
      ∀ i, ∀ c' ∈ t.underway i, c'.strands rows place = false
  | _ => True

instance (s : Stores) (place : Nat × Nat) : Decidable (RowsAt s place) :=
  inferInstanceAs (Decidable (_ ∧ _))

instance [Fintype ι] (rows : List MailBox) (t : TrackedArchive ι) :
    DecidablePred (VacantFirst rows t)
  | .spawn _ _ => inferInstanceAs (Decidable (_ ∧ _ ∧ _))
  | .run _ _ | .refuse _ | .pause | .resume | .crash => isTrue trivial

/-- The rows are there, and no call that is under way deletes them. -/
def Safe (rows : List MailBox) (t : TrackedArchive ι) (place : Nat × Nat) : Prop :=
  RowsAt t.pool.store place ∧ ∀ i, ∀ c ∈ t.underway i, c.strands rows place = false

/-- Every envelope is safe where it is, and where it goes. -/
structure Undisturbed (rows : List MailBox) (t : TrackedArchive ι) : Prop where
  docs : ∀ d ∈ t.pool.store.envelopes.docs, Safe rows t d.place
  ingests : ∀ i, ∀ c ∈ t.underway i, ∀ place ∈ c.place?, Safe rows t place

theorem RowsAt.exec (h : RowsAt s place) (hwrites : ∀ rows, c ≠ .writeMailBoxes rows)
    (hremoves : ¬ ((∃ ids, c = .deleteMailBoxes ids ∧ place.2 ∈ ids) ∨ c = .deleteAccount place.1))
    (hexec : exec c o s = some s') : RowsAt s' place := by
  rcases exec_cases hexec with ⟨-, -, rfl⟩ | ⟨-, heffect⟩
  · exact h
  · cases heffect with
    | writeAccount row why => exact ⟨isSome_account_upsert row h.1, h.2⟩
    | writeMailBoxes rows => exact (hwrites rows rfl).elim
    | deleteAccount id =>
      refine ⟨isSome_find_filter _ _ (fun r hr => bne_iff_ne.mpr fun hid => ?_) h.1, h.2⟩
      exact hremoves (.inr (by rw [← hr, hid]))
    | deleteMailBoxes ids =>
      refine ⟨h.1, isSome_find_filter _ _ (fun r hr => ?_) h.2⟩
      rw [hr]
      simpa using fun hid => hremoves (.inl ⟨ids, rfl, hid⟩)
    | envelopes | blobs | dedup | leaves => exact h
    | other haccounts hmailboxes =>
      rwa [RowsAt, Stores.account, Stores.mailbox, haccounts, hmailboxes]

variable [DecidableEq ι] {l : ArchiveStep ι} {phase phase' : ι → Phase}

section

variable (hmoved : System.Moved (archive X parse)
  (fun c => order (rulesOf (Remaining rows) c)) .idle t.pool t.calls phase l t'.pool phase')
  (hnext : (archive X parse).nextTracked t l = some t')

include hmoved hnext

theorem Safe.next (h : Safe rows t place)
    (hl : ∀ i c, l = .spawn i c → c.strands rows place = false) : Safe rows t' place := by
  refine ⟨?_, fun i c hc => ?_⟩
  · generalize t'.pool = p' at hmoved
    cases hmoved with
    | call i o hi hallowed hexec =>
      refine h.1.exec ?_ (fun hremoves => ?_) hexec
      · rintro rows rfl
        exact hallowed.2
      · obtain ⟨call, hcall, hstrands⟩ := strands_of_allows hallowed.2 hremoves
        have hunderway : call ∈ t.underway i := System.mem_underway.mpr ⟨by rw [hi]; rfl, hcall⟩
        exact Bool.noConfusion ((h.2 i call hunderway).symm.trans hstrands)
    | spawn | rest | gate | crash => exact h.1
  · rcases System.mem_underway_next hnext hc with hc | rfl
    · exact h.2 i c hc
    · exact hl i c rfl

theorem Undisturbed.next (h : Undisturbed rows t) (hl : VacantFirst rows t l) :
    Undisturbed rows t' := by
  have hsafe : ∀ {place}, Safe rows t place →
      (∀ i c, l = .spawn i c → c.strands rows place = false) → Safe rows t' place :=
    fun h hl => h.next hmoved hnext hl
  refine ⟨fun d hd => ?_, fun i c hc place hplace => ?_⟩
  · have hdocs : d ∈ t.pool.store.envelopes.docs ∨
        ∃ i, ∃ c ∈ t.underway i, d.place ∈ c.place? := by
      generalize t'.pool = p' at hmoved hd
      cases hmoved with
      | call i o hi hallowed hexec =>
        refine (mem_docs_exec hexec hd).imp_right fun hqueue => ⟨i, ?_⟩
        subst hqueue
        cases hcall : t.calls i with
        | none =>
          rw [hcall] at hallowed
          exact hallowed.2.elim
        | some call =>
          refine ⟨call, System.mem_underway.mpr ⟨by rw [hi]; rfl, hcall⟩, ?_⟩
          rw [hcall] at hallowed
          have hingests : (call.footprint (Remaining rows)).ingests d.accountId d.mailboxId :=
            hallowed.2
          cases call with
          | ingest delivery fresh =>
            obtain ⟨delivery, rfl, ha, hm⟩ := hingests
            exact congrArg some (Prod.ext ha hm)
          | _ => exact hingests.elim
      | crash => exact .inl (IndexStore.mem_docs.mpr (.inl (by
          simpa [IndexStore.mem_docs, Stores.restart, IndexStore.reopen, archive] using hd)))
      | spawn | rest | gate => exact .inl hd
    rcases hdocs with hd | ⟨i, c, hc, hplace⟩
    · exact hsafe (h.docs d hd) (by rintro i c rfl; exact hl.1 d hd)
    · exact hsafe (h.ingests i c hc _ hplace) (by rintro j c' rfl; exact hl.2.1 i c hc _ hplace)
  · rcases System.mem_underway_next hnext hc with hc | rfl
    · exact hsafe (h.ingests i c hc place hplace)
        (by rintro j c' rfl; exact hl.2.1 i c hc place hplace)
    · refine hsafe (hl.2.2 place hplace) ?_
      rintro _ _ ⟨⟩
      cases c with
      | ingest => rfl
      | _ => cases hplace

end

end

/-- In every run in which a mailbox or an account is deleted only when no envelope is in it or
on its way to it, and an ingest is started only when its rows are there and nobody is about to
delete them: with errors and crashes anywhere, every committed envelope has its rows, and
every page of a search is read. -/
theorem vacant_deletions_keep_rows {ι : Type} [DecidableEq ι] (X : Extern)
    (parse : Bytes → Option Message) {store : Stores} {t : TrackedArchive ι}
    {ls : List (ArchiveStep ι)} (hstore : ∀ d ∈ store.envelopes.docs, HasRows store d)
    (hvacant : Along (archive X parse).nextTracked (VacantFirst store.mailboxes)
      ((archive X parse).startTracked store) ls)
    (hrun : runFrom (archive X parse).nextTracked ((archive X parse).startTracked store) ls =
      some t) :
    (∀ d ∈ t.pool.store.envelopes.committed, HasRows t.pool.store d ∧
        ∃ v, fromTantivyDoc t.pool.store d = .ok v) ∧
      ∀ (query : EnvelopeDoc → Bool) (sort : List EnvelopeDoc → List EnvelopeDoc),
        (∀ ds, sort ds ⊆ ds) → ∀ page pageSize,
          ∃ vs, searchInner t.pool.store query sort page pageSize = .ok vs := by
  let rules := rulesOf (Remaining store.mailboxes)
  obtain ⟨-, -, hundisturbed⟩ : Remaining store.mailboxes t.pool.store ∧
      (∃ phase, System.Obeyed (fun c => order (rules c)) .idle t.pool t.calls phase) ∧
      Undisturbed store.mailboxes t := by
    refine hvacant.invariant (I := fun t => Remaining store.mailboxes t.pool.store ∧
      (∃ phase, System.Obeyed (fun c => order (rules c)) .idle t.pool t.calls phase) ∧
      Undisturbed store.mailboxes t) ?_ ⟨⟨[], ?_⟩, ⟨fun _ => .idle, ?_⟩, ?_⟩ hrun
    · rintro t l t' ⟨hremaining, ⟨phase, hobeyed⟩, hundisturbed⟩ hl hnext
      obtain ⟨p', hp', ht'⟩ := Option.map_eq_some_iff.mp hnext
      obtain ⟨phase', hobeyed', hmoved⟩ := obeyed_calls hremaining hobeyed hp'
      subst ht'
      refine ⟨?_, ⟨phase', hobeyed'⟩, hundisturbed.next hmoved hnext hl⟩
      cases hmoved with
      | call i o hi hallowed hexec => exact hremaining.exec hallowed.2 hexec
      | spawn | rest | gate | crash => exact hremaining
    · exact (filter_eq_self.mpr fun _ _ => rfl).symm
    · exact fun _ => rfl
    · exact ⟨fun d hd => ⟨hstore d hd, fun _ => nofun⟩, fun _ => nofun⟩
  have hq : RowsKept t.pool.store := fun d hd =>
    (hundisturbed.docs d (IndexStore.mem_docs.mpr (.inl hd))).1
  exact ⟨fun d hd => ⟨hq d hd, fromTantivyDoc_of_hasRows (hq d hd)⟩,
    fun query _ hsort page pageSize => searchInner_ok hq query hsort page pageSize⟩

abbrev sampleArchive := archive Envelope.sampleExtern fun _ => some { attachments := [] }

abbrev steps (n : Nat) : List (ArchiveStep Unit) := replicate n (.run () none)

abbrev runs (i : Bool) (n : Nat) : List (ArchiveStep Bool) := replicate n (.run i none)

/-- The archive with an empty mailbox below the one with the message. -/
def emptyBelow : Stores :=
  { oneMessage with mailboxes := oneMessage.mailboxes ++
      [{ id := 3, accountId := 1, name := ['A', '/', 'B'] }] }

/-- The empty mailbox is deleted, then a message is ingested into the other one and
committed, and the process crashes. -/
def deleteAndIngest : List (ArchiveStep Unit) :=
  .spawn () (.deleteMailbox 1 3) :: steps 21 ++
    .spawn () (.ingest (some { body := [65], size := 1, accountId := 1, mailboxId := 2 })
      ⟨"e", fun _ => "", 0⟩) :: steps 9 ++
    .spawn () (.receiveDocs .envelopes true) :: steps 4 ++ [.crash]

theorem vacant_deletions_keep_rows_sample :
    ∃ t, runFrom sampleArchive.nextTracked (sampleArchive.startTracked emptyBelow)
        deleteAndIngest = some t ∧
      t.pool.store.envelopes.committed.length = 2 ∧ t.pool.store.mailboxes.length = 1 ∧
      ∀ d ∈ t.pool.store.envelopes.committed, HasRows t.pool.store d := by
  obtain ⟨t, hrun, htwo, hone⟩ :
      ∃ t ∈ runFrom sampleArchive.nextTracked (sampleArchive.startTracked emptyBelow)
        deleteAndIngest, t.pool.store.envelopes.committed.length = 2 ∧
        t.pool.store.mailboxes.length = 1 := by decide +kernel
  have hvacant : Along sampleArchive.nextTracked (VacantFirst emptyBelow.mailboxes)
      (sampleArchive.startTracked emptyBelow) deleteAndIngest := by decide +kernel
  exact ⟨t, hrun, htwo, hone, fun d hd => ((vacant_deletions_keep_rows _ _ (by decide +kernel)
    hvacant hrun).1 d hd).1⟩

/-- The row of the mailbox is deleted, then a backup starts and the deletion of the
documents is refused at the timeout. The message stays in the index without its mailbox,
and every page with it fails. -/
theorem deleted_mailbox_breaks_search :
    (runFrom sampleArchive.next (sampleArchive.start oneMessage)
        (.spawn () (.deleteMailbox 1 2) :: steps 6 ++ [.pause, .refuse ()])).map
      (fun q => (q.store.mailboxes, q.store.envelopes.committed.map (·.id),
        (searchInner q.store (fun _ => true) id 1 10).toOption)) = some ([], ["m"], none) := by
  decide +kernel

end Bichon.Archive
