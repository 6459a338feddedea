import Bichon.Imap.Calls

/-!
# What a watermark covers

A folder download returns the largest UID it has listed. No loop compares what it has
stored with what it has asked for: a message that the server leaves out of its response,
or sends without a body, is passed over in silence. A download that returns a watermark
has handed every body it was sent to the extractor, so a message is dealt with exactly
when the server has sent its body or a size above the limit.

The loop over the bodies settles those that are ahead of it (`Pays`); everything else that a
successful download does is balanced by itself.
-/

namespace Bichon.Imap

open Account Archive Gated ByteFile Prog List Texts

/-! ## The loop over the bodies -/

/-- A message of these events has the UID and a body. -/
def Ahead (events : List StreamEvent) (uid : Nat) : Prop :=
  ∃ f ∈ events.filterMap StreamEvent.message?, f.uid.getD 0 = uid ∧ f.body.isSome = true

/-- The bodies of these events, which have arrived before, are dealt with. -/
def Pays (events : List StreamEvent) (t : List (Request × Answer)) : Prop :=
  ∀ limit uid, Settled limit t uid ↔ Answered limit t uid ∨ Ahead events uid

theorem ahead_message_iff {f : Fetch} {events : List StreamEvent} {uid : Nat} :
    Ahead (.message f :: events) uid ↔
      (f.uid.getD 0 = uid ∧ f.body.isSome = true) ∨ Ahead events uid := by
  simp [Ahead, StreamEvent.message?]

section

variable {events : List StreamEvent} {t u : List (Request × Answer)} {f : Fetch}

theorem pays_nil (ht : Balanced t) : Pays [] t :=
  fun limit uid => (ht limit uid).trans (or_iff_left (by simp [Ahead])).symm

theorem Pays.append (ht : Balanced t) (hu : Pays events u) : Pays events (t ++ u) := by
  intro limit uid
  rw [settled_append, answered_append, ht limit uid, hu limit uid, or_assoc]

theorem Pays.bodyless (hu : Pays events u) (hf : f.body = none) :
    Pays (.message f :: events) u := by
  intro limit uid
  rw [hu limit uid, ahead_message_iff, hf]
  simp

theorem Pays.extract (hu : Pays events u) (hf : f.body.isSome = true) {d : Delivery} {a : Answer}
    (hd : d.uid = f.uid.getD 0) (ha : a.extraction.settles = true) :
    Pays (.message f :: events) ([(.extract d, a)] ++ u) := by
  intro limit uid
  have hanswered : ¬ Answered limit [(.extract d, a)] uid := by simp [Answered, Answers]
  have hsettled : Settled limit [(.extract d, a)] uid ↔ f.uid.getD 0 = uid := by
    simp [Settled, Settles, hd, ha]
  rw [settled_append, answered_append, or_iff_right hanswered, hu limit uid, ahead_message_iff,
    hsettled, hf, or_left_comm]
  simp

theorem Pays.balanced {folder : Text} {uids : UidSet} {a : Answer} (ha : a.refused = none)
    (hu : Pays a.events u) : Balanced ([(.uidFetch folder uids .bodies, a)] ++ u) := by
  intro limit uid
  have hsettled : ¬ Settled limit [(.uidFetch folder uids .bodies, a)] uid := by
    simp [Settled, Settles]
  have hanswered : Answered limit [(.uidFetch folder uids .bodies, a)] uid ↔
      Ahead a.events uid := by
    simp [Answered, Answers, Answer.received, ha, Ahead, Answer.messages]
  rw [settled_append, answered_append, or_iff_right hsettled, hu limit uid, hanswered, or_comm]

theorem balanced_refused {folder : Text} {uids : UidSet} {a : Answer}
    (ha : a.refused.isSome = true) : Balanced [(.uidFetch folder uids .bodies, a)] := by
  have hreceived : a.received = [] := if_pos ha
  simp [Balanced, Settled, Settles, Answered, Answers, hreceived]

end

/-- A success, or an error after which the batch is tried again. -/
def Retried {α : Type} (r : Except BichonError α) : Prop :=
  ∀ e, r = .error e → e.code = .networkError

/-- A neutral part whose error is not one of the network. -/
structure Mild {α : Type} (p : Sync α) : Prop where
  neutral : Neutral p
  errors : p.run.Ends fun r _ => ∀ e, r = .error e → e.code ≠ .networkError

/-- The rest of a program behind a mild part. -/
theorem Mild.ends_bind {α β : Type} {P : List (Request × Answer) → Prop} {p : Sync α}
    {f : α → Sync β} (hp : Mild p)
    (hf : ∀ a t, Balanced t → (f a).run.Ends fun r u => Retried r → P (t ++ u)) :
    (p >>= f).run.Ends fun r u => Retried r → P u := by
  refine Ends.bindE (fun t r hr => And.intro (hp.neutral t r hr trivial) (hp.errors t r hr)) ?_ ?_
  · exact fun a t ht => hf a t ht.1
  · exact fun e t ht hretried => (ht.2 e rfl (hretried e rfl)).elim

/-- A run that ends like that has dealt with the bodies of these events. -/
def PaysFor {α : Type} (events : List StreamEvent) (p : Sync α) : Prop :=
  p.run.Ends fun r u => Retried r → Pays events u

section

variable {α β : Type} {events : List StreamEvent}

theorem mild_isCancelled : Mild isCancelled := ⟨neutral_isCancelled, ends_ask fun _ => nofun⟩

theorem mild_ignoring {p : Sync α} (h : Neutral p) : Mild (Prog.ignoring p) :=
  ⟨h.ignoring, Ends.bind h fun _ _ _ => Ends.done nofun⟩

theorem mild_updateState (id : Nat) (r : Report) : Mild (updateState id r) := by
  refine ⟨neutral_updateState id r, Ends.ask fun s => ?_⟩
  refine Ends.ite (fun _ => Ends.admitted (ends_ask fun a => ?_) ?_) fun _ => Ends.done nofun
  · cases a.failure with
    | none => nofun
    | some e => rintro _ ⟨⟩ ⟨⟩
  · rintro _ ⟨⟩ ⟨⟩

theorem Mild.bind {p : Sync α} {f : α → Sync β} (hp : Mild p) (hf : ∀ a, PaysFor events (f a)) :
    PaysFor events (p >>= f) :=
  hp.ends_bind fun a _ ht u r hr hretried => (hf a u r hr hretried).append ht

end

/-- What the extractor does with one response. -/
inductive Extracted (f : Fetch) : Except BichonError Unit → List (Request × Answer) → Prop
  | refused : Extracted f (.error Database.busy) []
  | bodyless (hf : f.body = none) : Extracted f (.ok ()) []
  | settled (hf : f.body.isSome = true) (d : Delivery) (a : Answer) {r : Except BichonError Unit}
      (hd : d.uid = f.uid.getD 0) (ha : a.extraction.settles = true)
      (hr : ∀ e, r = .error e → e.code = .emailParseError) : Extracted f r [(.extract d, a)]
  | failed (e : BichonError) (t : List (Request × Answer)) (he : e.code = .internalError) :
      Extracted f (.error e) t

theorem ends_extract (f : Fetch) (accountId mailboxId : Nat) :
    (extractEnvelopeAndStoreIt askExtractor f accountId mailboxId).run.Ends (Extracted f) := by
  refine Ends.admitted ?_ .refused
  cases hf : f.body with
  | none => exact Ends.done (.bodyless hf)
  | some body =>
    have hsome : f.body.isSome = true := by rw [hf]; rfl
    refine Ends.call fun a _ => ?_
    change Ends _ (ExceptT.bindCont _ a.extraction.result)
    cases hext : a.extraction with
    | extracted outcome =>
      exact Ends.done (.settled hsome _ a rfl (by rw [hext]; rfl) nofun)
    | unparseable message =>
      refine Ends.done (.settled hsome _ a rfl (by rw [hext]; rfl) ?_)
      rintro _ ⟨⟩
      rfl
    | failed message => exact Ends.done (.failed _ _ rfl)

namespace Extracted

variable {f : Fetch} {t : List (Request × Answer)} {r : Except BichonError Unit}

theorem pays {events : List StreamEvent} {u : List (Request × Answer)} (h : Extracted f r t)
    (hr : ∀ e, r = .error e → e.code = .emailParseError) (hu : Pays events u) :
    Pays (.message f :: events) (t ++ u) := by
  cases h with
  | refused => cases hr _ rfl
  | bodyless hf => exact hu.bodyless hf
  | settled hf d a hd ha => exact hu.extract hf hd ha
  | failed e _ he =>
    rw [hr e rfl] at he
    cases he

theorem code_ne {e : BichonError} (h : Extracted f (.error e) t) : e.code ≠ .networkError := by
  cases h with
  | refused => nofun
  | settled _ _ _ _ _ hr =>
    rw [hr e rfl]
    nofun
  | failed _ _ he =>
    rw [he]
    nofun

end Extracted

section

variable {account : AccountModel} {mailboxId : Nat} {progress : Nat → Sync Unit}

theorem ends_giveUp {n : Nat} {e : BichonError} {P : List (Request × Answer) → Prop}
    (hprogress : Neutral (progress n)) (h : e.code = .networkError → ∀ u, Balanced u → P u) :
    (do Prog.ignoring (progress n); throw e : Sync BatchFetchOutcome).run.Ends
      fun r u => Retried r → P u :=
  (mild_ignoring hprogress).ends_bind fun _ _ ht =>
    Ends.done fun hretried => h (hretried e rfl) _ (ht.append balanced_nil)

theorem paysFor_receiveBodies (hprogress : ∀ n, Mild (progress n)) (brokeOff : Option ImapError)
    (events : List StreamEvent) (seen : BatchFetchOutcome) (stalls : Nat) :
    PaysFor events
      (receiveBodies askExtractor account mailboxId progress brokeOff events seen stalls) := by
  induction events generalizing seen stalls with
  | nil =>
    cases brokeOff with
    | some e => exact ends_giveUp (hprogress _).neutral fun _ _ => pays_nil
    | none => exact Ends.done fun _ => pays_nil balanced_nil
  | cons event events ih =>
    cases event with
    | stall =>
      refine mild_isCancelled.bind fun _ => Ends.ite (fun _ => ?_) fun _ => ?_
      · exact ends_giveUp (hprogress _).neutral nofun
      · exact (hprogress _).bind fun _ => ih _ _
    | message f =>
      refine mild_isCancelled.bind fun _ => Ends.ite (fun _ => ?_) fun _ => ?_
      · exact ends_giveUp (hprogress _).neutral nofun
      refine Ends.bindE (ends_extract f _ _).attempt ?_ nofun
      rintro r t ⟨_, ⟨⟩, hextracted⟩
      cases r with
      | ok _ =>
        intro u r hr hretried
        exact hextracted.pays nofun ((hprogress _).bind (fun _ => ih _ _) u r hr hretried)
      | error e =>
        refine Ends.ite (fun he => ?_) fun _ => ?_
        · intro u r hr hretried
          refine hextracted.pays (by rintro _ ⟨⟩; exact he) ?_
          exact (mild_ignoring (neutral_updateState _ _)).bind (fun _ => ih _ _) u r hr hretried
        · exact ends_giveUp (hprogress _).neutral fun he => (hextracted.code_ne he).elim

theorem ends_bodies (folder : Text) (uids : UidSet) :
    (command (.uidFetch folder uids .bodies) ImapError.classified id).run.Ends fun r t =>
      match r with
      | .ok a => ∀ u, Pays a.events u → Balanced (t ++ u)
      | .error _ => Balanced t := by
  refine ends_ask fun a => ?_
  cases ha : a.refused with
  | none => exact fun u hu => hu.balanced ha
  | some e => exact balanced_refused (by rw [ha]; rfl)

theorem balances_uidBatchRetrieveEmails (hprogress : ∀ n, Mild (progress n)) (folder : Text)
    (uids : List Nat) : Balances Retried
      (uidBatchRetrieveEmails askExtractor account mailboxId progress folder uids) := by
  refine Neutral.bind (balances_ask trivial) fun acceptable => Balances.ite (balances_pure _) ?_
  refine Ends.bindE (ends_bodies _ _) ?_ fun _ _ ht _ => ht
  exact fun a t ht u r hr hretried =>
    ht u (paysFor_receiveBodies hprogress _ _ _ _ u r hr hretried)

end

/-! ## The loops over the batches -/

/-- A success with a value in `Q`. -/
def Clean {α : Type} (Q : α → Prop) (r : Except BichonError α) : Prop := ∃ a, r = .ok a ∧ Q a

/-- No run ends with a value in `Q`. -/
def Fails {α : Type} (Q : α → Prop) (p : Sync α) : Prop := p.run.Ends fun r _ => ¬ Clean Q r

section

variable {α β : Type} {Q : β → Prop} {p : Sync α} {f : α → Sync β}

theorem fails_throw (e : BichonError) : Fails Q (throw e) := Ends.done (by rintro ⟨_, ⟨⟩, -⟩)

theorem fails_pure {b : β} (h : ¬ Q b) : Fails Q (pure b) :=
  Ends.done (by rintro ⟨_, ⟨⟩, hb⟩; exact h hb)

theorem fails_bind (hf : ∀ a, Fails Q (f a)) : Fails Q (p >>= f) := by
  have hp : p.run.Ends fun _ _ => True := fun _ _ _ => trivial
  exact Ends.bindE hp (fun a _ _ u r hr => hf a u r hr) (by rintro e _ - ⟨_, ⟨⟩, -⟩)

theorem Balances.attempt {R : Except BichonError α → Prop} (h : Balances R p) :
    Balances (Clean R) (Prog.attempt p) :=
  Ends.bind h fun _ _ ht => Ends.done (by rintro ⟨_, ⟨⟩, hR⟩; exact (ht hR).append balanced_nil)

theorem Balances.mono {R S : Except BichonError α → Prop} (h : Balances R p)
    (hS : ∀ r, S r → R r) : Balances S p :=
  fun tr r hr hr' => h tr r hr (hS r hr')

theorem Balances.clean {R : Except BichonError α → Prop} (hp : Balances R p)
    (hf : ∀ a, (R (.ok a) ∧ Balances (Clean Q) (f a)) ∨ Fails Q (f a)) :
    Balances (Clean Q) (p >>= f) :=
  hp.bind hf (by rintro e ⟨_, ⟨⟩, -⟩)

end

/-- Every run that ends without an error has a balanced transcript. -/
abbrev Sound {α : Type} (p : Sync α) : Prop := Balances (Clean fun _ => True) p

theorem Sound.then {α β : Type} {Q : β → Prop} {p : Sync α} {f : α → Sync β} (hp : Sound p)
    (hf : ∀ a, Balances (Clean Q) (f a)) : Balances (Clean Q) (p >>= f) :=
  hp.clean fun a => .inl ⟨⟨a, rfl, trivial⟩, hf a⟩

section

variable {account : AccountModel} {mailbox : MailBox} {mailboxId : Nat} {progress : Nat → Sync Unit}

theorem clean_retrieveWithRetry (hprogress : ∀ n, Mild (progress n)) {folder : Text}
    {uids : List Nat} {onRetry : Sync Unit} (honRetry : Neutral onRetry) (left : Nat) :
    Balances (Clean fun r => ∃ o, r = .ok o)
      (retrieveWithRetry askExtractor account mailboxId progress folder uids onRetry left) := by
  have hbatch : Balances (Clean Retried) (Prog.attempt
      (uidBatchRetrieveEmails askExtractor account mailboxId progress folder uids)) :=
    (balances_uidBatchRetrieveEmails hprogress folder uids).attempt
  induction left with
  | zero =>
    refine hbatch.mono ?_
    rintro _ ⟨_, rfl, o, rfl⟩
    exact ⟨_, rfl, nofun⟩
  | succ left ih =>
    refine hbatch.clean fun r => ?_
    cases r with
    | ok outcome => exact .inl ⟨⟨_, rfl, nofun⟩, balances_pure _⟩
    | error e =>
      by_cases he : e.code = .networkError
      · refine .inl ⟨⟨_, rfl, by rintro _ ⟨⟩; exact he⟩, Balances.ite ?_ (balances_pure _)⟩
        refine honRetry.bind fun _ => (neutral_createConnection _).attempt.bind fun connected => ?_
        cases connected with
        | error e' => exact balances_pure _
        | ok _ =>
          refine (neutral_examine _ _).attempt.bind fun examined => ?_
          cases examined with
          | error e' => exact (neutral_updateState _ _).bind fun _ => balances_pure _
          | ok _ => exact ih
      · exact .inr (Ends.ite (fun h => absurd h he) fun _ => fails_pure nofun)

theorem sound_downloadRange (planned : Nat) (batches : List (List Nat)) (count : Nat) :
    Sound (downloadRange account mailbox askExtractor planned batches count) := by
  induction batches generalizing count with
  | nil => exact balances_pure _
  | cons batch batches ih =>
    refine neutral_isCancelled.bind fun _ => Balances.ite ?_ ?_
    · exact (neutral_updateState _ _).bind fun _ => balances_throw _
    · refine (clean_retrieveWithRetry (fun _ => mild_updateState _ _) (balances_pure _) _).clean
        fun r => ?_
      cases r with
      | error e => exact .inr (fails_bind fun _ => fails_throw e)
      | ok outcome =>
        refine .inl ⟨⟨_, rfl, _, rfl⟩, (neutral_updateState _ _).bind fun _ => ?_⟩
        exact Balances.ite (balances_pure _) (ih _)

theorem sound_downloadBefore (planned : Nat) (batches : List (List Nat)) (count : Nat) :
    Sound (downloadBefore account mailbox askExtractor planned batches count) := by
  induction batches generalizing count with
  | nil => exact balances_pure _
  | cons batch batches ih =>
    refine neutral_isCancelled.bind fun _ => Balances.ite ?_ ?_
    · exact (neutral_updateState _ _).bind fun _ =>
        (neutral_updateState _ _).bind fun _ => balances_throw _
    · refine (balances_uidBatchRetrieveEmails
        (fun _ => mild_ignoring (neutral_updateState _ _)) _ _).clean fun outcome => ?_
      exact .inl ⟨nofun, (neutral_updateState _ _).bind fun _ => ih _⟩

theorem sound_fetchNewMailRange (start : Nat) (uidNext : Option Nat) :
    Sound (fetchNewMailRange account mailbox askExtractor start uidNext) := by
  refine (neutral_collectRangeUids start).bind fun found => ?_
  refine Balances.ite (neutral_nothingNew _).balances ?_
  refine (neutral_generate _ _).bind fun batches => (neutral_updateState _ _).bind fun _ => ?_
  refine (sound_downloadRange _ batches 0).then fun count => ?_
  exact (neutral_updateState _ _).bind fun _ => balances_pure _

theorem sound_fetchNewMailWithBefore (start : Nat) (date : Date) (uidNext : Option Nat) :
    Sound (fetchNewMailWithBefore account mailbox askExtractor start date uidNext) := by
  refine (neutral_collectRangeUids start).bind fun found => ?_
  refine Balances.ite (neutral_nothingNew _).balances ?_
  refine (neutral_generate _ _).bind fun batches => (neutral_updateState _ _).bind fun _ => ?_
  refine (sound_downloadBefore _ batches 0).then fun count => ?_
  exact (neutral_updateState _ _).bind fun _ => balances_pure _

theorem sound_fetchNewMail (start : Nat) (before : Option Date) :
    Sound (fetchNewMail account mailbox askExtractor start before) := by
  refine (neutral_examine _ _).bind fun uidNext => ?_
  cases before with
  | some date => exact sound_fetchNewMailWithBefore start date uidNext
  | none => exact sound_fetchNewMailRange start uidNext

theorem clean_downloadBatches (planned : Nat) {heartbeat onRetry : Sync Unit}
    (hheartbeat : Neutral heartbeat) (honRetry : Neutral onRetry)
    (batches : List (List Nat)) (index processed skipped : Nat) :
    Balances (Clean fun p => p.stopped = false)
      (downloadBatches askExtractor account mailbox planned heartbeat onRetry batches index
        processed skipped) := by
  induction batches generalizing index processed skipped with
  | nil => exact balances_pure _
  | cons batch batches ih =>
    refine neutral_isCancelled.bind fun _ => Balances.ite ?_ ?_
    · exact (neutral_updateState _ _).bind fun _ =>
        (neutral_updateState _ _).bind fun _ => balances_pure _
    · refine hheartbeat.bind fun _ => ?_
      refine (clean_retrieveWithRetry (fun _ => mild_ignoring (neutral_updateState _ _)) honRetry
        _).clean fun r => ?_
      cases r with
      | ok outcome =>
        exact .inl ⟨⟨_, rfl, _, rfl⟩, (neutral_updateState _ _).bind fun _ => ih _ _ _⟩
      | error e => exact .inr (fails_bind fun _ => fails_bind fun _ => fails_pure nofun)

theorem clean_downloadFolder (uids : List Nat) {announce heartbeat onRetry : Sync Unit}
    (hannounce : Neutral announce) (hheartbeat : Neutral heartbeat) (honRetry : Neutral onRetry) :
    Balances (Clean fun o => o.isSome = true)
      (downloadFolder askExtractor account mailbox uids announce heartbeat onRetry) := by
  refine Balances.ite ((neutral_updateState _ _).bind fun _ => balances_pure _) ?_
  refine (neutral_generate _ _).bind fun batches => hannounce.bind fun _ => ?_
  refine (clean_downloadBatches _ hheartbeat honRetry batches 0 0 0).clean fun progress => ?_
  cases hstopped : progress.stopped with
  | true => exact .inr (Ends.ite (fun _ => fails_pure nofun) fun h => absurd rfl h)
  | false =>
    refine .inl ⟨⟨_, rfl, hstopped⟩, Balances.ite (balances_pure _) ?_⟩
    exact (neutral_thenReport _ (balances_pure _)).balances

theorem clean_fetchAndSaveByDate (date : Date) (direction : FetchDirection) :
    Balances (Clean fun o => o.isSome = true)
      (fetchAndSaveByDate askExtractor account date mailbox direction) := by
  refine (neutral_showingFailure (neutral_createConnection _)).bind fun _ => ?_
  refine (neutral_showingFailure (neutral_uidSearch _ _)).bind fun uids => ?_
  exact clean_downloadFolder _ (neutral_updateState _ _) (balances_pure _) (balances_pure _)

theorem clean_fetchAndSaveFullMailbox :
    Balances (Clean fun o => o.isSome = true)
      (fetchAndSaveFullMailbox askExtractor account mailbox) := by
  refine (neutral_showingFailure (neutral_createConnection _)).bind fun _ => ?_
  refine neutral_retentionFloorDate.bind fun floor => ?_
  refine (neutral_showingFailure (neutral_uidSearch _ _)).bind fun uids => ?_
  exact clean_downloadFolder _ (balances_pure _)
    ((neutral_updateState _ _).bind fun _ => neutral_updateState _ _)
    (neutral_updateState _ _).ignoring

theorem sound_downloadMissing (planned : Nat) (batches : List (List Nat))
    (index downloaded skipped : Nat) :
    Sound (downloadMissing askExtractor account mailbox planned batches index downloaded
      skipped) := by
  induction batches generalizing index downloaded skipped with
  | nil => exact balances_pure _
  | cons batch batches ih =>
    refine neutral_isCancelled.bind fun _ => Balances.ite ?_ ?_
    · exact (neutral_updateState _ _).bind fun _ => balances_throw _
    · refine (balances_uidBatchRetrieveEmails
        (fun _ => mild_ignoring (neutral_updateState _ _)) _ _).attempt.clean fun r => ?_
      cases r with
      | ok outcome =>
        exact .inl ⟨⟨_, rfl, nofun⟩, (neutral_updateState _ _).bind fun _ => ih _ _ _⟩
      | error e => exact .inr (fails_bind fun _ => fails_bind fun _ => fails_throw e)

theorem sound_fetchMissing (missing : List Nat) :
    Sound (fetchMissing askExtractor account mailbox missing) := by
  refine (neutral_updateState _ _).bind fun _ => (neutral_createConnection _).bind fun _ => ?_
  refine (neutral_examine _ _).bind fun _ => (neutral_generate _ _).bind fun batches => ?_
  refine (sound_downloadMissing _ batches 0 0 0).then fun progress => ?_
  exact Balances.ite ((neutral_updateState _ _).ignoring.bind fun _ =>
    (neutral_updateState _ _).balances) (neutral_updateState _ _).balances

theorem sound_reconcileUidValidityChange (localMailbox : MailBox) :
    Sound (reconcileUidValidityChange askExtractor account localMailbox mailbox) := by
  refine (neutral_createConnection _).bind fun _ => (neutral_examine _ _).bind fun _ => ?_
  refine neutral_reconcileCriteria.bind fun criteria => ?_
  refine Neutral.bind (balances_ask trivial) fun found => ?_
  refine Balances.ite ((neutral_updateState _ _).bind fun _ => balances_pure _) ?_
  refine (neutral_fetchUidMetadata _ _).bind fun remoteIds => ?_
  refine Neutral.bind (balances_ask trivial) fun localIds => ?_
  refine (neutral_missingUids _ _ _ _).bind fun missing => ?_
  refine Balances.ite ((neutral_updateState _ _).bind fun _ => balances_pure _) ?_
  exact (sound_fetchMissing missing).then fun _ => balances_pure _

end

/-! ## The folder downloads -/

/-- The downloads of one folder. -/
inductive FolderSync
  | full (mailbox : MailBox)
  | byDate (date : Date) (mailbox : MailBox) (direction : FetchDirection)
  /-- `fetch_new_mail`, with or without a date -/
  | newMail (mailbox : MailBox) (start : Nat) (before : Option Date)
  | reconcile (localMailbox remoteMailbox : MailBox)

def FolderSync.program (account : AccountModel) : FolderSync → Sync (Option Nat)
  | .full mailbox => fetchAndSaveFullMailbox askExtractor account mailbox
  | .byDate date mailbox direction => fetchAndSaveByDate askExtractor account date mailbox direction
  | .newMail mailbox start before => fetchNewMail account mailbox askExtractor start before
  | .reconcile localMailbox remoteMailbox =>
    reconcileUidValidityChange askExtractor account localMailbox remoteMailbox

theorem clean_folderSync (account : AccountModel) (sync : FolderSync) :
    Balances (Clean fun o => o.isSome = true) (sync.program account) := by
  have hany : ∀ {p : Sync (Option Nat)}, Sound p → Balances (Clean fun o => o.isSome = true) p :=
    fun h => h.mono fun _ ⟨o, ho, _⟩ => ⟨o, ho, trivial⟩
  cases sync with
  | full mailbox => exact clean_fetchAndSaveFullMailbox
  | byDate date mailbox direction => exact clean_fetchAndSaveByDate date direction
  | newMail mailbox start before => exact hany (sound_fetchNewMail start before)
  | reconcile localMailbox mailbox => exact hany (sound_reconcileUidValidityChange localMailbox)

/-- A folder download that returns a watermark has dealt with a message exactly when the
server has sent its body, or a size above the limit. A message that the server has listed
and then left out, or sent without a body, is covered by the watermark all the same. -/
theorem watermark_covers_iff_answered (account : AccountModel) (sync : FolderSync)
    {tr : List (Request × Answer)} {m : Nat}
    (h : (sync.program account).run.Reaches tr (.done (.ok (some m)))) :
    ∀ uid, Enumerated tr uid → uid ≤ m →
      (Settled (sizeLimit account) tr uid ↔ Answered (sizeLimit account) tr uid) := by
  have hbalanced := clean_folderSync account sync tr _ h ⟨some m, rfl, rfl⟩
  exact fun uid _ _ => hbalanced _ uid

def sampleAccount : AccountModel := { id := 1, accountType := .imap }

def inbox : MailBox := { id := 2, accountId := 1, name := ['I'] }

def noStores : Stores where
  accounts := [sampleAccount]
  mailboxes := []
  envelopes := { committed := [] }
  attachments := { committed := [] }

/-- The server lists the messages 3 and 7 and their sizes, and sends these bodies. -/
def twoListed (bodies : List Fetch) : List Answer :=
  [.fine, .fine, { uids := [3, 7] }, .fine,
    { events := [.message { uid := some 3, size := some 5 },
      .message { uid := some 7, size := some 5 }] },
    { events := bodies.map .message }] ++ bodies.flatMap fun _ => [.fine, .fine]

/-- The download of the mailbox with these answers. -/
def twoListedRun (bodies : List Fetch) :
    List (Request × Answer) × Prog Request Answer Stores (Except BichonError (Option Nat)) :=
  ((FolderSync.full inbox).program sampleAccount).run.playback noStores (twoListed bodies)

/-- Both messages are sent. -/
theorem watermark_covers_iff_answered_complete :
    ∃ tr, ((FolderSync.full inbox).program sampleAccount).run.Reaches tr (.done (.ok (some 7))) ∧
      Enumerated tr 3 ∧ Settled (sizeLimit sampleAccount) tr 3 ∧
      (Settled (sizeLimit sampleAccount) tr 3 ↔ Answered (sizeLimit sampleAccount) tr 3) := by
  let run := twoListedRun
    [{ uid := some 7, body := some [66] }, { uid := some 3, body := some [65] }]
  have hreaches : ((FolderSync.full inbox).program sampleAccount).run.Reaches run.1
      (.done (.ok (some 7))) := Prog.reaches_done_playback rfl
  have henumerated : Enumerated run.1 3 := by decide +kernel
  exact ⟨run.1, hreaches, henumerated, by decide +kernel,
    watermark_covers_iff_answered _ _ hreaches 3 henumerated (by decide)⟩

/-- The server leaves the message 3 out of its response, and the watermark is 7. -/
theorem omitted_message_is_covered :
    ∃ tr, ((FolderSync.full inbox).program sampleAccount).run.Reaches tr (.done (.ok (some 7))) ∧
      Enumerated tr 3 ∧ 3 ≤ 7 ∧ ¬ Settled (sizeLimit sampleAccount) tr 3 := by
  let run := twoListedRun [{ uid := some 7, body := some [66] }]
  have hreaches : ((FolderSync.full inbox).program sampleAccount).run.Reaches run.1
      (.done (.ok (some 7))) := Prog.reaches_done_playback rfl
  exact ⟨run.1, hreaches, by decide +kernel, by decide, by decide +kernel⟩

end Bichon.Imap
