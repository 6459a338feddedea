import Bichon.Imap.Flow

/-!
# What the requests of a download settle

`Settled` and `Answered` are read off a transcript, and `Balanced` says that they agree. Most
of a download neither fetches bodies nor calls the extractor (`Plain`), and such a part has a
balanced transcript (`Neutral`). Other parts have one when their result is of a certain kind
(`Balances`).
-/

namespace Bichon.Imap

open Account Archive Gated ByteFile Prog List Texts

def Answer.received (a : Answer) : List Fetch := if a.refused.isSome then [] else a.messages

def ReportsOversized (limit uid : Nat) (a : Answer) : Prop :=
  ∃ f ∈ a.received, f.uid.getD 0 = uid ∧ f.oversized limit = true

instance (limit uid : Nat) (a : Answer) : Decidable (ReportsOversized limit uid a) :=
  (inferInstance : Decidable (∃ f ∈ a.received, f.uid.getD 0 = uid ∧ f.oversized limit = true))

/-- The extractor has accepted the message or has found it unparseable. -/
def Extraction.settles : Extraction → Bool
  | .failed _ => false
  | _ => true

/-- The message is dealt with: it went through the extractor, or it is too large. -/
def Settles (limit uid : Nat) : Request × Answer → Prop
  | (.extract d, a) => d.uid = uid ∧ a.extraction.settles = true
  | (.uidFetch _ _ .sizes, a) | (.uidFetch _ _ .sizesAndDates, a) => ReportsOversized limit uid a
  | _ => False

/-- The server has sent the message, or a size above the limit. -/
def Answers (limit uid : Nat) : Request × Answer → Prop
  | (.uidFetch _ _ .bodies, a) => ∃ f ∈ a.received, f.uid.getD 0 = uid ∧ f.body.isSome = true
  | (.uidFetch _ _ .sizes, a) | (.uidFetch _ _ .sizesAndDates, a) => ReportsOversized limit uid a
  | _ => False

def Enumerates (uid : Nat) : Request × Answer → Prop
  | (.uidSearch _ _, a) => a.refused.isNone = true ∧ uid ∈ a.uids
  | (.uidFetch _ _ .sizesAndDates, a) => ∃ f ∈ a.received, f.uid = some uid
  | _ => False

instance (limit uid : Nat) : DecidablePred (Settles limit uid)
  | (.extract _, _) => inferInstanceAs (Decidable (_ = _ ∧ _ = _))
  | (.uidFetch _ _ .sizes, _) | (.uidFetch _ _ .sizesAndDates, _) =>
    inferInstanceAs (Decidable (ReportsOversized _ _ _))
  | (.uidFetch _ _ .bodies, _) | (.uidFetch _ _ .headers, _) | (.store _, _) | (.connect _, _)
  | (.examine _, _) | (.uidValidity _ _, _) | (.uidSearch _ _, _) | (.isCancelled, _)
  | (.report _ _, _) | (.now, _) | (.sinceDate _, _) | (.calculateDate _, _)
  | (.messageIds _ _, _) | (.fresh, _) => isFalse id

instance (uid : Nat) : DecidablePred (Enumerates uid)
  | (.uidSearch _ _, _) => inferInstanceAs (Decidable (_ = _ ∧ _ ∈ _))
  | (.uidFetch _ _ .sizesAndDates, _) => inferInstanceAs (Decidable (∃ _ ∈ _, _ = _))
  | (.uidFetch _ _ .sizes, _) | (.uidFetch _ _ .bodies, _) | (.uidFetch _ _ .headers, _)
  | (.store _, _) | (.connect _, _) | (.examine _, _) | (.uidValidity _ _, _)
  | (.isCancelled, _) | (.report _ _, _) | (.now, _) | (.sinceDate _, _)
  | (.calculateDate _, _) | (.messageIds _ _, _) | (.fresh, _) | (.extract _, _) => isFalse id

def Settled (limit : Nat) (tr : List (Request × Answer)) (uid : Nat) : Prop :=
  ∃ e ∈ tr, Settles limit uid e

def Answered (limit : Nat) (tr : List (Request × Answer)) (uid : Nat) : Prop :=
  ∃ e ∈ tr, Answers limit uid e

def Enumerated (tr : List (Request × Answer)) (uid : Nat) : Prop := ∃ e ∈ tr, Enumerates uid e

instance (limit : Nat) (tr : List (Request × Answer)) (uid : Nat) :
    Decidable (Settled limit tr uid) :=
  (inferInstance : Decidable (∃ e ∈ tr, Settles limit uid e))

instance (tr : List (Request × Answer)) (uid : Nat) : Decidable (Enumerated tr uid) :=
  (inferInstance : Decidable (∃ e ∈ tr, Enumerates uid e))

/-- What is dealt with is what the server has sent. -/
def Balanced (tr : List (Request × Answer)) : Prop :=
  ∀ limit uid, Settled limit tr uid ↔ Answered limit tr uid

def Plain : Request → Prop
  | .uidFetch _ _ .bodies | .extract _ => False
  | _ => True

section

variable {limit uid : Nat} {t u : List (Request × Answer)}

theorem settled_append :
    Settled limit (t ++ u) uid ↔ Settled limit t uid ∨ Settled limit u uid := by
  simp only [Settled, mem_append, or_and_right, exists_or]

theorem answered_append :
    Answered limit (t ++ u) uid ↔ Answered limit t uid ∨ Answered limit u uid := by
  simp only [Answered, mem_append, or_and_right, exists_or]

theorem balanced_nil : Balanced [] := fun _ _ => by simp [Settled, Answered]

theorem Balanced.append (ht : Balanced t) (hu : Balanced u) : Balanced (t ++ u) :=
  fun limit uid => by rw [settled_append, answered_append, ht limit uid, hu limit uid]

theorem balanced_singleton {r : Request} (h : Plain r) (a : Answer) : Balanced [(r, a)] := by
  intro limit uid
  simp only [Settled, Answered, mem_singleton, exists_eq_left]
  cases r with
  | uidFetch folder uids items =>
    cases items with
    | bodies => exact h.elim
    | sizes | sizesAndDates | headers => rfl
  | extract d => exact h.elim
  | store | connect | examine | uidValidity | uidSearch | isCancelled | report | now | sinceDate
  | calculateDate | messageIds | fresh => rfl

end

/-- A run of the program that ends with a result in `S` has a balanced transcript. -/
def Balances {α : Type} (S : Except BichonError α → Prop) (p : Sync α) : Prop :=
  p.run.Ends fun r tr => S r → Balanced tr

abbrev Neutral {α : Type} (p : Sync α) : Prop := Balances (fun _ => True) p

section

variable {α β : Type} {S : Except BichonError β → Prop}

theorem balances_pure (b : β) : Balances S (pure b) := Ends.done fun _ => balanced_nil

theorem balances_throw (e : BichonError) : Balances S (throw e) := Ends.done fun _ => balanced_nil

theorem ends_ask {post : Except BichonError β → List (Request × Answer) → Prop} {r : Request}
    {f : Answer → Except BichonError β} (h : ∀ a, post (f a) [(r, a)]) : (ask r f).run.Ends post :=
  Ends.call fun a _ => Ends.done (h a)

theorem balances_ask {r : Request} {f : Answer → Except BichonError β} (h : Plain r) :
    Balances S (ask r f) :=
  ends_ask fun a _ => balanced_singleton h a

theorem balances_read (f : Stores → β) : Balances S (read f) :=
  Ends.ask fun _ => Ends.done fun _ => balanced_nil

theorem Balances.ite {c : Prop} [Decidable c] {p q : Sync β} (hp : Balances S p)
    (hq : Balances S q) : Balances S (if c then p else q) :=
  Ends.ite (fun _ => hp) fun _ => hq

/-- The rest of the program has a result in `S` only if the first part has one in `R`. -/
theorem Balances.bind {R : Except BichonError α → Prop} {p : Sync α} {f : α → Sync β}
    (hp : Balances R p)
    (hf : ∀ a, (R (.ok a) ∧ Balances S (f a)) ∨ (f a).run.Ends fun r _ => ¬ S r)
    (herror : ∀ e, S (.error e) → R (.error e)) : Balances S (p >>= f) := by
  refine Ends.bindE hp (fun a t ht u r hr hS => ?_) fun e t ht hS => ht (herror e hS)
  rcases hf a with ⟨hR, hrest⟩ | hnever
  · exact (ht hR).append (hrest u r hr hS)
  · exact (hnever u r hr hS).elim

namespace Neutral

variable {p : Sync α}

theorem balances {R : Except BichonError α → Prop} (h : Neutral p) : Balances R p :=
  fun tr r hr _ => h tr r hr trivial

theorem bind {f : α → Sync β} (hp : Neutral p) (hf : ∀ a, Balances S (f a)) :
    Balances S (p >>= f) :=
  Balances.bind hp (fun a => .inl ⟨trivial, hf a⟩) fun _ _ => trivial

theorem admitted {e : BichonError} (h : Neutral p) : Neutral (admitted e p) :=
  Ends.admitted h fun _ => balanced_nil

theorem attempt (h : Neutral p) : Neutral (attempt p) :=
  Ends.bind h fun _ _ ht => Ends.done fun _ => (ht trivial).append balanced_nil

theorem ignoring (h : Neutral p) : Neutral (ignoring p) :=
  Ends.bind h fun _ _ ht => Ends.done fun _ => (ht trivial).append balanced_nil

end Neutral

theorem neutral_mapM {f : α → Sync β} (o : Option α) (h : ∀ a, Neutral (f a)) :
    Neutral (o.mapM f) := by
  cases o with
  | none => exact balances_pure _
  | some a => exact (h a).bind fun _ => balances_pure _

end

section

variable {α : Type} {account : AccountModel} {mailbox : MailBox}

theorem neutral_isCancelled : Neutral isCancelled := balances_ask trivial

theorem neutral_createConnection (id : Nat) : Neutral (createConnection id) := balances_ask trivial

theorem neutral_examine (folder : Text) (raise : ImapError → BichonError) :
    Neutral (examine folder raise) :=
  balances_ask trivial

theorem neutral_uidSearch (folder : Text) (criteria : List SearchKey) :
    Neutral (uidSearch folder criteria) :=
  (neutral_examine _ _).bind fun _ => balances_ask trivial

theorem neutral_retentionFloorDate : Neutral (retentionFloorDate account) :=
  Balances.ite (balances_pure _) (balances_ask trivial)

theorem neutral_updateState (id : Nat) (r : Report) : Neutral (updateState id r) :=
  Neutral.bind (balances_read _) fun _ =>
    Balances.ite (Neutral.admitted (balances_ask trivial)) (balances_pure _)

theorem neutral_generate (uids : List Nat) (size : Nat) :
    Neutral (generateUidSequenceHashset uids size) :=
  Balances.ite (balances_throw _) (balances_pure _)

theorem neutral_showingFailure {text : String} {body : Sync α} (h : Neutral body) :
    Neutral (showingFailure account mailbox text body) :=
  h.attempt.bind fun
    | .ok a => balances_pure a
    | .error _ => (neutral_updateState _ _).bind fun _ =>
      (neutral_updateState _ _).bind fun _ => balances_throw _

theorem neutral_thenReport {c : Prop} [Decidable c] {id id' : Nat} {r r' : Report} (p : Sync α)
    (hp : Neutral p) :
    Neutral (do
      if c then Prog.ignoring (updateState id r)
      updateState id' r'
      p) := by
  have hend : Neutral (do updateState id' r'; p) := (neutral_updateState _ _).bind fun _ => hp
  exact Balances.ite ((neutral_updateState _ _).ignoring.bind fun _ => hend) hend

theorem neutral_collectEntries (fs : List Fetch) (entries : List Entry) (skipped : Nat) :
    Neutral (collectEntries account fs entries skipped) := by
  induction fs generalizing entries skipped with
  | nil => exact balances_pure _
  | cons f fs ih =>
    refine neutral_isCancelled.bind fun _ => Balances.ite ?_ ?_
    · exact (neutral_updateState _ _).bind fun _ => balances_throw _
    · cases f.uid with
      | none => exact ih _ _
      | some uid => exact Balances.ite (ih _ _) (ih _ _)

theorem neutral_collectRangeUids (start : Nat) :
    Neutral (collectRangeUids account mailbox start) := by
  refine Neutral.bind (balances_ask trivial) fun a => ?_
  cases a.refused with
  | some e => exact (neutral_updateState _ _).ignoring.bind fun _ => balances_throw _
  | none =>
    refine (neutral_collectEntries _ _ _).bind fun found => ?_
    cases a.brokeOff with
    | some e => exact (neutral_updateState _ _).ignoring.bind fun _ => balances_throw _
    | none => exact balances_pure _

theorem neutral_nothingNew (anomaly : Bool) : Neutral (nothingNew account mailbox anomaly) :=
  (neutral_updateState _ _).bind fun _ => balances_pure _

theorem neutral_collectMetadata (fs : List Fetch) (found : List (Nat × Option Text)) :
    Neutral (collectMetadata fs found) := by
  induction fs generalizing found with
  | nil => exact balances_pure _
  | cons f fs ih =>
    exact neutral_isCancelled.bind fun _ => Balances.ite (balances_throw _) (ih _)

theorem neutral_fetchUidMetadata (folder : Text) (uids : List Nat) :
    Neutral (fetchUidMetadata folder uids) := by
  refine Neutral.bind (balances_ask trivial) fun a => ?_
  refine (neutral_collectMetadata _ _).bind fun found => ?_
  cases a.brokeOff with
  | some e => exact balances_throw _
  | none => exact balances_pure _

theorem neutral_missingUids (remoteIds : List (Nat × Option Text)) (localIds : List Text)
    (uids missing : List Nat) : Neutral (missingUids remoteIds localIds uids missing) := by
  induction uids generalizing missing with
  | nil => exact balances_pure _
  | cons uid uids ih =>
    exact neutral_isCancelled.bind fun _ =>
      Balances.ite (balances_throw _) (Balances.ite (ih _) (ih _))

theorem neutral_reconcileCriteria : Neutral (reconcileCriteria account) :=
  neutral_retentionFloorDate.bind fun _ =>
    (neutral_mapM (f := sinceDate) _ fun _ => balances_ask trivial).bind fun _ =>
      (neutral_mapM (f := calculateDate) _ fun _ => balances_ask trivial).bind fun _ =>
        balances_pure _

end

end Bichon.Imap
