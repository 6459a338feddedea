import Mathlib.Data.Fintype.Basic
import Bichon.Archive.Rows

/-!
# The blobs an envelope refers to

An ingest queues the record with its blobs and then its envelope; the writer of the blobs
skips a key that is already stored. A deletion commits, looks for the candidates that no
committed envelope has, and deletes those blobs. It holds the lock of the envelope writer
all the while, so what it has counted is still what is committed when it deletes. It does
not see the envelopes that are on their way: in the channel, with the writer, or about to
be queued by an ingest.
-/

namespace Bichon.Archive

open Account Gated Transition ByteFile List Function

open Envelope (Extern computeContentHash)

def BlobStore.keys (b : BlobStore) : List String :=
  (b.stored ++ b.batch ++ b.queue.flatMap (·.records)).map (·.1)

namespace BlobStore

variable {b b' : BlobStore} {key : String}

theorem mem_keys : key ∈ b.keys ↔
    key ∈ b.stored.map (·.1) ∨ key ∈ b.batch.map (·.1) ∨
      ∃ eml ∈ b.queue, key ∈ eml.records.map (·.1) := by
  simp only [keys, map_append, mem_append, map_flatMap, mem_flatMap, or_assoc]

theorem exists?_iff : b.exists? key = true ↔ key ∈ b.stored.map (·.1) := by
  simp [exists?]

theorem mem_keys_queue {eml : DetachedEmail} :
    key ∈ ({ b with queue := b.queue ++ [eml] } : BlobStore).keys ↔
      key ∈ b.keys ∨ key ∈ eml.records.map (·.1) := by
  simp only [keys, flatMap_append, flatMap_singleton, map_append, mem_append,
    or_assoc]

theorem mem_keys_take (h : b.take = some b') : key ∈ b'.keys ↔ key ∈ b.keys := by
  obtain ⟨⟨hbatch, -⟩, ⟨⟩⟩ := Option.ite_none_right_eq_some.mp h
  simp [keys, hbatch]

theorem mem_keys_storeNext (h : b.storeNext = some b') : key ∈ b'.keys ↔ key ∈ b.keys := by
  rw [storeNext] at h
  split at h
  · cases h
  next r rest hbatch =>
    cases h
    simp only [mem_keys, hbatch, map_cons, mem_cons]
    split
    next hex =>
      rw [exists?_iff] at hex
      refine ⟨Or.imp_right (Or.imp_left .inr), ?_⟩
      rintro (h | (rfl | h) | h)
      · exact .inl h
      · exact .inl hex
      · exact .inr (.inl h)
      · exact .inr (.inr h)
    next =>
      rw [map_cons, mem_cons]
      tauto

theorem mem_keys_delete {ks : List String} (h : key ∈ b.keys) :
    key ∈ (b.delete ks).keys ∨ key ∈ ks := by
  by_cases hks : key ∈ ks
  · exact .inr hks
  · refine .inl (mem_keys.mpr ((mem_keys.mp h).imp_left fun hstored => ?_))
    obtain ⟨r, hr, rfl⟩ := mem_map.mp hstored
    exact mem_map_of_mem (mem_filter.mpr ⟨hr, by simpa using hks⟩)

end BlobStore

section

variable {s s' : Stores} {c : Command} {o : Option BichonError}

theorem mem_keys_exec {key : String} (hexec : exec c o s = some s') (hkey : key ∈ s.blobs.keys) :
    key ∈ s'.blobs.keys ∨ ∃ ks, c = .deleteBlobs ks ∧ o = none ∧ key ∈ ks := by
  rcases exec_cases hexec with ⟨-, -, rfl⟩ | ⟨rfl, heffect⟩
  · exact .inl hkey
  · cases heffect with
    | blobs hblobs =>
      cases hblobs with
      | queue eml => exact .inl (BlobStore.mem_keys_queue.mpr (.inl hkey))
      | take hb => exact .inl ((BlobStore.mem_keys_take hb).mpr hkey)
      | store hb => exact .inl ((BlobStore.mem_keys_storeNext hb).mpr hkey)
      | delete ks => exact (BlobStore.mem_keys_delete hkey).imp_right fun h => ⟨ks, rfl, rfl, h⟩
    | writeAccount | deleteAccount | writeMailBoxes | deleteMailBoxes | envelopes | dedup
    | leaves =>
      exact .inl hkey
    | other _ _ hmail =>
      have hblobs : s'.blobs = s.blobs := congrArg Mail.blobs hmail
      exact .inl (hblobs ▸ hkey)

theorem mem_keys_queueBlob {eml : DetachedEmail} {key : String}
    (hexec : exec (.queueBlob eml) o s = some s') (hkey : key ∈ eml.records.map (·.1)) :
    key ∈ s'.blobs.keys := by
  cases o with
  | some e => cases hexec
  | none =>
    obtain ⟨b, hb, rfl⟩ := Option.map_eq_some_iff.mp hexec
    obtain ⟨-, ⟨⟩⟩ := Option.ite_none_right_eq_some.mp hb
    exact BlobStore.mem_keys_queue.mpr (.inr hkey)

theorem locked_exec (hexec : exec c o s = some s') :
    s'.envelopes.locked = s.envelopes.locked ∨ c = .lock .envelopes ∨ c = .unlock .envelopes := by
  rcases envelopes_exec hexec with heq | ⟨-, heffect⟩
  · exact .inl (by rw [heq])
  · generalize s'.envelopes = e at heffect
    cases heffect with
    | lock => exact .inr (.inl rfl)
    | unlock => exact .inr (.inr rfl)
    | deleteQuery | commit | fatalCommit | receive | queue => exact .inl rfl

theorem exec_lock (hexec : exec (.lock .envelopes) o s = some s') :
    s.envelopes.locked = false ∧ s'.envelopes.locked = true := by
  cases o with
  | some e => cases hexec
  | none =>
    obtain ⟨e, he, rfl⟩ := Option.map_eq_some_iff.mp hexec
    obtain ⟨hlocked, ⟨⟩⟩ := Option.ite_none_left_eq_some.mp he
    exact ⟨Bool.eq_false_iff.mpr hlocked, rfl⟩

theorem committed_exec (hexec : exec c o s = some s') :
    s'.envelopes.committed = s.envelopes.committed ∨ c = .commit .envelopes ∨
      c = .fatalCommit .envelopes := by
  rcases envelopes_exec hexec with heq | ⟨-, heffect⟩
  · exact .inl (by rw [heq])
  · exact heffect.committed.imp_right (·.1)

end

/-! ## One writer at a time -/

namespace Phase

variable {t : Phase} {s : Stores}

theorem search_eq_counted {docs docs' : List EnvelopeDoc} (h : t.search docs = .counted docs') :
    docs' = docs := by
  cases t with
  | idle | found | queued | indexed => cases h
  | writing | counted => exact (Phase.counted.inj h).symm

theorem rest_ne_counted (t : Phase) (docs : List EnvelopeDoc) : t.rest ≠ .counted docs := by
  cases t <;> nofun

theorem rest_ne_queued (t : Phase) (keys : List String) : t.rest ≠ .queued keys := by
  cases t <;> nofun

theorem Effect.of_queued {c : Command} {t' : Phase} (h : t.Effect s c t') {keys : List String}
    (hkeys : t' = .queued keys) : ∃ eml, c = .queueBlob eml ∧ keys = eml.records.map (·.1) := by
  cases h with
  | lock | unlock | queueEnvelope => cases hkeys
  | search => cases t <;> cases hkeys
  | queueBlob eml =>
    cases hkeys
    exact ⟨eml, rfl, rfl⟩
  | other => exact (t.rest_ne_queued keys hkeys).elim

end Phase

section

variable {ι : Type} {p p' : ArchivePool ι} {phase phase' : ι → Phase}

/-- At most one slot has the lock, and what it has counted is what is committed. -/
structure OneWriter (p : ArchivePool ι) (phase : ι → Phase) : Prop where
  locked : ∀ i, (phase i).rest = .writing → p.store.envelopes.locked = true
  single : ∀ i j, (phase i).rest = .writing → (phase j).rest = .writing → i = j
  counted : ∀ i docs, phase i = .counted docs → docs = p.store.envelopes.committed

theorem OneWriter.update [DecidableEq ι] (h : OneWriter p phase) {i : ι} {t : Phase}
    (hrest : t.rest = (phase i).rest)
    (hlocked : p'.store.envelopes.locked = p.store.envelopes.locked)
    (hcounted : ∀ docs, t = .counted docs → docs = p'.store.envelopes.committed)
    (hcommitted : p'.store.envelopes.committed = p.store.envelopes.committed ∨
      (phase i).rest = .writing) :
    OneWriter p' (Function.update phase i t) := by
  have hrests : ∀ j, (Function.update phase i t j).rest = (phase j).rest := by
    intro j
    by_cases hj : j = i
    · subst hj
      rw [update_self, hrest]
    · rw [update_of_ne hj]
  refine ⟨fun j hj => ?_, fun j k hj hk => ?_, fun j docs hj => ?_⟩
  · rw [hlocked]
    exact h.locked j (by rwa [← hrests])
  · exact h.single j k (by rwa [← hrests]) (by rwa [← hrests])
  · by_cases hji : j = i
    · subst hji
      rw [update_self] at hj
      exact hcounted docs hj
    · rw [update_of_ne hji] at hj
      rcases hcommitted with hcommitted | hwriting
      · rw [hcommitted]
        exact h.counted j docs hj
      · exact (hji (h.single j i (by rw [hj]; rfl) hwriting)).elim

variable {ν : Type} {rules : ν → Rules} {label : ι → ν}

theorem OneWriter.next [DecidableEq ι] {X : Extern} {parse : Bytes → Option Message}
    {l : ArchiveStep ι} (h : OneWriter p phase)
    (hobeyed : System.Obeyed (fun v => order (rules v)) .idle p label phase)
    (hmoved : System.Moved (archive X parse) (fun v => order (rules v)) .idle p label phase l p'
      phase') : OneWriter p' phase' := by
  cases hmoved with
  | gate g => exact ⟨h.locked, h.single, h.counted⟩
  | crash => exact ⟨nofun, nofun, nofun⟩
  | spawn i c hi =>
    have hidle := hobeyed i
    rw [hi] at hidle
    exact h.update hidle.symm rfl nofun (.inl rfl)
  | rest i g q =>
    exact h.update (phase i).rest_rest rfl
      (fun docs hdocs => ((phase i).rest_ne_counted docs hdocs).elim) (.inl rfl)
  | call i o hi hallowed hexec =>
    rename_i c k s'
    -- a commit is made with the lock
    have hcommitted : s'.envelopes.committed = p.store.envelopes.committed ∨
        (phase i).rest = .writing := by
      rcases committed_exec hexec with h | rfl | rfl
      · exact .inl h
      · exact .inr hallowed.1
      · exact .inr hallowed.1
    have hlocked := locked_exec hexec
    have hphase := Phase.effect_of_allows hallowed.1 o p.store
    change OneWriter _ (Function.update phase i ((phase i).after c o p.store))
    generalize (phase i).after c o p.store = t at hphase
    cases hphase with
    | lock =>
      -- the lock was free, so no slot was writing
      obtain ⟨hfree, htaken⟩ := exec_lock hexec
      have hnone : ∀ j, (phase j).rest ≠ .writing := by
        intro j hj
        rw [h.locked j hj] at hfree
        cases hfree
      have honly : ∀ j, (Function.update phase i .writing j).rest = .writing → j = i := by
        intro j hj
        by_contra hji
        rw [update_of_ne hji] at hj
        exact hnone j hj
      refine ⟨fun _ _ => htaken, fun j k hj hk => (honly j hj).trans (honly k hk).symm, ?_⟩
      intro j docs hj
      have hji := honly j (by rw [hj]; rfl)
      subst hji
      rw [update_self] at hj
      cases hj
    | unlock =>
      have hnone : ∀ j, (Function.update phase i .idle j).rest ≠ .writing := by
        intro j hj
        by_cases hji : j = i
        · subst hji
          rw [update_self] at hj
          cases hj
        · rw [update_of_ne hji] at hj
          exact hji (h.single j i hj hallowed.1)
      refine ⟨fun j hj => (hnone j hj).elim, fun j _ hj => (hnone j hj).elim, fun j docs hj => ?_⟩
      exact (hnone j (by rw [hj]; rfl)).elim
    | search =>
      refine h.update ((phase i).rest_search _) (hlocked.resolve_right (by simp))
        (fun docs hdocs => ?_) hcommitted
      rw [Phase.search_eq_counted hdocs]
      exact ((committed_exec hexec).resolve_right (by simp)).symm
    | queueBlob eml ht | queueEnvelope d ht =>
      exact h.update ht.symm (hlocked.resolve_right (by simp)) nofun hcommitted
    | other hlock hunlock =>
      exact h.update (phase i).rest_rest (hlocked.resolve_right (by simp [hlock, hunlock]))
        (fun docs hdocs => ((phase i).rest_ne_counted docs hdocs).elim) hcommitted

end

/-! ## References -/

section

variable {α : Type}

def inHand : Prog Command (Option BichonError) Stores α → Option EnvelopeDoc
  | .call (.queueEnvelope d) _ => some d
  | _ => none

def deletedKeys : Prog Command (Option BichonError) Stores α → List String
  | .call (.deleteBlobs keys) _ => keys
  | _ => []

theorem queued_of_inHand {q : Prog Command (Option BichonError) Stores α} {t : Phase}
    {R : Rules} {post : α → Phase → Prop} (h : q.Follows (order R) post t)
    {d : EnvelopeDoc} (hd : d ∈ inHand q) : t = .queued d.blobKeys := by
  unfold inHand at hd
  split at hd
  next d' k =>
    cases hd
    exact h.1.1
  next => cases hd

end

section

variable {ι : Type} {p p' : ArchivePool ι}
variable {phase phase' : ι → Phase} {l : ArchiveStep ι}

/-- Blobs are deleted only when no envelope on its way to the index has their keys: none
in the channel, with the writer, or about to be queued. -/
def SparesInFlight (p : ArchivePool ι) :
    ArchiveStep ι → Prop
  | .run i none => ∀ key ∈ deletedKeys (p.tasks i),
      (∀ d ∈ p.store.envelopes.inFlight, key ∉ d.blobKeys) ∧
        ∀ j, ∀ d ∈ inHand (p.tasks j), key ∉ d.blobKeys
  | _ => True

instance [Fintype ι] (l : ArchiveStep ι) : Decidable (SparesInFlight p l) := by
  unfold SparesInFlight
  split <;> infer_instance

/-- Every envelope has its blobs in the store or on their way. -/
structure Backed (p : ArchivePool ι) : Prop where
  docs : ∀ d ∈ p.store.envelopes.docs, d.blobKeys ⊆ p.store.blobs.keys
  hand : ∀ i, ∀ d ∈ inHand (p.tasks i), d.blobKeys ⊆ p.store.blobs.keys

theorem Backed.next [DecidableEq ι] {X : Extern} {parse : Bytes → Option Message}
    {ν : Type} {rules : ν → Rules} {label label' : ι → ν} (h : Backed p) (hone : OneWriter p phase)
    (hobeyed : System.Obeyed (fun v => order (rules v)) .idle p' label' phase')
    (hspares : SparesInFlight p l) (hcrash : l ≠ .crash)
    (hmoved : System.Moved (archive X parse) (fun v => order (rules v)) .idle p label phase l p'
      phase') : Backed p' := by
  cases hmoved with
  | gate g => exact ⟨h.docs, h.hand⟩
  | crash => contradiction
  | spawn i c hi =>
    refine ⟨h.docs, fun j d hd => ?_⟩
    by_cases hj : j = i
    · subst hj
      have hkeys := queued_of_inHand (hobeyed j) hd
      rw [update_self] at hkeys
      cases hkeys
    · exact h.hand j d (by simpa only [update_of_ne hj] using hd)
  | rest i g q =>
    refine ⟨h.docs, fun j d hd => ?_⟩
    by_cases hj : j = i
    · subst hj
      have hkeys := queued_of_inHand (hobeyed j) hd
      rw [update_self] at hkeys
      exact ((phase j).rest_ne_queued _ hkeys).elim
    · exact h.hand j d (by simpa only [update_of_ne hj] using hd)
  | call i o hi hallowed hexec =>
    rename_i c k s'
    -- the keys of no envelope go away
    have hkept : ∀ d, d ∈ p.store.envelopes.docs ∨ (∃ j, d ∈ inHand (p.tasks j)) →
        d.blobKeys ⊆ p.store.blobs.keys → d.blobKeys ⊆ s'.blobs.keys := by
      intro d hd hkeys key hkey
      rcases mem_keys_exec hexec (hkeys hkey) with hmem | ⟨ks, rfl, rfl, hks⟩
      · exact hmem
      · have hspared := hspares key (by rw [hi]; exact hks)
        rcases hd with hd | ⟨j, hj⟩
        · rcases mem_append.mp hd with hd | hd
          · obtain ⟨docs, hdocs, hunused⟩ := hallowed.1
            rw [hone.counted i docs hdocs] at hunused
            exact (hunused d hd key hkey hks).elim
          · exact (hspared.1 d hd hkey).elim
        · exact (hspared.2 j d hj hkey).elim
    refine ⟨fun d hd => ?_, fun j d hd => ?_⟩
    · rcases mem_docs_exec hexec hd with hd | rfl
      · exact hkept d (.inl hd) (h.docs d hd)
      · have hhand : d ∈ inHand (p.tasks i) := by
          rw [hi]
          rfl
        exact hkept d (.inr ⟨i, hhand⟩) (h.hand i d hhand)
    · by_cases hj : j = i
      · subst hj
        have hkeys := queued_of_inHand (hobeyed j) hd
        rw [update_self] at hkeys
        obtain ⟨eml, rfl, heml⟩ := (Phase.effect_of_allows hallowed.1 o p.store).of_queued hkeys
        exact fun key hkey => mem_keys_queueBlob hexec (heml ▸ hkey)
      · have hd : d ∈ inHand (p.tasks j) := by simpa only [update_of_ne hj] using hd
        exact hkept d (.inr ⟨j, hd⟩) (h.hand j d hd)

/-- In every run without a crash in which blobs are deleted only when no envelope on its
way to the index has their keys: once the writer of the blobs has nothing left to do, every
committed envelope has its body and its attachments in the blob store. -/
theorem spared_blobs_keep_references [DecidableEq ι] (X : Extern) (parse : Bytes → Option Message)
    {store : Stores} {q : Pool ι Command _ Stores _} {ls : List (PoolStep ι _ Call)}
    (hstore : ∀ d ∈ store.envelopes.docs, d.blobKeys ⊆ store.blobs.keys) (hcrash : .crash ∉ ls)
    (hspares : Along (archive X parse).next SparesInFlight ((archive X parse).start store) ls)
    (hrun : runFrom (archive X parse).next ((archive X parse).start store) ls = some q)
    (hqueue : q.store.blobs.queue = []) (hbatch : q.store.blobs.batch = []) :
    ∀ d ∈ q.store.envelopes.committed, ∀ key ∈ d.blobKeys, q.store.blobs.exists? key = true := by
  have hguard := hspares.and_forall (P := (· ≠ .crash)) fun l hl h => hcrash (h ▸ hl)
  let rules := rulesOf fun _ => True
  obtain ⟨label, phase, -, -, hbacked⟩ : ∃ label phase,
      System.Obeyed (fun c => order (rules c)) .idle q label phase ∧ OneWriter q phase ∧
        Backed q := by
    refine hguard.invariant (I := fun p => ∃ label phase,
      System.Obeyed (fun c => order (rules c)) .idle p label phase ∧ OneWriter p phase ∧ Backed p)
      ?_ ⟨fun _ => none, fun _ => .idle, ?_, ?_, ?_⟩ hrun
    · rintro p l p' ⟨label, phase, hobeyed, hone, hbacked⟩ ⟨hspares, hcrash⟩ hnext
      obtain ⟨phase', hobeyed', hmoved⟩ := obeyed_calls trivial hobeyed hnext
      exact ⟨_, phase', hobeyed', hone.next hobeyed hmoved,
        hbacked.next hone hobeyed' hspares hcrash hmoved⟩
    · exact fun _ => rfl
    · exact ⟨nofun, nofun, nofun⟩
    · exact ⟨hstore, fun _ _ => nofun⟩
  intro d hd key hkey
  have hmem := BlobStore.mem_keys.mp (hbacked.docs d (mem_append_left _ hd) hkey)
  rw [hqueue, hbatch] at hmem
  simpa [BlobStore.exists?_iff] using hmem

end

/-- The message of the mailbox 2, with the body that is about to arrive in the mailbox 3. -/
def sharedBody : Stores :=
  let hash := computeContentHash Envelope.sampleExtern [65]
  { oneMessage with
    envelopes := { committed := [⟨"m", 1, 2, 7, 0, 0, hash, 0, []⟩] }
    blobs := { stored := [(hash, [65])] }
    dedup := [⟨1, 2, hash⟩] }

abbrev ingestShared : List (ArchiveStep Unit) :=
  .spawn () (.ingest (some { body := [65], size := 1, accountId := 1, mailboxId := 3 })
    ⟨"e", fun _ => "", 0⟩) :: steps 9

abbrev storeShared : List (ArchiveStep Unit) :=
  .spawn () .takeBlobs :: steps 1 ++ .spawn () .storeBlob :: steps 1

abbrev commitShared : List (ArchiveStep Unit) := .spawn () (.receiveDocs .envelopes true) :: steps 4

abbrev deleteShared (n : Nat) : List (ArchiveStep Unit) :=
  .spawn () (.deleteMessages [(1, ["m"])]) :: steps n

/-- What is committed, what is stored, and whether something is left to do. -/
def referencesOf (q : Pool Unit Command (Option BichonError) Stores (Except BichonError Unit)) :
    List (List String) × List String × Bool :=
  (q.store.envelopes.committed.map (·.blobKeys), q.store.blobs.stored.map (·.1),
    q.store.blobs.queue.isEmpty && q.store.blobs.batch.isEmpty &&
      q.store.envelopes.inFlight.isEmpty)

/-- The new envelope is committed before the old one is deleted. -/
theorem spared_blobs_keep_references_sample :
    ∃ q, runFrom sampleArchive.next (sampleArchive.start sharedBody)
        (ingestShared ++ storeShared ++ commitShared ++ deleteShared 18) = some q ∧
      q.store.envelopes.committed.map (·.id) = ["e"] ∧
      ∀ d ∈ q.store.envelopes.committed, ∀ key ∈ d.blobKeys,
        q.store.blobs.exists? key = true := by
  obtain ⟨q, hrun, hids, hqueue, hbatch⟩ :
      ∃ q ∈ runFrom sampleArchive.next (sampleArchive.start sharedBody)
        (ingestShared ++ storeShared ++ commitShared ++ deleteShared 18),
        q.store.envelopes.committed.map (·.id) = ["e"] ∧ q.store.blobs.queue = [] ∧
        q.store.blobs.batch = [] := by decide +kernel
  refine ⟨q, hrun, hids, spared_blobs_keep_references _ _ ?_ ?_ ?_ hrun hqueue hbatch⟩
  · decide +kernel
  · simp
  · decide +kernel

/-- The writer skips the body of the new message since it is stored. Then the old message
is deleted; no committed envelope has the body any more, and the new one is still in the
channel. It is committed without its body. -/
theorem shared_blob_is_deleted :
    (runFrom sampleArchive.next (sampleArchive.start sharedBody)
        (ingestShared ++ storeShared ++ deleteShared 19 ++ commitShared)).map referencesOf =
      some ([[computeContentHash Envelope.sampleExtern [65]]], [], true) := by
  decide +kernel

end Bichon.Archive
