import Bichon.Archive.Accounting
import Bichon.Archive.References

/-!
# Verdicts of the duplicate check

An ingest asks the cache of the triples whether its message is archived already. The cache is
changed after the index: an ingest inserts its triple behind the envelope, and a deletion
removes triples at its end, behind several commands that may fail. So the cache lags behind
while a deletion is under way, and for good when it fails.

Deletions that nobody interrupts and that do not fail leave no triple without its envelope.
-/

namespace Bichon.Archive

open Gated Transition ByteFile List Function

open Envelope (Extern computeContentHash)

/-- The envelope is queued, or it is in the index and nothing that the writer has collected
deletes it. -/
def Stores.Alive (s : Stores) (d : EnvelopeDoc) : Prop :=
  d ∈ s.envelopes.queue ∨ d ∈ s.envelopes.flushed EnvelopeDoc.matches

/-- The writer has collected no deletion, and every triple of the cache has its envelope. -/
structure Sound (s : Stores) : Prop where
  pending : ∀ op ∈ s.envelopes.pending, ∀ q ∈ op.deleted?, False
  dedup : ∀ key ∈ s.dedup, ∃ d, s.Alive d ∧ d.key = key

section

variable {s s' : Stores} {c : Command} {o : Option BichonError}

theorem mem_dedup_exec {key : DedupKey} (h : exec c o s = some s') (hkey : key ∈ s'.dedup) :
    key ∈ s.dedup ∨ c = .dedupInsert key ∨ ∃ keys, c = .dedupFill keys ∧ key ∈ keys := by
  rcases exec_cases h with ⟨-, -, rfl⟩ | ⟨-, heffect⟩
  · exact .inl hkey
  · cases heffect with
    | dedup hdedup =>
      cases hdedup with
      | insert key' => exact (mem_cons.mp hkey).symm.imp_right fun h => .inl (by rw [h])
      | fill keys => exact (mem_append.mp hkey).symm.imp_right fun h => .inr ⟨keys, rfl, h⟩
      | remove => exact .inl (mem_filter.mp hkey).1
    | writeAccount | deleteAccount | writeMailBoxes | deleteMailBoxes | envelopes | blobs
    | leaves =>
      exact .inl hkey
    | other _ _ hmail =>
      have hdedup : s'.dedup = s.dedup := congrArg Mail.dedup hmail
      exact .inl (hdedup ▸ hkey)

theorem alive_queueEnvelope {d : EnvelopeDoc} (h : exec (.queueEnvelope d) o s = some s') :
    s'.Alive d := by
  cases o with
  | some e => cases h
  | none =>
    obtain ⟨e, he, rfl⟩ := Option.map_eq_some_iff.mp h
    obtain ⟨-, ⟨⟩⟩ := Option.ite_none_right_eq_some.mp he
    exact .inl mem_concat_self

theorem foldl_apply_add (docs ds : List EnvelopeDoc) :
    (docs.map WriterOp.add).foldl (IndexStore.apply EnvelopeDoc.matches) ds = ds ++ docs := by
  induction docs generalizing ds with
  | nil => simp
  | cons d docs ih => simp [IndexStore.apply, ih]

theorem Stores.Alive.exec {d : EnvelopeDoc} (hd : s.Alive d) (hexec : exec c o s = some s')
    (hquery : ∀ q, c ≠ .deleteQuery .envelopes q) : s'.Alive d := by
  rw [Alive]
  rcases envelopes_exec hexec with heq | ⟨-, heffect⟩
  · rwa [heq]
  · generalize s'.envelopes = e at heffect
    cases heffect with
    | lock | unlock | commit | fatalCommit => exact hd
    | deleteQuery q => exact (hquery q rfl).elim
    | queue d' => exact hd.imp_left (mem_append_left _)
    | receive =>
      refine .inr ?_
      rw [IndexStore.flushed, foldl_append, foldl_apply_add]
      exact mem_append.mpr hd.symm

end

theorem Sound.alive_of_committed {s : Stores} (h : Sound s) {d : EnvelopeDoc}
    (hd : d ∈ s.envelopes.committed) : s.Alive d :=
  .inr <| IndexStore.mem_foldl_apply_of_not_hit hd fun op hop q hq => (h.pending op hop q hq).elim

theorem Sound.purged {s s' : Stores} (h : Sound s) (hpending : s.envelopes.pending = [])
    (hpurged : Purged s.mail s'.mail) : Sound s' := by
  have hnone : s'.envelopes.pending = [] := hpurged.pending
  refine ⟨by simp [hnone], fun key hkey => ?_⟩
  obtain ⟨d, hd, rfl⟩ := h.dedup key (hpurged.dedup hkey)
  refine ⟨d, hd.imp (fun hqueue => ?_) (fun hflushed => ?_), rfl⟩
  · rwa [show s'.envelopes.queue = s.envelopes.queue from hpurged.queue]
  · rw [IndexStore.flushed, hpending] at hflushed
    rw [IndexStore.flushed, hnone]
    by_contra hgone
    exact (hpurged.removed d hflushed hgone).1 hkey

/-- The documents an operation is about to enter into the cache. -/
def Phase.docs : Phase → List EnvelopeDoc
  | .indexed d => [d]
  | .found docs => docs
  | _ => []

theorem Phase.docs_rest (t : Phase) : t.rest.docs = [] := by
  cases t <;> rfl

theorem Phase.Effect.mem_docs {t t' : Phase} {s : Stores} {c : Command} {d : EnvelopeDoc}
    (h : t.Effect s c t') (hd : d ∈ t'.docs) :
    (c = .search .envelopes ∧ d ∈ s.envelopes.committed) ∨ c = .queueEnvelope d := by
  cases h with
  | lock | unlock | queueBlob => cases hd
  | search =>
    cases t with
    | writing | counted => cases hd
    | _ => exact .inl ⟨rfl, hd⟩
  | queueEnvelope d' => exact .inr (by rw [mem_singleton.mp hd])
  | other =>
    rw [t.docs_rest] at hd
    cases hd

/-! ## Runs -/

section

variable {ι : Type} {X : Extern} {parse : Bytes → Option Message} {t t' : TrackedArchive ι}
variable {phase phase' : ι → Phase} {l : ArchiveStep ι}

/-- A deletion is started when every other call has ended, the gate is open and the writer has
collected nothing. Up to its end it makes all the steps, without an error. -/
def Exclusive (t : TrackedArchive ι) : ArchiveStep ι → Prop
  | .spawn _ c => (∀ j, ∀ c' ∈ t.underway j, c'.isDeletion = false) ∧
      (c.isDeletion = true → (∀ j, (t.pool.tasks j).isDone = true) ∧
        t.pool.gate.paused = false ∧ t.pool.store.envelopes.pending = [])
  | .run i none => ∀ j, ∀ c ∈ t.underway j, c.isDeletion = true → j = i
  | _ => ∀ j, ∀ c ∈ t.underway j, c.isDeletion = false

instance [Fintype ι] [DecidableEq ι] : (l : ArchiveStep ι) → Decidable (Exclusive t l)
  | .spawn _ _ => inferInstanceAs (Decidable (_ ∧ _))
  | .run _ none | .run _ (some _) | .refuse _ | .pause | .resume | .crash =>
    inferInstanceAs (Decidable (∀ _, _))

/-- No deletion is under way. -/
structure Quiet (t : TrackedArchive ι) (phase : ι → Phase) : Prop where
  obeyed : System.Obeyed (fun c => order (rulesOf (fun _ => True) c)) .idle t.pool t.calls phase
  calls : ∀ i, ∀ c ∈ t.underway i, c.isDeletion = false
  sound : Sound t.pool.store
  docs : ∀ i, ∀ d ∈ (phase i).docs, t.pool.store.Alive d

variable (X parse) in
/-- A deletion is under way in the slot and does what it does alone. -/
structure Purging (t : TrackedArchive ι) (i : ι) : Prop where
  others : ∀ j, j ≠ i → (t.pool.tasks j).isDone = true
  gate : t.pool.gate.paused = false
  call : ∃ c s, t.calls i = some c ∧ c.isDeletion = true ∧ Sound s ∧ s.envelopes.pending = [] ∧
    (t.pool.tasks i).alone exec none t.pool.store =
      ((archive X parse).program c).alone exec none s

/-- At its end all is quiet again. -/
theorem Purging.ended {i : ι} (h : Purging X parse t i) (hdone : (t.pool.tasks i).isDone = true) :
    Quiet t fun _ => .idle := by
  have hall : ∀ j, (t.pool.tasks j).isDone = true := by
    intro j
    by_cases hj : j = i
    · rwa [hj]
    · exact h.others j hj
  obtain ⟨c, s, -, hc, hsound, hpending, halone⟩ := h.call
  refine ⟨fun j => ?_, fun j c hc => ?_, hsound.purged hpending
    (purged_of_ended hc hpending hdone halone), fun _ => forall_mem_nil _⟩
  · have hj := hall j
    cases htask : t.pool.tasks j with
    | done r => rfl
    | _ => rw [htask] at hj; cases hj
  · rw [System.mem_underway, hall j] at hc
    cases hc.1

theorem not_deletes {c : Call} (h : c.isDeletion = false) {sees : Stores → Prop} (a : Nat) :
    ¬ (c.footprint sees).deletes a := by
  cases c with
  | deleteMessages | deleteMailbox | deleteAccount | retentionSweep | rebuildMailbox => cases h
  | _ => exact id

variable [DecidableEq ι]

theorem Quiet.next (h : Quiet t phase) (hl : ∀ i c, l = .spawn i c → c.isDeletion = false)
    (hnext : (archive X parse).nextTracked t l = some t') : ∃ phase', Quiet t' phase' := by
  obtain ⟨p', hp', ht'⟩ := Option.map_eq_some_iff.mp hnext
  obtain ⟨phase', hobeyed, hmoved⟩ := obeyed_calls trivial h.obeyed hp'
  have hcalls : ∀ i, ∀ c ∈ t'.underway i, c.isDeletion = false := by
    intro i c hc
    rcases System.mem_underway_next hnext hc with hc | rfl
    · exact h.calls i c hc
    · exact hl i c rfl
  suffices hend : Sound p'.store ∧ ∀ i, ∀ d ∈ (phase' i).docs, p'.store.Alive d by
    subst ht'
    exact ⟨phase', hobeyed, hcalls, hend.1, hend.2⟩
  have hupdate : ∀ {i : ι} {u : Phase} {s' : Stores}, (∀ d, t.pool.store.Alive d → s'.Alive d) →
      (∀ d ∈ u.docs, s'.Alive d) → ∀ j, ∀ d ∈ (update phase i u j).docs, s'.Alive d := by
    intro i u s' hkept hu j d hd
    by_cases hj : j = i
    · subst hj
      exact hu d (by rwa [update_self] at hd)
    · rw [update_of_ne hj] at hd
      exact hkept d (h.docs j d hd)
  cases hmoved with
  | gate => exact ⟨h.sound, h.docs⟩
  | crash => exact ⟨⟨nofun, nofun⟩, fun _ => forall_mem_nil _⟩
  | spawn i c => exact ⟨h.sound, hupdate (fun _ => id) (forall_mem_nil _)⟩
  | rest i =>
    refine ⟨h.sound, hupdate (fun _ => id) fun d hd => ?_⟩
    change d ∈ (phase i).rest.docs at hd
    rw [(phase i).docs_rest] at hd
    cases hd
  | call i o hi hallowed hexec =>
    rename_i c k s'
    have hquery : ∀ q, c ≠ .deleteQuery .envelopes q := by
      rintro q rfl
      cases hcall : t.calls i with
      | none =>
        rw [hcall] at hallowed
        exact hallowed.2
      | some call =>
        rw [hcall] at hallowed
        have hunderway : call ∈ t.underway i := System.mem_underway.mpr ⟨by rw [hi]; rfl, hcall⟩
        exact not_deletes (h.calls i call hunderway) _ hallowed.2
    have hkept : ∀ d, t.pool.store.Alive d → s'.Alive d := fun d hd => hd.exec hexec hquery
    refine ⟨⟨pending_exec hexec hquery h.sound.pending, fun key hkey => ?_⟩,
      hupdate hkept fun d hd => ?_⟩
    · rcases mem_dedup_exec hexec hkey with hkey | rfl | ⟨keys, rfl, hkey⟩
      · obtain ⟨d, hd, rfl⟩ := h.sound.dedup key hkey
        exact ⟨d, hkept d hd, rfl⟩
      · obtain ⟨d, hd, rfl⟩ := hallowed.1
        exact ⟨d, hkept d (h.docs i d (by rw [hd]; exact mem_singleton_self d)), rfl⟩
      · obtain ⟨docs, hdocs, hkeys⟩ := hallowed.1
        obtain ⟨d, hd, rfl⟩ := hkeys key hkey
        exact ⟨d, hkept d (h.docs i d (by rw [hdocs]; exact hd)), rfl⟩
    · rcases (Phase.effect_of_allows hallowed.1 o t.pool.store).mem_docs hd with ⟨-, hd⟩ | rfl
      · exact hkept d (h.sound.alive_of_committed hd)
      · exact alive_queueEnvelope hexec

theorem exclusive_next (h : (∃ phase, Quiet t phase) ∨ ∃ i, Purging X parse t i)
    (hl : Exclusive t l) (hnext : (archive X parse).nextTracked t l = some t') :
    (∃ phase, Quiet t' phase) ∨ ∃ i, Purging X parse t' i := by
  -- a deletion that has ended leaves all quiet
  by_cases hquiet : ∃ phase, Quiet t phase
  · obtain ⟨phase, hquiet⟩ := hquiet
    by_cases hspawn : ∃ i c, l = .spawn i c ∧ c.isDeletion = true
    · obtain ⟨i, c, rfl, hc⟩ := hspawn
      obtain ⟨hdone, hgate, hpending⟩ := hl.2 hc
      refine .inr ⟨i, ?_⟩
      obtain ⟨p', hp', rfl⟩ := Option.map_eq_some_iff.mp hnext
      cases System.stepped_of_next hp'
      refine ⟨fun j hj => ?_, hgate, c, _, update_self .., hc, hquiet.sound, hpending, ?_⟩
      · rw [← hdone j]
        exact congrArg Prog.isDone (update_of_ne hj ..)
      · exact congrArg (Prog.alone exec none · _) (update_self ..)
    · refine .inl (hquiet.next (fun i c hspawned => ?_) hnext)
      exact Bool.eq_false_iff.mpr fun hc => hspawn ⟨i, c, hspawned, hc⟩
  · obtain ⟨i, hpurging⟩ := h.resolve_left hquiet
    have hrunning : (t.pool.tasks i).isDone = false :=
      Bool.eq_false_iff.mpr fun hdone => hquiet ⟨_, hpurging.ended hdone⟩
    obtain ⟨c, s, hcall, hc, hsound, hpending, halone⟩ := hpurging.call
    have hunderway : c ∈ t.underway i := System.mem_underway.mpr ⟨hrunning, hcall⟩
    have hrun : l = .run i none := by
      cases l with
      | run j o =>
        cases o with
        | none => rw [hl i c hunderway hc]
        | some e => exact Bool.noConfusion ((hl i c hunderway).symm.trans hc)
      | spawn => exact Bool.noConfusion ((hl.1 i c hunderway).symm.trans hc)
      | refuse | pause | resume | crash => exact Bool.noConfusion ((hl i c hunderway).symm.trans hc)
    subst hrun
    obtain ⟨p', hp', rfl⟩ := Option.map_eq_some_iff.mp hnext
    obtain ⟨hgate, hothers, hsame⟩ := System.alone_next hpurging.gate hp'
    refine .inr ⟨i, fun j hj => ?_, hgate, c, s, hcall, hc, hsound, hpending, hsame.trans halone⟩
    rw [← hpurging.others j hj]
    exact congrArg Prog.isDone (hothers j hj)

end

/-- The message of the mailbox 2 arrives once more. -/
abbrev sameMessage : Delivery := { body := [65], size := 1, accountId := 1, mailboxId := 2 }

abbrev arrives : List (ArchiveStep Unit) :=
  .spawn () (.ingest (some sameMessage) ⟨"e", fun _ => "", 0⟩) :: steps 1

/-- The next step of the check says that the message is a duplicate. -/
def isDuplicate (q : ArchivePool Unit) : Bool :=
  match (extractEnvelopeCore Envelope.sampleExtern (fun _ => some { attachments := [] })
    sameMessage ⟨"e", fun _ => "", 0⟩).run.step exec (.go none) q.gate q.store with
  | some (.done (.ok .duplicate), _, _) => true
  | _ => false

end Bichon.Archive
