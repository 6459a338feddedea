import Bichon.Archive.Rows

/-!
# What a deletion accounts for

A deletion collects the leaves and the hashes of the envelopes through searchers that it opens
before it waits for the writer. The queries are run on the index that it finds when it has the
writer, after what others have committed in between.

A call that nobody interrupts and that meets no error accounts for all that it removes.
`Purged` says what such calls do to the mail.
-/

namespace Bichon.Archive

open Account Gated Prog Transition List ByteFile

open Envelope (Extern)

/-! ## The program that nobody interrupts -/

section

variable {s : Stores}

theorem alone_collectAll (qs : List DocQuery) : (collectAll qs).run.alone exec none s =
    some (s, .ok (.ofDocs (qs.flatMap fun q => s.envelopes.committed.filter (·.matches q)))) := by
  induction qs with
  | nil => rfl
  | cons q qs ih =>
    change ((collectAll qs).run.bind _).alone exec none s = _
    rw [alone_bind, ih]
    simp [Collected.ofDocs]
    rfl

theorem alone_deleteQueries (qs : List DocQuery) :
    (each (fun q => run (.deleteQuery .envelopes q)) qs).run.alone exec none s =
      some ({ s with envelopes :=
        { s.envelopes with pending := s.envelopes.pending ++ qs.map .delete } }, .ok ()) := by
  induction qs generalizing s with
  | nil =>
    rw [map_nil, append_nil]
    rfl
  | cons q qs ih =>
    refine ih.trans ?_
    rw [IndexStore.write, append_assoc]
    rfl

theorem foldl_apply_delete (qs : List DocQuery) (docs : List EnvelopeDoc) :
    (qs.map .delete).foldl (IndexStore.apply EnvelopeDoc.matches) docs =
      docs.filter fun d => qs.all (!d.matches ·) := by
  induction qs generalizing docs with
  | nil => exact (filter_eq_self.mpr fun _ _ => rfl).symm
  | cons q qs ih =>
    rw [map_cons, foldl_cons, ih, IndexStore.apply, filter_filter]
    simp only [all_cons, Bool.and_comm]

theorem alone_cleanupUnusedContent (c : Collected) (h : s.envelopes.pending = []) :
    (cleanupUnusedContent c).run.alone exec none s = some ({ s with
      blobs := s.blobs.delete (c.candidates.filter (!referenced s.envelopes.committed ·)) },
      .ok ()) := by
  have hcommit : s.envelopes.commit EnvelopeDoc.matches = s.envelopes := by
    rw [IndexStore.commit, IndexStore.flushed, h, foldl_nil, ← h]
  have hfatal : exec (.fatalCommit .envelopes) none s = some s := by
    simp [exec, Stores.perform, Stores.commit, Stores.onIndex, hcommit]
  change (exec (.fatalCommit .envelopes) none s).bind _ = _
  rw [hfatal, Option.bind_some]
  change (if _ then _ else _ : Op Unit).run.alone exec none s = _
  split
  next hempty =>
    rw [show c.candidates.filter (!referenced s.envelopes.committed ·) = [] from
      isEmpty_iff.mp hempty, show s.blobs.delete [] = s.blobs by simp [BlobStore.delete]]
    rfl
  next => rfl

theorem alone_cleanupIfAny (c : Collected) (h : s.envelopes.pending = []) :
    (cleanupIfAny c).run.alone exec none s = some ({ s with
      blobs := s.blobs.delete (c.candidates.filter (!referenced s.envelopes.committed ·)) },
      .ok ()) := by
  rw [cleanupIfAny]
  split
  next hempty =>
    rw [Collected.isEmpty, Bool.and_eq_true, List.isEmpty_iff, List.isEmpty_iff] at hempty
    rw [Collected.candidates, hempty.1, hempty.2]
    simp [BlobStore.delete]
    rfl
  next => exact alone_cleanupUnusedContent c h

/-- What is done before the blobs are looked at decides whether the deletion goes on. -/
theorem alone_purge (h : s.envelopes.locked = false) (queries : List DocQuery) (between : Op Unit)
    (keep : Collected → DedupKey → Bool) :
    let found := Collected.ofDocs
      (queries.flatMap fun q => s.envelopes.committed.filter (·.matches q))
    let left := (s.envelopes.flushed EnvelopeDoc.matches).filter fun d => queries.all (!d.matches ·)
    (purgeEnvelopes queries between keep).run.alone exec none s =
      ((between >>= fun _ => do
          cleanupIfAny found
          sure (.dedupRemove (keep found))
          sure (.recordDeletions found.leaves) : Op Unit).run.alone exec none { s with
        envelopes := { s.envelopes with committed := left, pending := [], locked := true } }).map
          fun r => ({ r.1 with envelopes := r.1.envelopes.unlock }, r.2) := by
  intro found left
  have hlock : exec (.lock .envelopes) none s =
      some { s with envelopes := { s.envelopes with locked := true } } := by
    simp [exec, Stores.perform, Stores.onIndex, IndexStore.lock, h]
  change ((collectAll queries).run.bind _).alone exec none s = _
  rw [alone_bind, alone_collectAll, Option.bind_some]
  change (exec (.lock .envelopes) none s).bind _ = _
  rw [hlock, Option.bind_some]
  change (Prog.bind (Prog.bind (each _ queries).run _) _).alone exec none _ = _
  rw [alone_bind, alone_bind, alone_deleteQueries, Option.bind_some]
  have hleft : (s.envelopes.pending ++ queries.map WriterOp.delete).foldl
      (IndexStore.apply EnvelopeDoc.matches) s.envelopes.committed = left := by
    rw [foldl_append, foldl_apply_delete]
    rfl
  change Option.bind ((between >>= fun _ => _ : Op Unit).run.alone exec none { s with
    envelopes := { s.envelopes with
      committed := (s.envelopes.pending ++ queries.map WriterOp.delete).foldl
        (IndexStore.apply EnvelopeDoc.matches) s.envelopes.committed
      pending := [], locked := true } }) _ = _
  rw [hleft, Option.map_eq_bind]
  rfl

theorem alone_purgeTail (found : Collected) (keep : Collected → DedupKey → Bool)
    (h : s.envelopes.pending = []) :
    (do
      cleanupIfAny found
      sure (.dedupRemove (keep found))
      sure (.recordDeletions found.leaves) : Op Unit).run.alone exec none s = some ({ s with
        blobs := s.blobs.delete (found.candidates.filter (!referenced s.envelopes.committed ·))
        dedup := s.dedup.filter (keep found)
        leaves := s.leaves ++ found.leaves }, .ok ()) := by
  change ((cleanupIfAny found).run.bind _).alone exec none s = _
  rw [alone_bind, alone_cleanupIfAny found h]
  rfl

/-- Alone, the deletion leaves the documents that match no query, deletes the blobs that no
document left refers to, and records a leaf for every document that it has found. -/
theorem alone_purgeEnvelopes (h : s.envelopes.locked = false) (queries : List DocQuery)
    (keep : Collected → DedupKey → Bool) :
    let found := Collected.ofDocs
      (queries.flatMap fun q => s.envelopes.committed.filter (·.matches q))
    let left := (s.envelopes.flushed EnvelopeDoc.matches).filter fun d => queries.all (!d.matches ·)
    (purgeEnvelopes queries (pure ()) keep).run.alone exec none s = some ({ s with
      envelopes := { s.envelopes with committed := left, pending := [] }
      blobs := s.blobs.delete (found.candidates.filter (!referenced left ·))
      dedup := s.dedup.filter (keep found)
      leaves := s.leaves ++ found.leaves }, .ok ()) := by
  intro found left
  rw [alone_purge h]
  change Option.map _ ((do
    cleanupIfAny found
    sure (.dedupRemove (keep found))
    sure (.recordDeletions found.leaves) : Op Unit).run.alone exec none _) = _
  rw [alone_purgeTail found keep rfl, Option.map_some, IndexStore.unlock, ← h]

theorem alone_purgeEnvelopes_oneMessage :
    ((purgeEnvelopes [.account 1] (pure ()) fun _ _ => false).run.alone exec none oneMessage).map
      (fun r => (r.1.envelopes.committed, r.1.blobs, r.2)) = some ([], {}, .ok ()) := by
  rw [alone_purgeEnvelopes rfl]
  decide +kernel

end

/-! ## What deletions do to the mail -/

/-- Envelopes are removed, and all of it is accounted for: the cache forgets them, each has a
leaf, and a blob that only they needed is deleted. -/
structure Purged (m m' : Mail) : Prop where
  pending : m'.envelopes.pending = []
  queue : m'.envelopes.queue = m.envelopes.queue
  committed : m'.envelopes.committed ⊆ m.envelopes.committed
  writer : m'.blobs.queue = m.blobs.queue ∧ m'.blobs.batch = m.blobs.batch
  stored : m'.blobs.stored ⊆ m.blobs.stored
  dedup : m'.dedup ⊆ m.dedup
  leaves : m.leaves ⊆ m'.leaves
  removed : ∀ d ∈ m.envelopes.committed, d ∉ m'.envelopes.committed →
    d.key ∉ m'.dedup ∧ d.leaf ∈ m'.leaves ∧ ∀ key ∈ d.blobKeys,
      key ∈ m'.blobs.stored.map (·.1) → ∃ e ∈ m'.envelopes.committed, key ∈ e.blobKeys

namespace Purged

variable {m m' m'' : Mail}

theorem refl (h : m.envelopes.pending = []) : Purged m m :=
  ⟨h, rfl, fun _ => id, ⟨rfl, rfl⟩, fun _ => id, fun _ => id, fun _ => id,
    fun _ hd hnot => (hnot hd).elim⟩

theorem trans (h : Purged m m') (h' : Purged m' m'') : Purged m m'' where
  pending := h'.pending
  queue := h'.queue.trans h.queue
  committed _ hd := h.committed (h'.committed hd)
  writer := ⟨h'.writer.1.trans h.writer.1, h'.writer.2.trans h.writer.2⟩
  stored _ hr := h.stored (h'.stored hr)
  dedup _ hkey := h.dedup (h'.dedup hkey)
  leaves _ hleaf := h'.leaves (h.leaves hleaf)
  removed d hd hnot := by
    by_cases hmid : d ∈ m'.envelopes.committed
    · exact h'.removed d hmid hnot
    · obtain ⟨hkey, hleaf, hblobs⟩ := h.removed d hd hmid
      refine ⟨fun hmem => hkey (h'.dedup hmem), h'.leaves hleaf, fun key hk hstored => ?_⟩
      -- whoever needed the blob in between still does, or was removed behind it
      obtain ⟨e, he, hke⟩ := hblobs key hk (map_subset _ h'.stored hstored)
      by_cases hlast : e ∈ m''.envelopes.committed
      · exact ⟨e, hlast, hke⟩
      · exact (h'.removed e he hlast).2.2 key hke hstored

theorem of_queries (queries : List DocQuery)
    {keep : Collected → DedupKey → Bool}
    (hkeep : ∀ found : Collected, ∀ d : EnvelopeDoc, d.key ∈ found.keys →
      ∀ q ∈ queries, d.matches q = true → keep found d.key = false) :
    let found := Collected.ofDocs
      (queries.flatMap fun q => m.envelopes.committed.filter (·.matches q))
    let left := m.envelopes.committed.filter fun d => queries.all (!d.matches ·)
    ∀ locked, Purged m ⟨{ m.envelopes with committed := left, pending := [], locked },
      m.blobs.delete (found.candidates.filter (!referenced left ·)),
      m.dedup.filter (keep found), m.leaves ++ found.leaves⟩ := by
  intro found left locked
  refine ⟨rfl, rfl, filter_sublist.subset, ⟨rfl, rfl⟩, filter_sublist.subset,
    filter_sublist.subset, subset_append_left _ _, fun d hd hnot => ?_⟩
  obtain ⟨q, hq, hmatches⟩ : ∃ q ∈ queries, d.matches q = true := by
    simpa [left, hd] using hnot
  have hfound : d ∈ queries.flatMap fun q => m.envelopes.committed.filter (·.matches q) :=
    mem_flatMap.mpr ⟨q, hq, mem_filter.mpr ⟨hd, hmatches⟩⟩
  have hkey : d.key ∈ found.keys := mem_map_of_mem hfound
  refine ⟨fun hmem => ?_, mem_append_right _ (mem_map_of_mem hfound), fun key hk hstored => ?_⟩
  · have hkept := (mem_filter.mp hmem).2
    rw [hkeep found d hkey q hq hmatches] at hkept
    cases hkept
  · have hcandidate : key ∈ found.candidates := by
      rcases mem_cons.mp hk with rfl | hk
      · exact mem_append_left _ (mem_map.mpr ⟨d.key, hkey, rfl⟩)
      · exact mem_append_right _ (mem_flatMap.mpr ⟨d, hfound, hk⟩)
    obtain ⟨r, hr, rfl⟩ := mem_map.mp hstored
    have hkept := (mem_filter.mp hr).2
    refine referenced_iff.mp (by simpa [hcandidate] using hkept)

end Purged

/-- The commands that leave the mail as it is. -/
def Command.Aside : Command → Prop
  | .lock .attachments | .unlock .attachments | .deleteQuery .attachments _ | .commit .attachments
  | .writeAccount _ _ | .deleteAccount _ | .deleteMailBoxes _ | .writeUser _ | .deleteToken _
  | .deleteDownloadState _ | .search _ => True
  | _ => False

theorem Command.Aside.mail_exec {c : Command} (h : c.Aside) {o : Option BichonError}
    {s s' : Stores} (hexec : exec c o s = some s') : s'.mail = s.mail := by
  rcases exec_cases hexec with ⟨-, -, rfl⟩ | ⟨-, heffect⟩
  · rfl
  · cases heffect with
    | writeAccount | deleteAccount | writeMailBoxes | deleteMailBoxes => rfl
    | envelopes heffect | blobs heffect | dedup heffect => cases heffect <;> exact h.elim
    | leaves => exact h.elim
    | other _ _ hmail => exact hmail

section

variable {α : Type} {I : Mail → Prop} {fails : Prop}

theorem lands_aside {c : Command} {k : Option BichonError → Stores → Except BichonError α}
    (h : c.Aside) (hk : ∀ s e, k none s = .error e → fails) :
    Lands exec none (fun s => I s.mail) fails (Prog.call c fun o s => .done (k o s)) :=
  Lands.call (fun _ _ hs hexec => by rwa [h.mail_exec hexec]) fun s => Lands.done (hk s)

theorem lands_run {c : Command} (h : c.Aside) :
    Lands exec none (fun s => I s.mail) fails (run c) :=
  lands_aside h nofun

theorem lands_purgeAttachments (queries : List DocQuery) :
    Lands exec none (fun s => I s.mail) fails (purgeAttachments queries) := by
  refine Lands.admitted (Lands.call (fun _ _ hs hexec => ?_) fun _ => Lands.bind
    (Lands.bindE (Lands.each fun _ => lands_run trivial) fun _ => lands_run trivial) fun r hr =>
      lands_aside trivial fun _ => hr)
  rwa [Command.Aside.mail_exec (c := .lock .attachments) trivial hexec]

theorem lands_purgeEnvelopes {m : Mail} {queries : List DocQuery} {between : Op Unit}
    {keep : Collected → DedupKey → Bool}
    (hbetween : ∀ m, Lands exec none (fun s => s.mail = m) False between)
    (hkeep : ∀ found : Collected, ∀ d : EnvelopeDoc, d.key ∈ found.keys →
      ∀ q ∈ queries, d.matches q = true → keep found d.key = false) :
    Lands exec none (fun s => Purged m s.mail) True (purgeEnvelopes queries between keep) := by
  intro s s' r hs h
  have hpending : s.envelopes.pending = [] := hs.pending
  have hlocked : s.envelopes.locked = false := by
    refine Bool.eq_false_iff.mpr fun hlocked => ?_
    have hlock : exec (.lock .envelopes) none s = none := by
      simp [exec, Stores.perform, Stores.onIndex, IndexStore.lock, hlocked]
    change ((collectAll queries).run.bind _).alone exec none s = _ at h
    rw [alone_bind, alone_collectAll, Option.bind_some] at h
    change (exec (.lock .envelopes) none s).bind _ = _ at h
    rw [hlock] at h
    cases h
  rw [alone_purge hlocked] at h
  obtain ⟨⟨t, x⟩, ht, ⟨⟩⟩ := Option.map_eq_some_iff.mp h
  change (between.run.bind _).alone exec none _ = _ at ht
  rw [alone_bind] at ht
  obtain ⟨⟨u, y⟩, hu, hrest⟩ := Option.bind_eq_some_iff.mp ht
  obtain ⟨hmail, hok⟩ := hbetween _ _ u y rfl hu
  cases y with
  | error e => exact (hok e rfl).elim
  | ok _ =>
    obtain ⟨he, hb, hd, hl⟩ := Mail.mk.inj hmail
    have htail := (alone_purgeTail _ keep (by rw [he])).symm.trans hrest
    cases htail
    refine ⟨?_, fun _ _ => trivial⟩
    have hpurged := hs.trans (.of_queries queries hkeep false)
    simp only [Stores.mail, he, hb, hd, hl, IndexStore.unlock, IndexStore.flushed, hpending,
      foldl_nil]
    exact hpurged

end

/-! ## The calls that delete -/

section

variable {α : Type} {m : Mail}

/-- Alone, the operation accounts for all that it removes. -/
abbrev Accounts (m : Mail) (p : Op α) : Prop := Lands exec none (fun s => Purged m s.mail) True p

theorem accounts_updateImpl {A : Type} (collection : String) (id : Nat) (find : Stores → Option A)
    {update : A → A} {write : A → Command} (h : ∀ r, (write r).Aside) :
    Accounts m (updateImpl collection id find update write) :=
  .admitted <| .bindE (.read _) fun
    | some _ => .bindE (lands_run (h _)) fun _ => .done nofun
    | none => .done fun _ _ => trivial

theorem accounts_deleteImpl (collection : String) (id : Nat) (existed : Stores → Bool)
    {delete : Command} (h : delete.Aside) :
    Accounts m (deleteImpl collection id existed delete) :=
  .admitted (lands_aside h fun _ _ _ => trivial)

theorem accounts_deleteIfFound (collection : String) (id : Nat) (found : Stores → Bool)
    {c : Command} (h : c.Aside) :
    Accounts m (do if ← Prog.read found then deleteImpl collection id found c) :=
  .bindE (.read _) fun _ => .ite (accounts_deleteImpl _ _ _ h) (.done nofun)

theorem accounts_getAccount (id : Nat) : Accounts m (getAccount id) := .bindE (.read _) fun
    | some _ => .done nofun
    | none => .done fun _ _ => trivial

theorem accounts_getMailBox (id : Nat) : Accounts m (getMailBox id) := .bindE (.read _) fun
    | some _ => .done nofun
    | none => .done fun _ _ => trivial

theorem accounts_deleteAccountEnvelopes (accountId : Nat) :
    Accounts m (deleteAccountEnvelopes accountId) :=
  .admitted <| lands_purgeEnvelopes (fun m => lands_purgeAttachments (I := (· = m)) _)
    fun _ d _ q hq hmatches => by
      rw [mem_singleton.mp hq] at hmatches
      exact bne_eq_false_iff_eq.mpr (d.accountId_of_matches hmatches)

theorem accounts_deleteMailboxEnvelopes (accountId : Nat) (mailboxIds : List Nat) :
    Accounts m (deleteMailboxEnvelopes accountId mailboxIds) := by
  refine .ite (.done nofun) (.admitted (lands_purgeEnvelopes (fun _ => .done nofun) ?_))
  intro _ d _ q hq hmatches
  obtain ⟨id, hid, rfl⟩ := mem_map.mp hq
  have hmailbox : d.mailboxId = id := beq_iff_eq.mp (Bool.and_eq_true_iff.mp hmatches).2
  simpa [EnvelopeDoc.key, hmailbox] using hid

theorem accounts_purgeFound (queries : List DocQuery) :
    Accounts m (purgeEnvelopes queries (pure ()) fun found key => !found.keys.contains key) :=
  lands_purgeEnvelopes (fun _ => .done nofun) fun _ _ hkey _ _ _ => by simpa using hkey

theorem accounts_deleteMailboxAttachments (accountId : Nat) (mailboxIds : List Nat) :
    Accounts m (deleteMailboxAttachments accountId mailboxIds) :=
  .ite (.done nofun) (lands_purgeAttachments _)

theorem accounts_deleteMessagesImpl (request : Request) : Accounts m (deleteMessagesImpl request) :=
  .bindE (.each fun _ => .bindE (accounts_getAccount _) fun _ =>
      .ite (.done fun _ _ => trivial) (.done nofun)) fun _ =>
    .bindE (.ite (.done nofun) (.admitted (accounts_purgeFound _))) fun _ =>
      .ite (.done nofun) (lands_purgeAttachments _)

theorem accounts_deleteMailboxImpl (accountId mailboxId : Nat) :
    Accounts m (deleteMailboxImpl accountId mailboxId) := by
  refine .bindE (accounts_getAccount _) fun account => .ite (.done fun _ _ => trivial) ?_
  refine .bindE (.bindE (accounts_getMailBox _) fun _ => .read _) fun ids => ?_
  exact .ite (.done nofun) (.bindE (.each fun _ => accounts_deleteImpl _ _ _ trivial) fun _ =>
    .bindE (accounts_deleteMailboxEnvelopes _ _) fun _ => accounts_deleteMailboxAttachments _ _)

theorem accounts_cleanupCommon (accountId : Nat) : Accounts m (cleanupCommon accountId) := by
  refine .bindE (accounts_deleteIfFound _ _ _ trivial) fun _ => ?_
  have husers : Accounts m (cleanupUsers accountId) := .bindE (.read _) fun _ => .each fun _ =>
      .bindE (accounts_updateImpl _ _ _ fun _ => trivial) fun _ => .done nofun
  have hclean : Accounts m (cleanMailBoxes accountId) :=
    .bindE (.read _) fun _ => .ite (.done nofun) (.admitted (lands_run trivial))
  exact .bindE husers fun _ => .bindE hclean fun _ =>
    .bindE (accounts_deleteAccountEnvelopes _) fun _ =>
      .bindE (lands_purgeAttachments _) fun _ => accounts_deleteImpl _ _ _ trivial

theorem accounts_deleteAndWait (accountId : Nat) : Accounts m (deleteAndWait accountId) := by
  have hdeletable (account : AccountModel) : Accounts m (ensureDeletable account) :=
    .ite (.done fun _ _ => trivial) <| .ite (.done fun _ _ => trivial) <| .bindE (.read _) fun _ =>
      .ite (.done fun _ _ => trivial) (.done nofun)
  refine .bindE (accounts_getAccount _) fun account => .bindE (hdeletable account) fun _ =>
    .bindE (accounts_updateImpl _ _ _ fun _ => trivial) fun _ =>
      .bind (show Accounts m _ from ?_) fun
      | .ok _, _ => .done nofun
      | .error _, _ => .bind (show Accounts m _ from accounts_updateImpl _ _ _ fun _ => trivial)
          fun _ _ => .done fun _ _ => trivial
  exact .ite (.bindE (accounts_deleteIfFound _ _ _ trivial) fun _ => accounts_cleanupCommon _)
    (accounts_cleanupCommon _)

theorem accounts_retentionSweep (now : Int) : Accounts m (retentionSweep now) := by
  have hsweep : Accounts m (do
      let accounts ← Prog.read (·.accounts)
      Prog.each (sweepAccount now) accounts) := by
    refine .bindE (.read _) fun _ => .each fun account => .ite (.done nofun) ?_
    refine .bind (show Accounts m _ from ?_) fun _ _ => .done nofun
    exact .bindE (lands_aside trivial nofun) fun _ =>
      .ite (.done nofun) (.admitted (accounts_purgeFound _))
  exact hsweep

/-- The calls that delete envelopes. -/
def Call.isDeletion : Call → Bool
  | .deleteMessages _ | .deleteMailbox _ _ | .deleteAccount _ | .retentionSweep _
  | .rebuildMailbox _ _ => true
  | _ => false

theorem Call.accounts (X : Extern) (parse : Bytes → Option Message) {c : Call}
    (h : c.isDeletion = true) : Accounts m (c.op X parse) := by
  cases c with
  | deleteMessages request => exact accounts_deleteMessagesImpl request
  | deleteMailbox accountId mailboxId => exact accounts_deleteMailboxImpl accountId mailboxId
  | deleteAccount accountId => exact accounts_deleteAndWait accountId
  | retentionSweep now => exact accounts_retentionSweep now
  | rebuildMailbox accountId mailboxId =>
    exact .bindE (accounts_deleteMailboxEnvelopes _ _) fun _ =>
      accounts_deleteMailboxAttachments _ _
  | _ => cases h

end

section

variable {ι : Type} [DecidableEq ι] {X : Extern} {parse : Bytes → Option Message}

omit [DecidableEq ι] in
theorem purged_of_ended {s : Stores} {q : ArchivePool ι} {i : ι} {c : Call}
    (hc : c.isDeletion = true) (hpending : s.envelopes.pending = [])
    (hdone : (q.tasks i).isDone = true)
    (halone : (q.tasks i).alone exec none q.store =
      ((archive X parse).program c).alone exec none s) : Purged s.mail q.store.mail := by
  cases htask : q.tasks i with
  | done r =>
    rw [htask] at halone
    exact (c.accounts X parse hc s q.store r (.refl hpending) halone.symm).1
  | _ => rw [htask] at hdone; cases hdone

end

/-- What is committed, the leaves, the keys of the blobs, and whether the deletion has ended. -/
def accountOf (q : ArchivePool Bool) : List String × List LeafRecord × List String × Bool :=
  (q.store.envelopes.committed.map (·.id), q.store.leaves, q.store.blobs.stored.map (·.1),
    (q.tasks false).isDone)

end Bichon.Archive
