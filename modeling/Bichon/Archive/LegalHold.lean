import Bichon.Archive.Footprint
import Bichon.Archive.Rows

/-!
# Legal hold

While an account is on hold its messages must stay. The deletions look at the flag of the
account once, before they await the gate and the lock of the index writer, the sweep looks
at a list of accounts it has read at its start, and the rebuild of a mailbox does not look
at the flag at all. A deletion that was handed to the index writer takes effect with the
next commit, whoever makes it.

A call that sees the account on hold all the time spares it (`Call.spares_of_held`), and one
that has nothing to do with the account spares it whatever it sees.
-/

namespace Bichon.Archive

open Account Gated Transition ByteFile

open Envelope (Extern)

def OnHold (s : Stores) (accountId : Nat) : Prop := (s.account accountId).any (·.isOnHold) = true

/-- The call deletes the row of the account or takes it off hold. -/
def Call.changesRow (accountId : Nat) : Call → Bool
  | .deleteAccount a | .releaseLegalHold a => a == accountId
  | _ => false

/-- The call deletes messages of the account, or it changes its row. -/
def Call.concerns (accountId : Nat) : Call → Bool
  | .deleteMessages request => request.any (·.1 == accountId)
  | .deleteMailbox a _ | .deleteAccount a | .releaseLegalHold a | .rebuildMailbox a _ =>
    a == accountId
  | .retentionSweep _ => true
  | _ => false

/-- A release of the account or a rebuild of one of its mailboxes. -/
def Call.ignoresHold (accountId : Nat) : Call → Bool
  | .releaseLegalHold a | .rebuildMailbox a _ => a == accountId
  | _ => false

/-- The account is on hold, and no deletion of its messages is left with the index writer. -/
structure Held (accountId : Nat) (s : Stores) : Prop where
  ids : (s.accounts.map (·.id)).Nodup
  hold : OnHold s accountId
  pending : ∀ op ∈ s.envelopes.pending, ∀ q ∈ op.deleted?, q.accountId ≠ accountId

/-- The row of the account is not deleted and not taken off hold. -/
structure Footprint.KeepsRow (accountId : Nat) (F : Footprint) : Prop where
  writes : ∀ row, F.writes row → row.id = accountId → row.isOnHold = true
  removes : ¬ F.removesAccount accountId

/-- No message of the account is deleted either. -/
structure Footprint.Spares (accountId : Nat) (F : Footprint) : Prop extends
    F.KeepsRow accountId where
  deletes : ¬ F.deletes accountId

section

variable {s s' : Stores} {accountId : Nat} {c : Command} {o : Option BichonError}

theorem onHold_upsert (row : AccountModel) :
    OnHold { s with accounts := upsert (·.id) s.accounts row } accountId ↔
      if row.id = accountId then row.isOnHold = true else OnHold s accountId := by
  rw [OnHold, Stores.account, findAccount, find_upsert]
  split <;> rfl

theorem onHold_deleteAccount {id : Nat} (hid : id ≠ accountId) (h : OnHold s accountId) :
    OnHold { s with accounts := s.accounts.filter (·.id != id) } accountId := by
  have hfind : (s.accounts.filter (·.id != id)).find? (·.id == accountId) =
      s.accounts.find? (·.id == accountId) := by
    rw [List.find?_filter]
    refine congrArg (List.find? · s.accounts) (funext fun r => ?_)
    by_cases hr : r.id = accountId
    · simp [hr, Ne.symm hid]
    · simp [hr]
  rwa [OnHold, Stores.account, findAccount, hfind]

theorem nodup_map_upsert {rows : List AccountModel} (row : AccountModel)
    (h : (rows.map (·.id)).Nodup) : ((upsert (·.id) rows row).map (·.id)).Nodup := by
  have hids : (upsert (·.id) rows row).map (·.id) = rows.map (·.id) ∨
      (row.id ∉ rows.map (·.id) ∧
        (upsert (·.id) rows row).map (·.id) = rows.map (·.id) ++ [row.id]) := by
    clear h
    induction rows with
    | nil => exact .inr ⟨List.not_mem_nil, rfl⟩
    | cons r rs ih =>
      rw [upsert]
      split
      next hr => exact .inl (by rw [List.map_cons, List.map_cons, hr])
      next hr =>
        rcases ih with ih | ⟨hnot, ih⟩
        · exact .inl (by rw [List.map_cons, List.map_cons, ih])
        · exact .inr ⟨by simp [Ne.symm hr, hnot], by simp [ih]⟩
  rcases hids with hids | ⟨hnot, hids⟩
  · rwa [hids]
  · rw [hids, List.nodup_append]
    exact ⟨h, List.nodup_singleton _, fun a ha b hb => by
      rw [List.mem_singleton.mp hb]
      exact fun heq => hnot (heq ▸ ha)⟩

theorem nodup_exec (h : (s.accounts.map (·.id)).Nodup) (hexec : exec c o s = some s') :
    (s'.accounts.map (·.id)).Nodup := by
  rcases exec_cases hexec with ⟨-, -, rfl⟩ | ⟨-, heffect⟩
  · exact h
  · cases heffect with
    | writeAccount row why => exact nodup_map_upsert row h
    | deleteAccount id => exact h.sublist (List.filter_sublist.map _)
    | writeMailBoxes | deleteMailBoxes | envelopes | blobs | dedup | leaves => exact h
    | other haccounts => rwa [haccounts]

section

variable {F : Footprint} (hallows : F.allows c) (hexec : exec c o s = some s')

include hallows hexec

theorem onHold_exec (hF : F.KeepsRow accountId) (h : OnHold s accountId) : OnHold s' accountId := by
  rcases exec_cases hexec with ⟨-, -, rfl⟩ | ⟨rfl, heffect⟩
  · exact h
  · cases heffect with
    | writeAccount row why =>
      rw [onHold_upsert]
      split
      next hrow => exact hF.writes row hallows hrow
      next => exact h
    | deleteAccount id => exact onHold_deleteAccount (fun hid => hF.removes (hid ▸ hallows)) h
    | writeMailBoxes | deleteMailBoxes | envelopes | blobs | dedup | leaves => exact h
    | other haccounts => rwa [OnHold, Stores.account, haccounts]

theorem Held.exec (hF : F.Spares accountId) (h : Held accountId s) : Held accountId s' :=
  ⟨nodup_exec h.ids hexec, onHold_exec hallows hexec hF.toKeepsRow h.hold,
    pending_exec hexec (by rintro q rfl hid; exact hF.deletes (hid ▸ hallows)) h.pending⟩

end

theorem mem_committed_exec {d : EnvelopeDoc} (hd : d ∈ s.envelopes.committed)
    (h : ∀ op ∈ s.envelopes.pending, ∀ q ∈ op.deleted?, q.accountId ≠ d.accountId)
    (hexec : exec c o s = some s') : d ∈ s'.envelopes.committed := by
  rcases envelopes_exec hexec with heq | ⟨rfl, heffect⟩
  · exact heq ▸ hd
  · rcases heffect.committed with hcommitted | ⟨-, hcommit⟩
    · exact hcommitted ▸ hd
    · rw [hcommit]
      refine IndexStore.mem_foldl_apply_of_not_hit hd fun op hop q hq => ?_
      exact Bool.eq_false_iff.mpr fun hit => h op hop q hq (d.accountId_of_matches hit).symm

end

/-! ## Calls that spare the account -/

theorem Call.keepsRow {accountId : Nat} {c : Call} {sees : Stores → Prop}
    (h : c.changesRow accountId = false) : (c.footprint sees).KeepsRow accountId := by
  cases c with
  | deleteAccount a =>
    have hne : a ≠ accountId := bne_iff_ne.mp (Bool.not_eq_eq_eq_not.mpr h)
    exact ⟨fun row ⟨_, _, _, _, hid, _⟩ hrow => (hne (hid.symm.trans hrow)).elim,
      fun hremove => hne hremove.1.symm⟩
  | placeLegalHold a => exact ⟨fun _ hrow _ => hrow.2, id⟩
  | releaseLegalHold a =>
    have hne : a ≠ accountId := bne_iff_ne.mp (Bool.not_eq_eq_eq_not.mpr h)
    exact ⟨fun row hid hrow => (hne (hid.symm.trans hrow)).elim, id⟩
  | deleteMessages | deleteMailbox | retentionSweep | rebuildMailbox | ingest | receiveDocs
  | commitTick | takeBlobs | storeBlob | populateDedup | evictDedup =>
    exact ⟨fun _ => False.elim, id⟩

theorem Call.spares_of_not_concerns {accountId : Nat} {c : Call} {sees : Stores → Prop}
    (h : c.concerns accountId = false) : (c.footprint sees).Spares accountId := by
  refine ⟨keepsRow ?_, fun hdelete => ?_⟩
  · cases c with
    | deleteAccount | releaseLegalHold => exact h
    | _ => rfl
  · cases c with
    | deleteMessages request =>
      obtain ⟨account, haccount, hid⟩ := List.mem_map.mp hdelete.1
      exact List.any_eq_false.mp h account haccount (beq_iff_eq.mpr hid)
    | deleteMailbox | deleteAccount =>
      exact bne_iff_ne.mp (Bool.not_eq_eq_eq_not.mpr h) hdelete.1.symm
    | rebuildMailbox => exact bne_iff_ne.mp (Bool.not_eq_eq_eq_not.mpr h) hdelete.symm
    | retentionSweep => cases h
    | _ => exact hdelete

theorem not_seenFree_of_held {accountId : Nat} : ¬ SeenFree (Held accountId) accountId := by
  rintro ⟨s, hs, account, haccount, hid, hfree⟩
  have honHold := hs.hold
  rw [OnHold] at honHold
  cases hrow : s.account accountId with
  | none => rw [hrow] at honHold; cases honHold
  | some held =>
    have hheld : held ∈ s.accounts := List.mem_of_find?_eq_some hrow
    have hsame : account = held :=
      List.inj_on_of_nodup_map hs.ids haccount hheld (hid.trans (s.id_of_account hrow).symm)
    rw [hrow, ← hsame] at honHold
    exact Bool.noConfusion (hfree.symm.trans honHold)

/-- Whoever sees the account on hold all the time spares it, but for a release and a rebuild. -/
theorem Call.spares_of_held {accountId : Nat} {c : Call} (h : c.ignoresHold accountId = false) :
    (c.footprint (Held accountId)).Spares accountId := by
  cases c with
  | deleteMessages | deleteMailbox =>
    exact ⟨keepsRow rfl, fun hdelete => not_seenFree_of_held hdelete.2⟩
  | deleteAccount a =>
    refine ⟨⟨?_, fun hremove => not_seenFree_of_held hremove.2⟩,
      fun hdelete => not_seenFree_of_held hdelete.2⟩
    rintro row ⟨s, current, hs, hcurrent, hid, hhold⟩ hrow
    have honHold := hs.hold
    rw [OnHold, ← hrow, hid, hcurrent] at honHold
    exact hhold.trans honHold
  | retentionSweep => exact ⟨keepsRow rfl, not_seenFree_of_held⟩
  | releaseLegalHold | rebuildMailbox => exact spares_of_not_concerns h
  | _ => exact spares_of_not_concerns rfl

/-- The write of `place_legal_hold`, with success. -/
def PlacesHold (accountId : Nat) (c : Command) (o : Option BichonError) : Prop :=
  o = none ∧ ∃ row : AccountModel,
    row.id = accountId ∧ row.isOnHold = true ∧ c = .writeAccount row .placeHold

theorem onHold_of_placesHold {s s' : Stores} {accountId : Nat} {c : Command}
    {o : Option BichonError} (h : PlacesHold accountId c o) (hexec : exec c o s = some s') :
    OnHold s' accountId := by
  obtain ⟨rfl, row, hrow, hhold, rfl⟩ := h
  cases hexec
  rw [onHold_upsert, if_pos hrow]
  exact hhold

theorem placeLegalHold_passes (X : Extern) (parse : Bytes → Option Message) (accountId : Nat) :
    ((archive X parse).program (.placeLegalHold accountId)).Passes (PlacesHold accountId) := by
  refine Prog.Passes.bindE (Prog.Passes.admitted (Prog.Passes.read fun s => ?_))
  cases hs : s.account accountId with
  | none => exact ⟨_, rfl⟩
  | some current =>
    have hid : current.id = accountId := by simpa using List.find?_some hs
    refine Prog.Passes.bindE fun o _ => ?_
    cases o with
    | none => exact .inl ⟨rfl, { current with legalHold := true }, hid, rfl, rfl⟩
    | some e => exact .inr ⟨e, rfl⟩

/-! ## Runs -/

section

variable {ι : Type} [DecidableEq ι] {X : Extern} {parse : Bytes → Option Message}
variable {p p' : ArchivePool ι} {l : ArchiveStep ι}
variable {sees : Stores → Prop} {P : Footprint → Prop} {accountId : Nat}

/-- All that runs has a footprint with the property, as long as the stores are as said. -/
def Bounded (sees : Stores → Prop) (P : Footprint → Prop) (p : ArchivePool ι) : Prop :=
  ∃ (label : ι → Footprint) (phase : ι → Phase),
    System.Obeyed (fun F => order { sees, footprint := F }) .idle p label phase ∧ ∀ i, P (label i)

omit [DecidableEq ι] in
theorem Bounded.restrict {sees' : Stores → Prop} (h : Bounded sees P p)
    (hsees : ∀ s, sees' s → sees s) : Bounded sees' P p := by
  obtain ⟨label, phase, hobeyed, hlabel⟩ := h
  refine ⟨label, phase, fun i => ?_, hlabel⟩
  exact Prog.Follows.restrict hsees (hobeyed i)

theorem Bounded.next (h : Bounded sees P p) (hsees : sees p.store)
    (hl : ∀ c ∈ l.starts?, P (c.footprint sees)) (hnext : (archive X parse).next p l = some p') :
    Bounded sees P p' ∧ (p'.store = p.store ∨ p'.store = p.store.restart ∨
      ∃ c o F, P F ∧ F.allows c ∧ exec c o p.store = some p'.store) := by
  obtain ⟨label, phase, hobeyed, hlabel⟩ := h
  obtain ⟨phase', hobeyed', hmoved⟩ := System.obeyed_next
    (fun _ c _ => Call.orderly X parse c sees) (fun _ => rfl) (fun _ => hsees) hobeyed hnext
  refine ⟨⟨_, phase', hobeyed', fun i => ?_⟩, ?_⟩
  · cases l with
    | spawn j c =>
      rw [System.relabel, Function.update_apply]
      split
      · exact hl c rfl
      · exact hlabel i
    | run | refuse | pause | resume | crash => exact hlabel i
  · cases hmoved with
    | call i o hi hallowed hexec => exact .inr (.inr ⟨_, o, _, hlabel i, hallowed.2, hexec⟩)
    | crash => exact .inr (.inl rfl)
    | spawn | rest | gate => exact .inl rfl

/-- What runs is what was started and has not ended. -/
theorem bounded_of_underway {store : Stores} {t : TrackedArchive ι} {ls : List (ArchiveStep ι)}
    (hrun : runFrom (archive X parse).nextTracked ((archive X parse).startTracked store) ls =
      some t)
    (hidle : P {}) (h : ∀ i, ∀ c ∈ t.underway i, P (c.footprint fun _ => True)) :
    Bounded (fun _ => True) P t.pool := by
  let rules := rulesOf fun _ => True
  obtain ⟨phase, hobeyed⟩ : ∃ phase,
      System.Obeyed (fun c => order (rules c)) .idle t.pool t.calls phase := by
    have hall : Along (archive X parse).nextTracked (fun _ _ => True)
        ((archive X parse).startTracked store) ls := .of_forall fun _ _ _ => trivial
    refine hall.invariant (I := fun t => ∃ phase,
      System.Obeyed (fun c => order (rules c)) .idle t.pool t.calls phase)
      ?_ ?_ hrun
    · rintro t l t' ⟨phase, hobeyed⟩ - hnext
      obtain ⟨p', hp', rfl⟩ := Option.map_eq_some_iff.mp hnext
      obtain ⟨phase', hobeyed', -⟩ := obeyed_calls trivial hobeyed hp'
      exact ⟨phase', hobeyed'⟩
    · exact ⟨fun _ => .idle, fun _ => rfl⟩
  refine ⟨fun i => (t.underway i).elim {} (·.footprint fun _ => True), phase, fun i => ?_,
    fun i => ?_⟩
  · have hslot := hobeyed i
    cases hdone : (t.pool.tasks i).isDone with
    | true =>
      -- a program that has ended follows whatever is asked of it
      cases htask : t.pool.tasks i with
      | done a => rwa [htask] at hslot
      | _ => rw [htask] at hdone; cases hdone
    | false =>
      have hcall : t.underway i = t.calls i := by rw [System.Tracked.underway, hdone]; rfl
      beta_reduce
      rwa [hcall]
  · beta_reduce
    cases hcall : t.underway i with
    | none => exact hidle
    | some c => exact h i c hcall

theorem nodup_run {t : TrackedArchive ι} {ls : List (ArchiveStep ι)}
    {t' : TrackedArchive ι} (hids : (t.pool.store.accounts.map (·.id)).Nodup)
    (hrun : runFrom (archive X parse).nextTracked t ls = some t') :
    (t'.pool.store.accounts.map (·.id)).Nodup := by
  have hall : Along (archive X parse).next (System.CallsWhen fun _ _ _ => True) t.pool ls :=
    .of_forall fun l _ s => by
      cases l with
      | run => exact fun _ _ _ => trivial
      | _ => trivial
  exact System.store_invariant (I := fun s => (s.accounts.map (·.id)).Nodup)
    (fun h _ hexec => nodup_exec h hexec) id hids hall (System.runFrom_pool hrun)

/-- The call that places the hold returns with the hold in the row, when nobody changes the
row of the account meanwhile. -/
theorem onHold_of_returned {i : ι} {ls : List (ArchiveStep ι)}
    (hbounded : Bounded (fun _ => True) (·.KeepsRow accountId) p)
    (hplace : p.tasks i = (archive X parse).program (.placeLegalHold accountId))
    (hls : ∀ l ∈ ls, System.Awaits i l ∧ ∀ c ∈ l.starts?, c.changesRow accountId = false)
    (hrun : runFrom (archive X parse).next p ls = some p')
    (hreturned : p'.tasks i = .done (.ok ())) :
    OnHold p'.store accountId := by
  have hguard : Along (archive X parse).next (fun _ l => System.Awaits i l ∧
      ∀ c ∈ l.starts?, c.changesRow accountId = false) p ls := .of_forall fun l hl _ => hls l hl
  -- along the run the write is still ahead, or the account is on hold
  obtain ⟨-, hpasses | hhold⟩ := hguard.invariant
    (I := fun q => Bounded (fun _ => True) (·.KeepsRow accountId) q ∧
      ((q.tasks i).Passes (PlacesHold accountId) ∨ OnHold q.store accountId))
    (fun {q l q'} ⟨hq, h⟩ hl hnext => by
      obtain ⟨hq', hstore⟩ := hq.next trivial (fun c hc => Call.keepsRow (hl.2 c hc)) hnext
      refine ⟨hq', ?_⟩
      rcases h with h | h
      · exact (System.passes_next h hl.1 hnext).imp_right fun ⟨c, o, hplaces, hexec⟩ =>
          onHold_of_placesHold hplaces hexec
      · refine .inr ?_
        rcases hstore with heq | heq | ⟨c, o, F, hF, hallows, hexec⟩
        · rwa [heq]
        · rwa [heq]
        · exact onHold_exec hallows hexec hF h)
    ⟨hbounded, .inl (hplace ▸ placeLegalHold_passes X parse accountId)⟩ hrun
  · rw [hreturned] at hpasses
    obtain ⟨e, he⟩ := hpasses
    cases he
  · exact hhold

/-- Nobody who sees the account on hold deletes its messages. -/
theorem mem_committed_of_held {d : EnvelopeDoc} {ls : List (ArchiveStep ι)}
    (hbounded : Bounded (Held d.accountId) (·.Spares d.accountId) p)
    (hheld : Held d.accountId p.store) (hd : d ∈ p.store.envelopes.committed)
    (hls : ∀ l ∈ ls, ∀ c ∈ l.starts?, c.ignoresHold d.accountId = false)
    (hrun : runFrom (archive X parse).next p ls = some p') : d ∈ p'.store.envelopes.committed := by
  have hguard : Along (archive X parse).next (fun _ l =>
      ∀ c ∈ l.starts?, c.ignoresHold d.accountId = false) p ls := .of_forall fun l hl _ => hls l hl
  refine (hguard.invariant (I := fun q => Bounded (Held d.accountId) (·.Spares d.accountId) q ∧
    Held d.accountId q.store ∧ d ∈ q.store.envelopes.committed) ?_ ⟨hbounded, hheld, hd⟩ hrun).2.2
  rintro q l q' ⟨hq, hheld, hd⟩ hl hnext
  obtain ⟨hq', hstore⟩ := hq.next hheld (fun c hc => Call.spares_of_held (hl c hc)) hnext
  refine ⟨hq', ?_⟩
  rcases hstore with heq | heq | ⟨c, o, F, hF, hallows, hexec⟩
  · exact heq ▸ ⟨hheld, hd⟩
  · exact heq ▸ ⟨⟨hheld.ids, hheld.hold, nofun⟩, hd⟩
  · exact ⟨hheld.exec hallows hexec hF, mem_committed_exec hd hheld.pending hexec⟩

/-- Let nobody change the row of the account while the hold is placed, and let no call that
concerns the account be under way and no deletion of its messages be left to the index writer
when `place_legal_hold` returns. Then no envelope of the account is removed from the return
on, up to a release or a rebuild of one of its mailboxes. Any other calls, errors, pauses and,
after the return, crashes may happen. -/
theorem hold_keeps_envelopes {store : Stores} {t t₁ : TrackedArchive ι} {p₂ : ArchivePool ι}
    {ls₀ ls₁ ls₂ : List (ArchiveStep ι)} {i : ι} (hids : (store.accounts.map (·.id)).Nodup)
    (hrun₀ : runFrom (archive X parse).nextTracked ((archive X parse).startTracked store) ls₀ =
      some t)
    (hrow : ∀ j, ∀ c ∈ t.underway j, c.changesRow accountId = false)
    (hrun₁ : runFrom (archive X parse).nextTracked t
      (.spawn i (.placeLegalHold accountId) :: ls₁) = some t₁)
    (hls₁ : ∀ l ∈ ls₁, System.Awaits i l ∧ ∀ c ∈ l.starts?, c.changesRow accountId = false)
    (hreturned : t₁.pool.tasks i = .done (.ok ()))
    (hunderway : ∀ j, ∀ c ∈ t₁.underway j, c.concerns accountId = false)
    (hpending : ∀ op ∈ t₁.pool.store.envelopes.pending, ∀ q ∈ op.deleted?,
      q.accountId ≠ accountId)
    (hrun₂ : runFrom (archive X parse).next t₁.pool ls₂ = some p₂)
    (hls₂ : ∀ l ∈ ls₂, ∀ c ∈ l.starts?, c.ignoresHold accountId = false) :
    ∀ d ∈ t₁.pool.store.envelopes.committed, d.accountId = accountId →
      d ∈ p₂.store.envelopes.committed := by
  rintro d hd rfl
  have hrun : runFrom (archive X parse).nextTracked ((archive X parse).startTracked store)
      (ls₀ ++ .spawn i (.placeLegalHold d.accountId) :: ls₁) = some t₁ := by
    rw [runFrom_append, hrun₀]
    exact hrun₁
  have hhold : OnHold t₁.pool.store d.accountId := by
    obtain ⟨u, hu, hrest⟩ := Option.bind_eq_some_iff.mp hrun₁
    obtain ⟨p, hp, rfl⟩ := Option.map_eq_some_iff.mp hu
    have hbounded := (bounded_of_underway hrun₀ (P := (·.KeepsRow d.accountId))
      ⟨fun _ => False.elim, id⟩ fun j c hc => Call.keepsRow (hrow j c hc)).next trivial
        (fun c hc => by cases hc; exact Call.keepsRow rfl) hp
    refine onHold_of_returned hbounded.1 ?_ hls₁ (System.runFrom_pool hrest) hreturned
    cases System.stepped_of_next hp
    exact Function.update_self ..
  have hbounded := bounded_of_underway hrun (P := (·.Spares d.accountId))
    ⟨⟨fun _ => False.elim, id⟩, id⟩ fun j c hc => Call.spares_of_not_concerns (hunderway j c hc)
  exact mem_committed_of_held (hbounded.restrict fun _ _ => trivial)
    ⟨nodup_run hids hrun, hhold, hpending⟩ hd hls₂ hrun₂

end

abbrev placeHold : List (ArchiveStep Bool) := .spawn true (.placeLegalHold 1) :: runs true 4

/-- A deletion of the message and a sweep after the hold. -/
def deleteAfterHold : List (ArchiveStep Bool) :=
  .spawn false (.deleteMessages [(1, ["m"])]) :: runs false 1 ++
    .spawn false (.retentionSweep 0) :: runs false 2 ++ [.crash]

def holdAndIds (q : ArchivePool Bool) : Option (Bool × List String) :=
  match q.tasks true, q.tasks false with
  | .done (.ok _), .done _ =>
    some ((q.store.account 1).any (·.isOnHold), q.store.envelopes.committed.map (·.id))
  | _, _ => none

theorem returned_of_holdAndIds {q : ArchivePool Bool} (h : (holdAndIds q).isSome = true) :
    q.tasks true = .done (.ok ()) ∧ (q.tasks false).isDone = true := by
  rw [holdAndIds] at h
  split at h
  next hok hdone => exact ⟨hok, by rw [hdone]; rfl⟩
  next => cases h

theorem hold_keeps_envelopes_sample :
    ∃ t₁ p₂, runFrom sampleArchive.nextTracked (sampleArchive.startTracked oneMessage) placeHold =
        some t₁ ∧
      runFrom sampleArchive.next t₁.pool deleteAfterHold = some p₂ ∧
      t₁.pool.store.envelopes.committed.length = 1 ∧
      ∀ d ∈ t₁.pool.store.envelopes.committed, d.accountId = 1 →
        d ∈ p₂.store.envelopes.committed := by
  obtain ⟨t₁, hrun₁, hreturned, hone, hpending, p₂, hrun₂, -⟩ :
      ∃ t ∈ runFrom sampleArchive.nextTracked (sampleArchive.startTracked oneMessage) placeHold,
        (holdAndIds t.pool).isSome = true ∧ t.pool.store.envelopes.committed.length = 1 ∧
        t.pool.store.envelopes.pending = [] ∧
        ∃ p ∈ runFrom sampleArchive.next t.pool deleteAfterHold, True := by decide +kernel
  obtain ⟨hok, hdone⟩ := returned_of_holdAndIds hreturned
  refine ⟨t₁, p₂, hrun₁, hrun₂, hone, ?_⟩
  have hstart : runFrom sampleArchive.nextTracked
      (sampleArchive.startTracked oneMessage : TrackedArchive Bool) [] =
        some (sampleArchive.startTracked oneMessage) := rfl
  refine hold_keeps_envelopes (by decide) hstart (fun _ => nofun) hrun₁ (by decide) hok ?_
    (hpending ▸ nofun) hrun₂ (by decide)
  intro j c hc
  have hended : (t₁.pool.tasks j).isDone = true := by
    cases j
    · exact hdone
    · rw [hok]; rfl
  rw [System.mem_underway, hended] at hc
  cases hc.1

/-- A deletion of messages that has looked at the account just before the hold was placed
goes on after it, and a rebuild that starts after it does not look at all. Both remove the
message. -/
theorem hold_is_violated :
    (runFrom sampleArchive.next (sampleArchive.start oneMessage)
        (.spawn false (.deleteMessages [(1, ["m"])]) :: runs false 1 ++ placeHold)).map
          (·.store.envelopes.committed.map (·.id)) = some ["m"] ∧
    (runFrom sampleArchive.next (sampleArchive.start oneMessage)
        (.spawn false (.deleteMessages [(1, ["m"])]) :: runs false 1 ++ placeHold ++
          runs false 18)).bind holdAndIds = some (true, []) ∧
      (runFrom sampleArchive.next (sampleArchive.start oneMessage)
        (placeHold ++ .spawn false (.rebuildMailbox 1 2) :: runs false 18)).bind holdAndIds =
          some (true, []) := by
  refine ⟨?_, ?_, ?_⟩ <;> decide +kernel

end Bichon.Archive
