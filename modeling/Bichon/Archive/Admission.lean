import Bichon.Archive.Protocol

/-!
# Deletions next to a backup

The deletions ask the write gate several times: once for every row of the database and
once for every index, some of them while an earlier admission is still held. A backup
pauses the gate and waits until no admission is held, so an operation that holds one and
asks for another waits for a gate that waits for the operation, until its own timeout.

An admission is `acquire` or `check`; an `acquire` can also wait for the gate to open,
which is the step made later.
-/

namespace Bichon.Archive

open Account Gated Transition Prog

open Database (busy)

/-- The operations whose parts ask the gate one by one. -/
inductive GatedOp
  | accountEnvelopes (accountId : Nat)
  | messages (request : Request)
  | mailbox (accountId mailboxId : Nat)
  | account (accountId : Nat)
  | accountCleanup (row : AccountModel)

def GatedOp.op : GatedOp → Op Unit
  | .accountEnvelopes accountId => deleteAccountEnvelopes accountId
  | .messages request => deleteMessagesImpl request
  | .mailbox accountId mailboxId => deleteMailboxImpl accountId mailboxId
  | .account accountId => deleteAndWait accountId
  | .accountCleanup row => cleanupAccountResourcesSequential row

/-- Everything is allowed. -/
def Footprint.any : Footprint :=
  ⟨fun _ => True, fun _ => True, fun _ => True, fun _ => True, fun _ _ => True⟩

theorem GatedOp.uses (o : GatedOp) : o.op.run.Uses True False := by
  have horderly : Orderly ⟨fun _ => True, .any, False⟩ .idle o.op := by
    cases o with
    | accountEnvelopes accountId => exact orderly_deleteAccountEnvelopes trivial
    | messages request => exact orderly_deleteMessagesImpl fun _ _ _ => trivial
    | mailbox accountId mailboxId =>
      exact orderly_deleteMailboxImpl (fun _ => trivial) fun _ _ => trivial
    | account accountId =>
      exact orderly_deleteAndWait (fun _ => trivial) (fun _ _ _ _ _ _ _ => trivial)
        (fun _ _ => trivial) fun _ => trivial
    | accountCleanup row => exact orderly_cleanup trivial (fun _ _ => trivial) trivial
  exact (horderly .idle rfl).uses fun _ => trivial

section

variable {α : Type}

theorem refuses_read (f : Stores → α) :
    (Prog.read f : Op α).run.RefusesWith (.error busy) := fun _ => trivial

theorem refuses_admitted (body : Op α) :
    (Prog.admitted busy body).run.RefusesWith (.error busy) := rfl

theorem refuses_ite {c : Prop} [Decidable c] {p q : Op α} (hp : p.run.RefusesWith (.error busy))
    (hq : q.run.RefusesWith (.error busy)) :
    (if c then p else q).run.RefusesWith (.error busy) := by
  split
  · exact hp
  · exact hq

theorem refuses_getAccount (id : Nat) : (getAccount id).run.RefusesWith (.error busy) :=
  RefusesWith.bindE (refuses_read _) fun
    | some _ => trivial
    | none => trivial

theorem refuses_getMailBox (id : Nat) : (getMailBox id).run.RefusesWith (.error busy) :=
  RefusesWith.bindE (refuses_read _) fun
    | some _ => trivial
    | none => trivial

theorem refuses_ensureDeletable (row : AccountModel) :
    (ensureDeletable row).run.RefusesWith (.error busy) :=
  refuses_ite trivial <| refuses_ite trivial <| RefusesWith.bindE (refuses_read _) fun _ =>
    refuses_ite trivial trivial

theorem refuses_deleteMessagesImpl (request : Request) :
    (deleteMessagesImpl request).run.RefusesWith (.error busy) := by
  refine RefusesWith.bindE (RefusesWith.each fun accountId => ?_) fun _ => ?_
  · exact RefusesWith.bindE (refuses_getAccount _) fun _ => refuses_ite trivial trivial
  · exact RefusesWith.bindE (refuses_ite trivial (refuses_admitted _)) fun _ =>
      refuses_ite trivial (refuses_admitted _)

theorem refuses_deleteMailboxImpl (accountId mailboxId : Nat) :
    (deleteMailboxImpl accountId mailboxId).run.RefusesWith (.error busy) := by
  refine RefusesWith.bindE (refuses_getAccount _) fun account => ?_
  refine refuses_ite trivial (RefusesWith.bindE (RefusesWith.bindE
    (refuses_getMailBox _) fun _ => refuses_read _) fun ids => refuses_ite trivial ?_)
  exact RefusesWith.bindE (RefusesWith.each fun _ => refuses_admitted _) fun _ =>
    RefusesWith.bindE (refuses_ite trivial (refuses_admitted _)) fun _ =>
      refuses_ite trivial (refuses_admitted _)

theorem refuses_deleteIfFound (collection : String) (id : Nat) (found : Stores → Bool)
    (c : Command) :
    (do if ← Prog.read found then deleteImpl collection id found c : Op Unit).run.RefusesWith
      (.error busy) :=
  RefusesWith.bindE (refuses_read _) fun _ => refuses_ite (refuses_admitted _) trivial

theorem refuses_cleanupCommon (accountId : Nat) :
    (cleanupCommon accountId).run.RefusesWith (.error busy) := by
  refine RefusesWith.bindE (refuses_deleteIfFound _ _ _ _) fun _ => ?_
  have husers : (cleanupUsers accountId).run.RefusesWith (.error busy) :=
    RefusesWith.bindE (refuses_read _) fun _ => RefusesWith.each fun _ =>
      RefusesWith.bindE (refuses_admitted _) fun _ => trivial
  have hclean : (cleanMailBoxes accountId).run.RefusesWith (.error busy) :=
    RefusesWith.bindE (refuses_read _) fun _ => refuses_ite trivial (refuses_admitted _)
  exact RefusesWith.bindE husers fun _ => RefusesWith.bindE hclean fun _ =>
    RefusesWith.bindE (refuses_admitted _) fun _ =>
      RefusesWith.bindE (refuses_admitted _) fun _ => refuses_admitted _

theorem refuses_cleanup (row : AccountModel) :
    (cleanupAccountResourcesSequential row).run.RefusesWith (.error busy) :=
  refuses_ite (RefusesWith.bindE (refuses_deleteIfFound _ _ _ _) fun _ =>
    refuses_cleanupCommon _) (refuses_cleanupCommon _)

theorem refuses_deleteAndWait (accountId : Nat) :
    (deleteAndWait accountId).run.RefusesWith (.error busy) :=
  RefusesWith.bindE (refuses_getAccount _) fun row =>
    RefusesWith.bindE (refuses_ensureDeletable row) fun _ => rfl

theorem GatedOp.refuses (o : GatedOp) : Prog.RefusesWith (Except.error busy) o.op.run := by
  cases o with
  | accountEnvelopes accountId => exact refuses_admitted _
  | messages request => exact refuses_deleteMessagesImpl request
  | mailbox accountId mailboxId => exact refuses_deleteMailboxImpl accountId mailboxId
  | account accountId => exact refuses_deleteAndWait accountId
  | accountCleanup row => exact refuses_cleanup row

end

/-- An operation next to a backup that pauses the gate only before the first admission of
the operation, or when it has none ahead. An admission of the operation is only refused
when it is the first one. When the operation ends, it was refused and has changed no
store, or it has done all it does without a backup. -/
theorem deletion_all_or_nothing (o : GatedOp) (gate : Gate) (s₀ : Stores) (ls : List SoloStep)
    {t : Solo Command (Option BichonError) Stores (Except BichonError Unit)}
    (hpaused : Along (Solo.next exec none) Solo.PausedOutside (.start gate s₀ o.op.run) ls)
    (hrun : runFrom (Solo.next exec none) (.start gate s₀ o.op.run) ls = some t) :
    (t.refused = true → t.admitted = false) ∧
      ∀ r : Except BichonError Unit, t.prog = .done r → (r = .error busy ∧ t.store = s₀) ∨
        o.op.run.alone exec none s₀ = some (t.store, r) :=
  Solo.refused_or_as_alone o.uses o.refuses hpaused hrun

/-- The error of a program that has ended, if it ended with one. -/
def outcome? : Prog Command (Option BichonError) Stores (Except BichonError Unit) →
    Option (Option BichonError)
  | .done (.ok _) => some none
  | .done (.error e) => some (some e)
  | _ => none

/-- The gate is paused and opened again before the operation starts, which then runs to
its end. -/
def backupBefore : List SoloStep := [.pause, .resume] ++ List.replicate 18 .run

theorem deletion_all_or_nothing_sample :
    ∃ t, runFrom (Solo.next exec none)
        (.start ⟨false, 0⟩ oneMessage (GatedOp.accountEnvelopes 1).op.run) backupBefore = some t ∧
      outcome? t.prog = some none ∧ t.store.attachments.committed = [] ∧
      (t.refused = true → t.admitted = false) := by
  obtain ⟨t, hrun, houtcome, hcommitted⟩ : ∃ t ∈ runFrom (Solo.next exec none)
      (.start ⟨false, 0⟩ oneMessage (GatedOp.accountEnvelopes 1).op.run) backupBefore,
      outcome? t.prog = some none ∧ t.store.attachments.committed = [] := by decide +kernel
  have hpaused : Along (Solo.next exec none) Solo.PausedOutside
      (.start ⟨false, 0⟩ oneMessage (GatedOp.accountEnvelopes 1).op.run) backupBefore :=
    ⟨.inl rfl, fun _ _ => Solo.along_of_not_pause (by decide)⟩
  exact ⟨t, hrun, houtcome, hcommitted, (deletion_all_or_nothing _ _ _ _ hpaused hrun).1⟩

/-- The backup pauses the gate while the deletion of the envelopes of an account holds its
admission. The envelope is deleted, then the attachments ask for an admission of their own,
which is refused at the timeout since the backup waits for the first one. The operation
fails; the attachment, the blob and the entry of the cache stay. -/
theorem nested_admission_leaves_half_deleted :
    (runFrom (Solo.next exec none)
        (.start ⟨false, 0⟩ oneMessage (GatedOp.accountEnvelopes 1).op.run)
        [.run, .pause, .run, .run, .run, .run, .refuse, .run, .run]).map
      (fun t => (outcome? t.prog, t.admitted, t.store)) =
        some (some (some busy), true,
          { oneMessage with envelopes := { committed := [] } }) ∧
      ((GatedOp.accountEnvelopes 1).op.run.alone exec none oneMessage).map (·.1) =
        some { oneMessage with
          envelopes := { committed := [] }, attachments := { committed := [] },
          blobs := {}, dedup := [], leaves := [⟨"m", "h"⟩] } := by
  constructor <;> decide +kernel

end Bichon.Archive
