import Bichon.Archive.Ingest

/-!
# The retention window

The sweep deletes what its query matches, and the extractor refuses what is older than the
window. The two read the dates of a message in different ways.
-/

namespace Bichon.Archive

open Account

theorem effectiveDateMs_lt_iff (cutoffMs date internalDate : Int) :
    (effectiveDateMs date internalDate).any (· < cutoffMs) = true ↔
      (date ≠ 0 ∧ date < cutoffMs) ∨ (internalDate ≠ 0 ∧ internalDate < cutoffMs) := by
  rw [effectiveDateMs]
  split_ifs
  · simp [*]
  all_goals
    simp only [Option.any_some, decide_eq_true_eq]
    omega

theorem outOfWindow_iff (cutoffMs date : Int) :
    outOfWindow cutoffMs date = true ↔ 0 < date ∧ date < cutoffMs := by
  simp [outOfWindow]

/-- The extractor refuses the message when the sweep would delete its envelope. A date
before 1970 counts for the extractor alone. -/
theorem floor_agrees_with_sweep_iff (account : AccountModel) (now : Int) (delivery : Delivery)
    (fresh : Fresh) (message : Message) (hash : String) (infos : List Envelope.AttachmentInfo)
    (hdays : 0 < account.retentionDaysEffective) (hhold : account.isOnHold = false) :
    let cutoff := retentionCutoffMs now account.retentionDaysEffective
    let date := message.date
    let internalDate := if delivery.internalDate = 0 then date else delivery.internalDate
    (belowRetentionFloor (some account) now date internalDate =
        (envelopeDoc delivery fresh message hash internalDate infos).matches
          (.before delivery.accountId cutoff)) ↔
      ((date < 0 ∧ date < cutoff) ∨ (internalDate < 0 ∧ internalDate < cutoff) →
        (0 < date ∧ date < cutoff) ∨ (0 < internalDate ∧ internalDate < cutoff)) := by
  intro cutoff date internalDate
  have hfloor : belowRetentionFloor (some account) now date internalDate =
      (effectiveDateMs date internalDate).any (· < cutoff) := by
    simp [belowRetentionFloor, hdays, hhold, cutoff]
  have hquery : (envelopeDoc delivery fresh message hash internalDate infos).matches
      (.before delivery.accountId cutoff) =
        (outOfWindow cutoff date || outOfWindow cutoff internalDate) := by
    simp [EnvelopeDoc.matches, envelopeDoc, date]
  rw [hfloor, hquery, Bool.eq_iff_iff, effectiveDateMs_lt_iff, Bool.or_eq_true, outOfWindow_iff,
    outOfWindow_iff]
  omega

def monthAccount : AccountModel := { id := 1, accountType := .imap, retentionDays := some 30 }

def sampleDelivery : Delivery := { body := [], size := 0, accountId := 1, mailboxId := 2 }

def sampleFresh : Fresh := ⟨"m", fun _ => "", 0⟩

theorem floor_agrees_with_sweep_recent :
    let now := 1700000000000
    let message : Message := { attachments := [], date := 1600000000000 }
    belowRetentionFloor (some monthAccount) now message.date message.date =
      (envelopeDoc sampleDelivery sampleFresh message "h" message.date []).matches
        (.before 1 (retentionCutoffMs now 30)) :=
  (floor_agrees_with_sweep_iff monthAccount 1700000000000 sampleDelivery sampleFresh
    { attachments := [], date := 1600000000000 } "h" [] (by decide) rfl).mpr (by decide)

/-- A message of December 1969 is refused, and its envelope would never be deleted. -/
theorem message_of_1969_only_refused :
    let now := 1700000000000
    let message : Message := { attachments := [], date := -1000 }
    belowRetentionFloor (some monthAccount) now message.date message.date = true ∧
      (envelopeDoc sampleDelivery sampleFresh message "h" message.date []).matches
        (.before 1 (retentionCutoffMs now 30)) = false := by
  decide

end Bichon.Archive
