import Bichon.Imap.Session

/-!
# The floor of a full download

A full download asks the server for the messages since the day of the cutoff only. The server
compares days by the zone in which a message was received, and the day of the cutoff is one
of UTC.
-/

namespace Bichon.Imap

open Account Archive

/-- How far the clock of a zone is ahead of UTC, in milliseconds. -/
structure Zone where
  offset : Int
  west : -12 * 60 * 60 * 1000 ≤ offset
  east : offset ≤ 14 * 60 * 60 * 1000

structure InternalDate where
  instant : Int
  zone : Zone

/-- The date that is written in it, whatever the time and the zone. -/
def InternalDate.date (d : InternalDate) : Date := dayOf (d.instant + d.zone.offset)

/-- `SINCE` finds the message. -/
def InternalDate.since (d : InternalDate) (floor : Date) : Bool := floor ≤ d.date

theorem dayOf_lt_dayOf_iff (t c : Int) : dayOf t < dayOf c ↔ t < c - c % dayMs := by
  change (t / dayMs : Int) < c / dayMs ↔ _
  rw [dayMs]
  omega

theorem since_dayOf_eq_false_iff (d : InternalDate) (c : Int) :
    d.since (dayOf c) = false ↔ d.instant < c - c % dayMs - d.zone.offset := by
  rw [InternalDate.since, decide_eq_false_iff_not, not_le, InternalDate.date, dayOf_lt_dayOf_iff]
  omega

theorem eq_dayOf_of_floorAt {account : AccountModel} {now : Int} {floor : Date}
    (h : floorAt account now = some floor) :
    floor = dayOf (retentionCutoffMs now account.retentionDaysEffective) := by
  rw [floorAt, fromTimestampMillis] at h
  split_ifs at h
  exact (Option.some.inj h).symm

/-- A full download leaves out only what is older than the window, at whatever instant it
was received, exactly when there is no floor or the zone is not further behind UTC than the
time of day of the cutoff. -/
theorem floor_is_conservative_iff (account : AccountModel) (now : Int) (zone : Zone) :
    let cutoff := retentionCutoffMs now account.retentionDaysEffective
    (∀ floor ∈ floorAt account now, ∀ instant,
        InternalDate.since ⟨instant, zone⟩ floor = false → instant < cutoff) ↔
      (floorAt account now = none ∨ -zone.offset ≤ cutoff % dayMs) := by
  intro cutoff
  cases hfloor : floorAt account now with
  | none => simp
  | some floor =>
    obtain rfl : floor = dayOf cutoff := eq_dayOf_of_floorAt hfloor
    simp only [Option.mem_some, forall_eq', since_dayOf_eq_false_iff, reduceCtorEq, false_or]
    constructor
    · intro h
      -- the cutoff itself is the first instant inside the window
      by_contra hlt
      exact lt_irrefl cutoff (h cutoff (by omega))
    · intro h instant hinstant
      omega

/-- Thirty days before 15 November 2023, 02:13 UTC. A message received half an hour after
the cutoff, in the evening of the day before by its own zone, is left out. -/
theorem evening_message_left_out :
    let now := 1700014400000
    let zone : Zone := ⟨-8 * 60 * 60 * 1000, by decide, by decide⟩
    let message : InternalDate := ⟨now - 30 * dayMs + 30 * 60 * 1000, zone⟩
    ∃ floor ∈ floorAt { id := 1, accountType := .imap, retentionDays := some 30 } now,
      message.since floor = false ∧ retentionCutoffMs now 30 ≤ message.instant := by
  exact ⟨19646, by decide, by decide, by decide⟩

end Bichon.Imap
