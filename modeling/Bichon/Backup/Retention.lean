import Bichon.Backup.Manifest
import Bichon.Lib.Buckets
import Bichon.Lib.Lists

/-!
# Which restore points are kept

The newest `keepLast` restore points are kept, and of the others the newest one of
each day, week and month, as far as the budget of each period goes. The calendar,
which reads the day off a creation time and knows the week and the month of a day,
is a parameter.

`mem_selectManifests` describes the selection by what is newer than a restore point,
and `Selected.of_sublist` says that a restore point that is kept stays kept when
others are missing from the list.
-/

namespace Bichon.Backup

open Buckets List Lists

structure RetentionPolicy where
  keepLast : Nat := 7
  keepDaily : Nat := 7
  keepWeekly : Nat := 4
  keepMonthly : Nat := 6
deriving DecidableEq, Repr

inductive Period where
  | daily
  | weekly
  | monthly
deriving DecidableEq, Repr

structure Calendar where
  /-- the day of a creation time in UTC, nothing when the text is not a date -/
  day : String → Option String
  /-- the ISO week of a day -/
  week : String → String
  month : String → String

/-- The bucket of a creation time. -/
def Calendar.bucket (calendar : Calendar) : Period → String → Option String
  | .daily, created => calendar.day created
  | .weekly, created => (calendar.day created).map calendar.week
  | .monthly, created => (calendar.day created).map calendar.month

namespace RetentionPolicy

def keep (policy : RetentionPolicy) : Period → Nat
  | .daily => policy.keepDaily
  | .weekly => policy.keepWeekly
  | .monthly => policy.keepMonthly

/-- A policy that keeps nothing is made to keep the newest one. -/
def effective (policy : RetentionPolicy) : RetentionPolicy :=
  if policy.keepLast = 0 ∧ policy.keepDaily = 0 ∧ policy.keepWeekly = 0 ∧
      policy.keepMonthly = 0 then
    { policy with keepLast := 1 }
  else policy

end RetentionPolicy

def selectPeriod (calendar : Calendar) (manifests : List Manifest) (keep : Nat)
    (period : Period) : List Manifest :=
  firstPerBucket keep (fun m => calendar.bucket period m.created) manifests

/-- The ids to keep, from the manifests in the order from new to old. -/
def selectManifests (calendar : Calendar) (manifests : List Manifest)
    (policy : RetentionPolicy) : List String :=
  let rest := manifests.drop (min policy.keepLast manifests.length)
  let kept := manifests.take policy.keepLast ++
    selectPeriod calendar rest policy.keepDaily .daily ++
    selectPeriod calendar rest policy.keepWeekly .weekly ++
    selectPeriod calendar rest policy.keepMonthly .monthly
  kept.map Manifest.id

/-- The manifest is kept because of its place, or as the newest of its bucket among
those that are not kept for their place. -/
def Selected (calendar : Calendar) (policy : RetentionPolicy) (manifests : List Manifest)
    (m : Manifest) : Prop :=
  ∃ newer older, manifests = newer ++ m :: older ∧
    (newer.length < policy.keepLast ∨
      policy.keepLast ≤ newer.length ∧ ∃ period,
        Leads (policy.keep period) (fun m => calendar.bucket period m.created)
          (newer.drop policy.keepLast) m)

variable {calendar : Calendar} {manifests : List Manifest} {policy : RetentionPolicy}

theorem mem_selectManifests {id : String} :
    id ∈ selectManifests calendar manifests policy ↔
      ∃ m, Selected calendar policy manifests m ∧ m.id = id := by
  have hperiod (period : Period) (m : Manifest) :
      m ∈ selectPeriod calendar (manifests.drop policy.keepLast) (policy.keep period) period ↔
        ∃ newer older, manifests = newer ++ m :: older ∧ policy.keepLast ≤ newer.length ∧
          Leads (policy.keep period) (fun m => calendar.bucket period m.created)
            (newer.drop policy.keepLast) m := by
    rw [selectPeriod, mem_firstPerBucket, exists_split_drop]
  rw [selectManifests, ← drop_eq_drop_min, mem_map]
  refine exists_congr fun m => and_congr_left' ?_
  have hdaily := hperiod .daily m
  have hweekly := hperiod .weekly m
  have hmonthly := hperiod .monthly m
  simp only [RetentionPolicy.keep] at hdaily hweekly hmonthly
  simp only [mem_append, mem_take_iff_split, hdaily, hweekly, hmonthly]
  constructor
  · rintro (((⟨newer, older, hsplit, h⟩ | ⟨newer, older, hsplit, h⟩) |
      ⟨newer, older, hsplit, h⟩) | ⟨newer, older, hsplit, h⟩)
    · exact ⟨newer, older, hsplit, .inl h⟩
    · exact ⟨newer, older, hsplit, .inr ⟨h.1, .daily, h.2⟩⟩
    · exact ⟨newer, older, hsplit, .inr ⟨h.1, .weekly, h.2⟩⟩
    · exact ⟨newer, older, hsplit, .inr ⟨h.1, .monthly, h.2⟩⟩
  · rintro ⟨newer, older, hsplit, h | ⟨hlen, period, h⟩⟩
    · exact .inl (.inl (.inl ⟨newer, older, hsplit, h⟩))
    · cases period with
      | daily => exact .inl (.inl (.inr ⟨newer, older, hsplit, hlen, h⟩))
      | weekly => exact .inl (.inr ⟨newer, older, hsplit, hlen, h⟩)
      | monthly => exact .inr ⟨newer, older, hsplit, hlen, h⟩

theorem Selected.mem {m : Manifest} (h : Selected calendar policy manifests m) : m ∈ manifests := by
  obtain ⟨newer, older, rfl, -⟩ := h
  simp

theorem Selected.of_sublist
    {fewer : List Manifest} {m : Manifest} (h : Selected calendar policy manifests m)
    (hsub : fewer.Sublist manifests) (hm : m ∈ fewer) (hnodup : manifests.Nodup) :
    Selected calendar policy fewer m := by
  obtain ⟨newer, older, rfl, h⟩ := h
  obtain ⟨newer', older', rfl, hnewer⟩ := sublist_split hsub hm hnodup
  refine ⟨newer', older', rfl, ?_⟩
  rcases Nat.lt_or_ge newer'.length policy.keepLast with hlt | hge
  · exact .inl hlt
  · rcases h with hlt | ⟨-, period, hlead⟩
    · have := hnewer.length_le
      omega
    · exact .inr ⟨hge, period, hlead.of_subset (hnewer.drop _).subset⟩

/-- A policy that is raised gives up no restore point. -/
theorem selectManifests_raised (extra : RetentionPolicy) :
    selectManifests calendar manifests policy ⊆ selectManifests calendar manifests
      ⟨policy.keepLast + extra.keepLast, policy.keepDaily + extra.keepDaily,
        policy.keepWeekly + extra.keepWeekly, policy.keepMonthly + extra.keepMonthly⟩ := by
  intro id hid
  obtain ⟨m, ⟨newer, older, hsplit, h⟩, rfl⟩ := mem_selectManifests.mp hid
  refine mem_selectManifests.mpr ⟨m, ⟨newer, older, hsplit, ?_⟩, rfl⟩
  rcases Nat.lt_or_ge newer.length (policy.keepLast + extra.keepLast) with hlt | hge
  · exact .inl hlt
  · rcases h with hlt | ⟨-, period, hlead⟩
    · omega
    · obtain ⟨bucket, hbucket, hnew, hcard⟩ :=
        hlead.of_subset (drop_sublist_drop_left newer (Nat.le_add_right ..)).subset
      refine .inr ⟨hge, period, bucket, hbucket, hnew, hcard.trans_le ?_⟩
      cases period <;> exact Nat.le_add_right ..

end Bichon.Backup
