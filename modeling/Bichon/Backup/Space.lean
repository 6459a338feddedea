import Bichon.Lib.Binary64
import Bichon.Lib.Lists
import Bichon.Lib.PathName
import Bichon.Lib.U64
import Bichon.Backup.Manifest
import Mathlib.Data.List.MinMax

/-!
# The free space of a restore target

`available_space_on` takes the first disk whose mount point is a prefix of the directory.
Mount points nest and the list has no order, so this may be another file system than the
one of the directory, which is on the disk with the longest such mount point.

The disks, what `canonicalize` finds and how a path is displayed are given from outside.
-/

namespace Bichon.Backup

open PathName U64 Lists

structure Disk where
  mountPoint : Path
  availableSpace : Nat
  deriving DecidableEq

def Disk.holds (dir : Path) (d : Disk) : Bool :=
  d.mountPoint.drive == dir.drive && d.mountPoint.rooted == dir.rooted &&
    d.mountPoint.parts.isPrefixOf dir.parts

structure RestoreTargets where
  root : Path
  index : Path
  data : Path

def RestoreTargets.dirs (t : RestoreTargets) : List Path := [t.root, t.data, t.index]

def diskSafetyFactor : ℚ := Binary64.round (6 / 5)

/-- `(needed as f64 * DISK_SAFETY_FACTOR) as u64`. -/
def requiredSpace (needed : Nat) : Nat :=
  min (2 ^ 64 - 1) ⌊Binary64.round (Binary64.round needed * diskSafetyFactor)⌋₊

section

variable (canonicalize : Path → Option Path) (display : Path → String) (disks : List Disk)

def canonical (dir : Path) : Path := (canonicalize dir).getD dir

def availableSpaceOn (dir : Path) : Nat :=
  ((disks.find? (Disk.holds (canonical canonicalize dir))).map (·.availableSpace)).getD (2 ^ 64 - 1)

def checkFreeSpaceAgainst (caller name : String) (dir : Path) (needed free : Nat) :
    Except String Unit :=
  if free < requiredSpace needed then
    .error (caller ++ ": insufficient free space on the " ++ name ++ " target " ++ display dir ++
      ": " ++ toString (requiredSpace needed) ++ " bytes required (with safety buffer), " ++
      toString free ++ " bytes available")
  else .ok ()

def checkFreeSpace (caller name : String) (dir : Path) (needed : Nat) : Except String Unit :=
  if needed = 0 then .ok ()
  else checkFreeSpaceAgainst display caller name dir needed
    (availableSpaceOn canonicalize disks dir)

def auditNeeded (build : Build) (a : AuditObjects) : Option Nat := do
  add build a.base.bytes (← U64.sum build (a.deltas.map (·.obj.bytes)))

/-- The bytes of an object that may not be there. -/
def slotBytes (slot : Option ObjectRef) : Nat := slot.elim 0 (·.bytes)

/-- What each of the three targets takes, in `u64`; nothing when the build panics. -/
def Manifest.needed (build : Build) (m : Manifest) (targets : RestoreTargets) :
    Option (List (String × Path × Nat)) := do
  let audit ← m.objects.audit.elim (some 0) (auditNeeded build)
  let rootNeeded ← U64.sum build [slotBytes m.objects.memdb, slotBytes m.objects.imapUid,
    slotBytes m.objects.integrity, slotBytes m.objects.timestamp, audit]
  let dataNeeded ← U64.sum build (m.objects.blobSegments.map (·.obj.bytes))
  let indexNeeded ← U64.sum build (m.objects.tantivy.map (·.obj.bytes))
  return [("root", targets.root, rootNeeded), ("blob data", targets.data, dataNeeded),
    ("index", targets.index, indexNeeded)]

def assertSufficientSpace (build : Build) (targets : RestoreTargets) (m : Manifest) :
    Option (Except String Unit) :=
  (m.needed build targets).map fun needed =>
    forM needed fun (name, dir, needed) =>
      checkFreeSpace canonicalize display disks "restore" name dir needed

def AuditObjects.bytes (a : AuditObjects) : Nat := a.base.bytes + (a.deltas.map (·.obj.bytes)).sum

/-- The bytes of the objects that go to each of the three targets. -/
def Manifest.needs (m : Manifest) (targets : RestoreTargets) : List (String × Path × Nat) :=
  [("root", targets.root, slotBytes m.objects.memdb + slotBytes m.objects.imapUid +
      slotBytes m.objects.integrity + slotBytes m.objects.timestamp +
      m.objects.audit.elim 0 AuditObjects.bytes),
    ("blob data", targets.data, (m.objects.blobSegments.map (·.obj.bytes)).sum),
    ("index", targets.index, (m.objects.tantivy.map (·.obj.bytes)).sum)]

/-- The bytes for a target are fewer than `2 ^ 64`. -/
abbrev Manifest.Countable (m : Manifest) (targets : RestoreTargets) : Prop :=
  ∀ need ∈ m.needs targets, need.2.2 < 2 ^ 64

/-- The disk of the directory: of the mount points above it, the longest one counts. -/
def fileSystemOf (dir : Path) : Option Disk :=
  (disks.filter (Disk.holds (canonical canonicalize dir))).argmax (·.mountPoint.parts.length)

/-- What has to go to a target fits on its own file system. -/
abbrev Fits (targets : RestoreTargets) (m : Manifest) : Prop :=
  ∀ need ∈ m.needs targets, need.2.2 = 0 ∨
    ∀ d ∈ fileSystemOf canonicalize disks need.2.1, requiredSpace need.2.2 ≤ d.availableSpace

/-- The first disk of the list that holds the directory is its own, or has the same space. -/
abbrev OwnFirst (dir : Path) : Prop :=
  (disks.find? (Disk.holds (canonical canonicalize dir))).map (·.availableSpace) =
    (fileSystemOf canonicalize disks dir).map (·.availableSpace)

end

section

variable {canonicalize : Path → Option Path} {display : Path → String} {disks : List Disk}
  {dir : Path}

theorem auditNeeded_eq {a : AuditObjects} (h : a.bytes < 2 ^ 64) (build : Build) :
    auditNeeded build a = some a.bytes := by
  have hdeltas : (a.deltas.map (·.obj.bytes)).sum < 2 ^ 64 :=
    Nat.lt_of_le_of_lt (Nat.le_add_left ..) h
  rw [auditNeeded, sum_of_lt hdeltas]
  exact fit_of_lt h build

theorem Manifest.needed_eq {m : Manifest} {targets : RestoreTargets} (h : m.Countable targets)
    (build : Build) : m.needed build targets = some (m.needs targets) := by
  simp only [Manifest.Countable, needs, List.forall_mem_cons] at h
  obtain ⟨hroot, hdata, hindex, -⟩ := h
  have haudit : m.objects.audit.elim (some 0) (auditNeeded build) =
      some (m.objects.audit.elim 0 AuditObjects.bytes) := by
    cases hslot : m.objects.audit with
    | none => rfl
    | some a =>
      rw [hslot, Option.elim_some] at hroot
      exact auditNeeded_eq (by omega) build
  have hsum := @sum_of_lt [slotBytes m.objects.memdb, slotBytes m.objects.imapUid,
    slotBytes m.objects.integrity, slotBytes m.objects.timestamp,
    m.objects.audit.elim 0 AuditObjects.bytes] (by simpa [← Nat.add_assoc] using hroot) build
  simp only [needed, haudit, Option.bind_eq_bind, Option.bind_some, hsum, sum_of_lt hdata,
    sum_of_lt hindex, needs, List.sum_cons, List.sum_nil, Nat.add_zero, Nat.add_assoc]
  rfl

theorem checkFreeSpace_eq_ok {caller name : String} {needed : Nat} :
    checkFreeSpace canonicalize display disks caller name dir needed = .ok () ↔
      needed = 0 ∨ requiredSpace needed ≤ availableSpaceOn canonicalize disks dir := by
  rw [checkFreeSpace, checkFreeSpaceAgainst]
  by_cases hzero : needed = 0
  · simp [hzero]
  · rw [if_neg hzero]
    split
    · simpa [hzero]
    · simpa [hzero] using Nat.le_of_not_lt ‹_›

/-- The directory is on a disk of the list. -/
theorem exists_fileSystemOf (h : ∃ d ∈ disks, d.holds (canonical canonicalize dir) = true) :
    ∃ d, fileSystemOf canonicalize disks dir = some d := by
  obtain ⟨d, hd, hholds⟩ := h
  refine Option.ne_none_iff_exists'.mp fun hnone => ?_
  rw [fileSystemOf, List.argmax_eq_none] at hnone
  exact List.ne_nil_of_mem (List.mem_filter.mpr ⟨hd, hholds⟩) hnone

theorem ownFirst_iff (h : ∃ d ∈ disks, d.holds (canonical canonicalize dir) = true) :
    OwnFirst canonicalize disks dir ↔ ∀ d ∈ fileSystemOf canonicalize disks dir,
      availableSpaceOn canonicalize disks dir = d.availableSpace := by
  obtain ⟨own, hown⟩ := exists_fileSystemOf h
  obtain ⟨first, hfirst⟩ := Option.isSome_iff_exists.mp (List.find?_isSome.mpr h)
  simp [OwnFirst, availableSpaceOn, hown, hfirst]

end

def rootDisk : Disk := ⟨⟨none, true, []⟩, 10⟩

def dataDisk : Disk := ⟨⟨none, true, [['d']]⟩, 500⟩

def onDataDisk : RestoreTargets :=
  ⟨⟨none, true, [['d'], ['r']]⟩, ⟨none, true, [['d'], ['i']]⟩, ⟨none, true, [['d'], ['b']]⟩⟩

end Bichon.Backup
