import Bichon.Lib.Bytes
import Mathlib.Data.List.AList

/-!
# A directory of files with handles

A directory maps names to inodes and the inodes hold the bytes. The two are kept
apart because a handle names an inode, not a path: a file that was renamed over
or removed keeps its bytes for whoever has it open. The structure carries the two
facts every lemma below needs, that the inodes in use lie below the counter and
that two names never share one, so they are not hypotheses anywhere.

`read? fs n` is the view by path, `fs.data i` the view by handle.
-/

open ByteFile

structure FileSystem (ν : Type) [DecidableEq ν] where
  dir : AList (fun _ : ν => Nat)
  data : Nat → Bytes
  next : Nat
  lookup_lt : ∀ {n i}, dir.lookup n = some i → i < next
  lookup_inj : ∀ {m n i}, dir.lookup m = some i → dir.lookup n = some i → m = n

namespace FileSystem

section

variable {ν : Type} [DecidableEq ν]

def empty : FileSystem ν where
  dir := ∅
  data := fun _ => []
  next := 0
  lookup_lt := by simp
  lookup_inj := by simp

/-- A free inode is given a name. -/
theorem lookup_insert_inj {dir : AList fun _ : ν => Nat} {i : Nat} (n : ν)
    (hinj : ∀ {m m' j}, dir.lookup m = some j → dir.lookup m' = some j → m = m')
    (hfree : ∀ {m}, dir.lookup m ≠ some i) {m m' : ν} {j : Nat}
    (hm : (dir.insert n i).lookup m = some j) (hm' : (dir.insert n i).lookup m' = some j) :
    m = m' := by
  by_cases hmn : m = n
  · subst hmn
    rw [AList.lookup_insert] at hm
    cases hm
    by_contra hne
    rw [AList.lookup_insert_ne (Ne.symm hne)] at hm'
    exact hfree hm'
  · rw [AList.lookup_insert_ne hmn] at hm
    by_cases hmn' : m' = n
    · subst hmn'
      rw [AList.lookup_insert] at hm'
      cases hm'
      exact absurd hm hfree
    · rw [AList.lookup_insert_ne hmn'] at hm'
      exact hinj hm hm'

def inode? (fs : FileSystem ν) (n : ν) : Option Nat := fs.dir.lookup n

def read? (fs : FileSystem ν) (n : ν) : Option Bytes := (fs.inode? n).map fs.data

def names (fs : FileSystem ν) : List ν := fs.dir.keys

def write (i : Nat) (bs : Bytes) (fs : FileSystem ν) : FileSystem ν :=
  { fs with data := Function.update fs.data i bs }

/-- Open a path for writing with create-and-truncate: an existing file keeps its
inode and loses its bytes. -/
def create (n : ν) (fs : FileSystem ν) : FileSystem ν :=
  match h : fs.inode? n with
  | some i => fs.write i []
  | none =>
    { dir := fs.dir.insert n fs.next
      data := Function.update fs.data fs.next []
      next := fs.next + 1
      lookup_lt := by
        intro m i hm
        by_cases hmn : m = n
        · subst hmn
          rw [AList.lookup_insert] at hm
          cases hm
          omega
        · rw [AList.lookup_insert_ne hmn] at hm
          have := fs.lookup_lt hm
          omega
      lookup_inj :=
        lookup_insert_inj n fs.lookup_inj fun hm => absurd (fs.lookup_lt hm) (lt_irrefl _) }

/-- Set the length of a file by path; growing fills with zeros. -/
def setLen (n : ν) (size : Nat) (fs : FileSystem ν) : FileSystem ν :=
  match fs.inode? n with
  | some i => fs.write i
      ((fs.data i).take size ++ List.replicate (size - (fs.data i).length) 0)
  | none => fs

def remove (n : ν) (fs : FileSystem ν) : FileSystem ν where
  dir := fs.dir.erase n
  data := fs.data
  next := fs.next
  lookup_lt := by
    intro m i hm
    by_cases hmn : m = n
    · subst hmn
      simp at hm
    · rw [AList.lookup_erase_ne hmn] at hm
      exact fs.lookup_lt hm
  lookup_inj := by
    intro m m' i hm hm'
    by_cases hmn : m = n
    · subst hmn
      simp at hm
    · by_cases hmn' : m' = n
      · subst hmn'
        simp at hm'
      · rw [AList.lookup_erase_ne hmn] at hm
        rw [AList.lookup_erase_ne hmn'] at hm'
        exact fs.lookup_inj hm hm'

/-- Move a file over another path. What the target led to is unlinked; its
inode keeps the bytes. A missing source leaves everything as it is. -/
def rename (src dst : ν) (fs : FileSystem ν) : FileSystem ν :=
  match h : fs.inode? src with
  | none => fs
  | some i =>
    { dir := (fs.dir.erase src).insert dst i
      data := fs.data
      next := fs.next
      lookup_lt := by
        intro m j hm
        by_cases hmd : m = dst
        · subst hmd
          rw [AList.lookup_insert] at hm
          cases hm
          exact fs.lookup_lt h
        · rw [AList.lookup_insert_ne hmd] at hm
          exact (fs.remove src).lookup_lt hm
      lookup_inj := by
        -- the moved inode is no longer reachable under any other name
        have hfree : ∀ {m}, (fs.dir.erase src).lookup m ≠ some i := by
          intro m hm
          by_cases hms : m = src
          · subst hms
            simp at hm
          · rw [AList.lookup_erase_ne hms] at hm
            exact hms (fs.lookup_inj hm h)
        exact fun {_ _ _} => lookup_insert_inj dst (fs.remove src).lookup_inj hfree }

/-! ## The view by inode -/

variable {fs : FileSystem ν} {m n : ν} {i : Nat}

theorem inode?_lt (h : fs.inode? n = some i) : i < fs.next := fs.lookup_lt h

theorem inode?_inj (hm : fs.inode? m = some i) (hn : fs.inode? n = some i) : m = n :=
  fs.lookup_inj hm hn

@[simp] theorem inode?_write (fs : FileSystem ν) (i : Nat) (bs : Bytes) (n : ν) :
    (fs.write i bs).inode? n = fs.inode? n := rfl

@[simp] theorem data_write_self (fs : FileSystem ν) (i : Nat) (bs : Bytes) :
    (fs.write i bs).data i = bs := by
  simp [write]

theorem data_write_ne (fs : FileSystem ν) {j : Nat} (bs : Bytes) (h : j ≠ i) :
    (fs.write i bs).data j = fs.data j := by
  simp [write, h]

theorem create_of_some (h : fs.inode? n = some i) : fs.create n = fs.write i [] := by
  unfold create
  split
  next hj =>
    cases h.symm.trans hj
    rfl
  next hj => cases h.symm.trans hj

theorem inode?_create_of_none (h : fs.inode? n = none) (m : ν) :
    (fs.create n).inode? m = if m = n then some fs.next else fs.inode? m := by
  unfold create
  split
  next hj => cases h.symm.trans hj
  next =>
    by_cases hmn : m = n
    · subst hmn
      simp [inode?]
    · simp [inode?, hmn]

theorem data_create_of_none (h : fs.inode? n = none) (i : Nat) :
    (fs.create n).data i = if i = fs.next then [] else fs.data i := by
  unfold create
  split
  next hj => cases h.symm.trans hj
  next => simp [Function.update_apply]

theorem inode?_create_ne (fs : FileSystem ν) (hne : m ≠ n) :
    (fs.create n).inode? m = fs.inode? m := by
  cases h : fs.inode? n with
  | none => rw [inode?_create_of_none h, if_neg hne]
  | some i => rw [create_of_some h, inode?_write]

/-- Creating a file leaves the bytes of every other one alone. -/
theorem data_create_of_ne (hm : fs.inode? m = some i)
    (hne : m ≠ n) : (fs.create n).data i = fs.data i := by
  cases h : fs.inode? n with
  | none => rw [data_create_of_none h, if_neg (Nat.ne_of_lt (inode?_lt hm))]
  | some j =>
    have hij : i ≠ j := fun hij => hne (inode?_inj hm (hij ▸ h))
    rw [create_of_some h, data_write_ne fs [] hij]

theorem inode?_remove (fs : FileSystem ν) (n m : ν) :
    (fs.remove n).inode? m = if m = n then none else fs.inode? m := by
  by_cases hmn : m = n
  · subst hmn
    simp [inode?, remove]
  · simp [inode?, remove, hmn]

theorem inode?_rename {src dst : ν} (h : fs.inode? src = some i) (hne : src ≠ dst) (m : ν) :
    (fs.rename src dst).inode? m =
      if m = dst then some i else if m = src then none else fs.inode? m := by
  unfold rename
  split
  next hj => cases h.symm.trans hj
  next j hj =>
    cases h.symm.trans hj
    by_cases hmd : m = dst
    · subst hmd
      simp [inode?]
    · by_cases hms : m = src
      · subst hms
        simp [inode?, hne]
      · simp [inode?, hmd, hms]

@[simp] theorem data_rename (fs : FileSystem ν) (src dst : ν) (i : Nat) :
    (fs.rename src dst).data i = fs.data i := by
  unfold rename
  split <;> rfl

/-! ## The view by path -/

theorem read?_eq_some (h : fs.inode? n = some i) : fs.read? n = some (fs.data i) := by
  simp [read?, h]

theorem read?_eq_none_iff : fs.read? n = none ↔ fs.inode? n = none := by
  simp [read?]

theorem read?_write_self (h : fs.inode? n = some i) (bs : Bytes) :
    (fs.write i bs).read? n = some bs := by
  simp [read?, h]

/-- Writing through a handle the path does not lead to. -/
theorem read?_write_of_inode?_ne (bs : Bytes)
    (h : fs.inode? n ≠ some i) : (fs.write i bs).read? n = fs.read? n := by
  cases hn : fs.inode? n with
  | none => simp [read?, hn]
  | some j =>
    have hne : j ≠ i := fun heq => h (heq ▸ hn)
    rw [read?, inode?_write, hn, Option.map_some, data_write_ne fs bs hne, read?_eq_some hn]

theorem read?_write_ne (h : fs.inode? n = some i) (bs : Bytes) (hne : m ≠ n) :
    (fs.write i bs).read? m = fs.read? m :=
  read?_write_of_inode?_ne bs fun hm => hne (inode?_inj hm h)

@[simp] theorem read?_create_self (fs : FileSystem ν) (n : ν) :
    (fs.create n).read? n = some [] := by
  cases h : fs.inode? n with
  | none => simp [read?, inode?_create_of_none h, data_create_of_none h]
  | some i => rw [create_of_some h, read?_write_self h]

theorem read?_create_ne (fs : FileSystem ν) (hne : m ≠ n) : (fs.create n).read? m = fs.read? m := by
  cases h : fs.inode? n with
  | none =>
    cases hm : fs.inode? m with
    | none => simp [read?, inode?_create_of_none h, hm, hne]
    | some j =>
      have hj : j ≠ fs.next := Nat.ne_of_lt (inode?_lt hm)
      simp [read?, inode?_create_of_none h, data_create_of_none h, hm, hne, hj]
  | some i => rw [create_of_some h, read?_write_ne h [] hne]

theorem read?_remove (fs : FileSystem ν) (n m : ν) :
    (fs.remove n).read? m = if m = n then none else fs.read? m := by
  by_cases hmn : m = n
  · simp [read?, inode?_remove, hmn]
  · simp only [read?, inode?_remove, hmn, if_false]
    rfl

theorem read?_rename {src dst : ν} (h : fs.inode? src = some i) (hne : src ≠ dst) (m : ν) :
    (fs.rename src dst).read? m =
      if m = dst then some (fs.data i) else
        if m = src then none else fs.read? m := by
  simp only [read?, inode?_rename h hne]
  by_cases hmd : m = dst
  · simp [hmd]
  · by_cases hms : m = src
    · simp [hms, hne]
    · simp only [hmd, hms, if_false]
      cases fs.inode? m <;> simp

/-- Shortening a file by path. -/
theorem read?_setLen_self {bs : Bytes} {size : Nat}
    (h : fs.read? n = some bs) (hsize : size ≤ bs.length) :
    (fs.setLen n size).read? n = some (bs.take size) := by
  cases hi : fs.inode? n with
  | none => simp [read?, hi] at h
  | some i =>
    have hbs : fs.data i = bs := by simpa [read?, hi] using h
    have hpad : size - bs.length = 0 := by omega
    simp only [setLen, hi, hbs, hpad, List.replicate_zero, List.append_nil]
    exact read?_write_self hi _

theorem read?_setLen_ne (fs : FileSystem ν) (size : Nat) (hne : m ≠ n) :
    (fs.setLen n size).read? m = fs.read? m := by
  unfold setLen
  cases hi : fs.inode? n with
  | none => rfl
  | some i => exact read?_write_ne hi _ hne

theorem mem_names : n ∈ fs.names ↔ fs.read? n ≠ none := by
  rw [Ne, read?_eq_none_iff, inode?, AList.lookup_eq_none, not_not]
  exact AList.mem_keys.symm

theorem names_nodup (fs : FileSystem ν) : fs.names.Nodup := fs.dir.keys_nodup

end

end FileSystem
