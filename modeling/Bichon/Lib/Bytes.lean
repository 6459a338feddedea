import Mathlib.Data.List.Basic

/-!
# Byte strings as file contents

A file is read here as a plain list of bytes. `readExact file offset n` is the
positional read that either returns all of the `n` bytes or nothing, and
`Cursor` is an open handle: the contents together with the position of the next
write. Fixed-width integers are stored in little-endian order; `toLeBytes` and
`fromLeBytes` are inverse to each other on four bytes.
-/

namespace ByteFile

abbrev Bytes := List UInt8

/-- The four bytes of `x`, the least significant one first. -/
def toLeBytes (x : UInt32) : Bytes :=
  [UInt8.ofNat x.toNat, UInt8.ofNat (x.toNat / 256),
    UInt8.ofNat (x.toNat / 65536), UInt8.ofNat (x.toNat / 16777216)]

/-- The number written by four little-endian bytes. Any other length reads as
zero; the callers only pass buffers of four bytes. -/
def fromLeBytes : Bytes → UInt32
  | [a, b, c, d] => UInt32.ofNat
      (a.toNat + 256 * b.toNat + 65536 * c.toNat + 16777216 * d.toNat)
  | _ => 0

@[simp] theorem length_toLeBytes (x : UInt32) : (toLeBytes x).length = 4 := rfl

@[simp] theorem fromLeBytes_toLeBytes (x : UInt32) :
    fromLeBytes (toLeBytes x) = x := by
  have hx : x.toNat < 4294967296 := x.toNat_lt
  apply UInt32.toNat_inj.mp
  simp only [toLeBytes, fromLeBytes, UInt32.toNat_ofNat', UInt8.toNat_ofNat']
  omega

/-- On four bytes the decoding loses nothing. -/
theorem toLeBytes_fromLeBytes {bs : Bytes} (h : bs.length = 4) :
    toLeBytes (fromLeBytes bs) = bs := by
  match bs, h with
  | [a, b, c, d], _ =>
    have ha := a.toNat_lt
    have hb := b.toNat_lt
    have hc := c.toNat_lt
    have hd := d.toNat_lt
    have hx : (fromLeBytes [a, b, c, d]).toNat =
        a.toNat + 256 * b.toNat + 65536 * c.toNat + 16777216 * d.toNat := by
      simp only [fromLeBytes, UInt32.toNat_ofNat']
      omega
    simp only [toLeBytes, hx, List.cons.injEq, and_true, ← UInt8.toNat_inj,
      UInt8.toNat_ofNat']
    omega

/-- The `n` bytes at `offset`, or nothing when the file ends before them. An
empty read succeeds at every offset. -/
def readExact (file : Bytes) (offset n : Nat) : Option Bytes :=
  if ((file.drop offset).take n).length = n then
    some ((file.drop offset).take n)
  else
    none

theorem readExact_append (before mid after : Bytes) (offset n : Nat)
    (ho : offset = before.length) (hn : n = mid.length) :
    readExact (before ++ (mid ++ after)) offset n = some mid := by
  subst ho hn
  simp [readExact]

theorem readExact_eq_none {file : Bytes} {offset n : Nat} (hn : 0 < n)
    (h : file.length < offset + n) : readExact file offset n = none := by
  have hlen : ¬ ((file.drop offset).take n).length = n := by
    simp only [List.length_take, List.length_drop]
    omega
  rw [readExact, if_neg hlen]

theorem readExact_eq_some_iff {file bs : Bytes} {offset n : Nat} :
    readExact file offset n = some bs ↔ (file.drop offset).take n = bs ∧ bs.length = n := by
  unfold readExact
  split
  · constructor
    · intro h
      cases h
      exact ⟨rfl, by assumption⟩
    · rintro ⟨rfl, _⟩
      rfl
  · constructor
    · intro h
      cases h
    · rintro ⟨rfl, hlen⟩
      contradiction

/-- A nonempty read that succeeded lies inside the file. -/
theorem le_length_of_readExact {file bs : Bytes} {offset n : Nat}
    (hn : 0 < n) (h : readExact file offset n = some bs) :
    offset + n ≤ file.length := by
  by_contra hlt
  rw [readExact_eq_none hn (by omega)] at h
  cases h

/-- An open file: its contents and the position of the next write. -/
structure Cursor where
  content : Bytes
  pos : Nat

namespace Cursor

/-- Writing at the position overwrites what is there and moves the position
behind the written bytes; a position past the end leaves a gap of zeros. -/
def writeAll (bs : Bytes) (f : Cursor) : Cursor where
  content := f.content.take f.pos ++ List.replicate (f.pos - f.content.length) 0 ++
    bs ++ f.content.drop (f.pos + bs.length)
  pos := f.pos + bs.length

def seekStart (pos : Nat) (f : Cursor) : Cursor := { f with pos := pos }

def seekEnd (f : Cursor) : Cursor := { f with pos := f.content.length }

/-- At the end of the file a write appends. -/
theorem writeAll_end (bs content : Bytes) :
    writeAll bs ⟨content, content.length⟩ = ⟨content ++ bs, (content ++ bs).length⟩ := by
  simp [writeAll]

/-- Inside the file a write of the same length replaces one block. -/
theorem writeAll_mid (before old after bs : Bytes) (pos : Nat)
    (hpos : pos = before.length) (h : bs.length = old.length) :
    writeAll bs ⟨before ++ (old ++ after), pos⟩ = ⟨before ++ (bs ++ after), pos + bs.length⟩ := by
  subst hpos
  simp [writeAll, h]

end Cursor

/-- A sequence of fallible steps that succeeds. -/
theorem bind_eq_ok {ε α β : Type} {x : Except ε α} {f : α → Except ε β} {b : β}
    (h : (x >>= f) = .ok b) : ∃ a, x = .ok a ∧ f a = .ok b := by
  cases x with
  | error e => cases h
  | ok a => exact ⟨a, rfl, h⟩

end ByteFile
