import Mathlib.Data.List.DropRight

/-!
# Texts

A text is the list of its characters. `trim` cuts off the white space at both ends, by the
table of Unicode.
-/

namespace Texts

abbrev Text := List Char

/-- The characters with the Unicode property `White_Space`. -/
def isWhitespace (c : Char) : Bool :=
  (9 ≤ c.toNat && c.toNat ≤ 13) || c.toNat = 0x20 || c.toNat = 0x85 || c.toNat = 0xa0 ||
    c.toNat = 0x1680 || (0x2000 ≤ c.toNat && c.toNat ≤ 0x200a) || c.toNat = 0x2028 ||
    c.toNat = 0x2029 || c.toNat = 0x202f || c.toNat = 0x205f || c.toNat = 0x3000

def trim (text : Text) : Text := (text.dropWhile isWhitespace).rdropWhile isWhitespace

theorem mem_of_mem_trim {text : Text} {c : Char} (h : c ∈ trim text) : c ∈ text :=
  (List.dropWhile_sublist _).subset ((List.rdropWhile_prefix _ _).subset h)

theorem trim_singleton {c : Char} (hspace : isWhitespace c = false) : trim [c] = [c] := by
  rw [trim, List.dropWhile_cons_of_neg (by simp [hspace]), List.rdropWhile_singleton, hspace]
  rfl

end Texts
