import Bichon.Lib.Regroup
import Bichon.Totp

/-!
# Base32

Secrets are handed out in the unpadded form of RFC 4648 and are read back by
`base32Decode`, whatever the case of the letters and whatever white space and padding was
put in between. The decoder looks a character up by its low byte, so that it also takes
characters that are far from the alphabet.
-/

namespace Bichon.Totp

open ByteFile Regroup List Texts

/-- `BASE32_ALPHABET[index] as char`. -/
def base32Char (index : Nat) : Char := Char.ofNat (base32Alphabet.getD index 0).toNat

/-- The inner loop of `base32_encode`: a character for every five bits. -/
def base32Drain (buffer : Nat) : Nat → Text → Nat × Text
  | bits + 5, out => base32Drain buffer bits (out ++ [base32Char (buffer >>> bits &&& 0x1f)])
  | bits, out => (bits, out)

structure Base32Encoder where
  buffer : Nat
  bits : Nat
  out : Text

def base32EncodeByte (st : Base32Encoder) (byte : UInt8) : Base32Encoder :=
  let buffer := st.buffer <<< 8 ||| byte.toNat
  let drained := base32Drain buffer (st.bits + 8) st.out
  { buffer := buffer &&& (1 <<< drained.1 - 1), bits := drained.1, out := drained.2 }

def base32Encode (input : Bytes) : Text :=
  let st := input.foldl base32EncodeByte { buffer := 0, bits := 0, out := [] }
  if 0 < st.bits then
    st.out ++ [base32Char (st.buffer <<< (5 - st.bits) &&& 0x1f)]
  else
    st.out

/-- The input without white space and padding. -/
def stripped (input : Text) : Text := input.filter fun c => !isWhitespace c && c != '='

/-- What `base32_decode` looks up. -/
def cleaned (upper : Uppercase) (input : Text) : Text := (stripped input).flatMap upper

/-- The alphabet of RFC 4648. -/
def rfcAlphabet : Text := "ABCDEFGHIJKLMNOPQRSTUVWXYZ234567".toList

/-- The low byte of the character is that of a character of the alphabet. -/
def NarrowsToAlphabet (c : Char) : Prop := UInt8.ofNat c.toNat ∈ base32Alphabet

instance : DecidablePred NarrowsToAlphabet := fun _ => inferInstanceAs (Decidable (_ ∈ _))

/-- On ASCII, the tables have the upper case of a letter. -/
def Uppercase.Lawful (upper : Uppercase) : Prop := ∀ c, c.toNat < 128 → upper c = [c.toUpper]

/-! ### Encoding -/

/-- The encoder after some bytes: the characters so far stand for all but the last few
bits of them. -/
def Base32Encoder.Holds (st : Base32Encoder) (bs : List Nat) : Prop :=
  ∃ ds, st.out = ds.map base32Char ∧ (∀ d ∈ ds, d < 32) ∧ st.bits < 5 ∧
    Regroups 8 5 bs ds st.buffer st.bits

theorem digits_lt {ds : List Nat} (hds : ∀ d ∈ ds, d < 32) (n : Nat) :
    ∀ d ∈ ds ++ [n &&& 0x1f], d < 32 :=
  forall_mem_append.mpr ⟨hds, forall_mem_singleton.mpr
    (Nat.and_lt_two_pow n (show 0x1f < 2 ^ 5 by decide))⟩

theorem holds_base32Drain {bs ds : List Nat} {buffer bits : Nat}
    (h : Regroups 8 5 bs ds buffer bits) (hds : ∀ d ∈ ds, d < 32) :
    (⟨buffer, (base32Drain buffer bits (ds.map base32Char)).1,
      (base32Drain buffer bits (ds.map base32Char)).2⟩ : Base32Encoder).Holds bs := by
  induction bits using Nat.strong_induction_on generalizing ds with
  | h bits ih =>
    by_cases hbits : bits < 5
    · have hend : base32Drain buffer bits (ds.map base32Char) = (bits, ds.map base32Char) := by
        unfold base32Drain
        split
        · omega
        · rfl
      rw [hend]
      exact ⟨ds, rfl, hds, hbits, h⟩
    · obtain ⟨n, rfl⟩ := Nat.exists_eq_add_of_le' (Nat.le_of_not_lt hbits)
      have hnext := ih n (by omega) h.emit (digits_lt hds _)
      rw [map_append] at hnext
      exact hnext

theorem holds_base32Encode (b : Bytes) :
    (b.foldl base32EncodeByte { buffer := 0, bits := 0, out := [] }).Holds
      (b.map UInt8.toNat) := by
  induction b using List.reverseRecOn with
  | nil => exact ⟨[], rfl, forall_mem_nil _, by decide, .start 8 5⟩
  | append_singleton b byte ih =>
    obtain ⟨ds, hout, hds, -, h⟩ := ih
    obtain ⟨ds', hout', hds', hbits', h'⟩ := holds_base32Drain (h.take byte.toNat_lt) hds
    rw [foldl_concat, map_append]
    rw [← hout] at hout' hbits' h'
    exact ⟨ds', hout', hds', hbits', h'.mask⟩

/-- The characters of an encoding are the bits of the bytes, with fewer than five zeros
behind them. -/
theorem base32Encode_spec (b : Bytes) :
    ∃ ds padding, base32Encode b = ds.map base32Char ∧ (∀ d ∈ ds, d < 32) ∧ padding < 5 ∧
      5 * ds.length = 8 * b.length + padding ∧
      number (2 ^ 5) ds = number (2 ^ 8) (b.map UInt8.toNat) * 2 ^ padding := by
  obtain ⟨ds, hout, hds, hbits, h⟩ := holds_base32Encode b
  rw [base32Encode]
  split
  next hpos =>
    obtain ⟨hlength, hnumber⟩ := h.flush hbits.le
    rw [length_map] at hlength
    refine ⟨_, _, ?_, digits_lt hds _, by omega, hlength, hnumber⟩
    rw [hout, map_append]
    rfl
  next hzero =>
    have hnone := Nat.eq_zero_of_not_pos hzero
    have hlength := h.length_eq
    rw [length_map] at hlength
    refine ⟨ds, 0, hout, hds, by decide, by omega, ?_⟩
    rw [h.number_eq, hnone]
    omega

/-! ### Decoding -/

/-- What the decoder finds for a character. -/
abbrev base32Index (c : Char) : Option Nat := base32Alphabet.findIdx? (· = UInt8.ofNat c.toNat)

theorem index_base32Char {d : Nat} (hd : d < 32) : base32Index (base32Char d) = some d := by
  revert d
  decide

/-- The decoder after characters that have an index. -/
structure Base32State.Holds (st : Base32State) (ds : List Nat) : Prop where
  bits_lt : st.bits < 8
  regroups : Regroups 5 8 ds (st.out.map UInt8.toNat) st.buffer st.bits

theorem Base32State.Holds.step {st : Base32State} {ds : List Nat} (h : st.Holds ds) {c : Char}
    {d : Nat} (hd : base32Index c = some d) :
    ∃ st', base32Step st c = .ok st' ∧ st'.Holds (ds ++ [d]) := by
  have hlt : d < 32 := (findIdx?_eq_some_iff_findIdx_eq.mp hd).1
  have htaken := h.regroups.take hlt
  have hbits := h.bits_lt
  rw [base32Step, ← base32Index, hd]
  dsimp only
  split
  next hfull =>
    refine ⟨_, rfl, by dsimp only; omega, ?_⟩
    rw [show st.bits + 5 = (st.bits + 5 - 8) + 8 by omega] at htaken
    have hbyte := Nat.and_lt_two_pow ((st.buffer <<< 5 ||| d) >>> (st.bits + 5 - 8))
      (show 0xff < 2 ^ 8 by decide)
    rw [map_append, map_singleton, UInt8.toNat_ofNat', Nat.mod_eq_of_lt hbyte]
    exact htaken.emit.mask
  next hfree => exact ⟨_, rfl, by dsimp only; omega, htaken⟩

theorem foldlM_base32Step (cs : Text) {ds : List Nat}
    (h : cs.map base32Index = ds.map some) :
    ∃ st, cs.foldlM base32Step { buffer := 0, bits := 0, out := [] } = .ok st ∧ st.Holds ds := by
  induction cs using List.reverseRecOn generalizing ds with
  | nil =>
    rw [map_nil, eq_comm, map_eq_nil_iff] at h
    subst h
    exact ⟨_, rfl, by decide, .start 5 8⟩
  | append_singleton cs c ih =>
    rw [map_append, eq_comm, map_eq_append_iff] at h
    obtain ⟨ds, last, rfl, hds, hlast⟩ := h
    obtain ⟨d, rfl, hd⟩ : ∃ d, last = [d] ∧ base32Index c = some d := by
      simpa [map_eq_singleton_iff, eq_comm] using hlast
    obtain ⟨st, hst, hholds⟩ := ih hds.symm
    obtain ⟨st', hst', hholds'⟩ := hholds.step hd
    refine ⟨st', ?_, hholds'⟩
    rw [foldlM_append, hst]
    change (base32Step st c >>= pure) = _
    rw [hst']
    rfl

theorem base32Decode_eq (upper : Uppercase) (text : Text) :
    base32Decode upper text = if (cleaned upper text).isEmpty then .error .emptyInput else
      (cleaned upper text).foldlM base32Step { buffer := 0, bits := 0, out := [] } >>=
        fun st => .ok st.out := by
  rw [base32Decode]
  cases h : (cleaned upper text).isEmpty with
  | true => exact if_pos h
  | false => exact if_neg (ne_true_of_eq_false h)

theorem exists_base32Decode {upper : Uppercase} {text : Text} {ds : List Nat}
    (h : (cleaned upper text).map base32Index = ds.map some) (hne : ds ≠ []) :
    ∃ st : Base32State, base32Decode upper text = .ok st.out ∧ st.Holds ds := by
  obtain ⟨st, hst, hholds⟩ := foldlM_base32Step _ h
  have hcleaned : (cleaned upper text).isEmpty = false := by
    rw [isEmpty_eq_false_iff]
    rintro hnil
    rw [hnil, map_nil, eq_comm, map_eq_nil_iff] at h
    exact hne h
  refine ⟨st, ?_, hholds⟩
  rw [base32Decode_eq, hcleaned, hst]
  rfl

/-! ### Round trip and rejection -/

theorem toNat_lt_of_toUpper {c : Char} {d : Nat} (hd : d < 32) (h : c.toUpper = base32Char d) :
    c.toNat < 128 := by
  have hascii : ∀ d < 32, (base32Char d).toNat < 128 := by decide
  delta Char.toUpper at h
  split at h
  next hlower => exact Nat.lt_of_le_of_lt (UInt32.le_iff_toNat_le.mp hlower.2) (by decide)
  next => exact h ▸ hascii d hd

theorem cleaned_of_stripped {upper : Uppercase} (hupper : upper.Lawful) {text : Text}
    {ds : List Nat} (hds : ∀ d ∈ ds, d < 32)
    (h : (stripped text).map Char.toUpper = ds.map base32Char) :
    cleaned upper text = ds.map base32Char := by
  have hone : ∀ c ∈ stripped text, upper c = [c.toUpper] := by
    intro c hc
    have hmem : c.toUpper ∈ ds.map base32Char := h ▸ mem_map_of_mem hc
    obtain ⟨d, hd, hchar⟩ := mem_map.mp hmem
    exact hupper c (toNat_lt_of_toUpper (hds d hd) hchar.symm)
  rw [cleaned, flatMap_congr hone, ← h, ← map_eq_flatMap]

theorem base32Decode_base32Encode {upper : Uppercase} (hupper : upper.Lawful) {b : Bytes}
    (hb : b ≠ []) {text : Text} (h : (stripped text).map Char.toUpper = base32Encode b) :
    base32Decode upper text = .ok b := by
  obtain ⟨ds, padding, hencode, hds, hpadding, hlength, hnumber⟩ := base32Encode_spec b
  rw [hencode] at h
  have hindex : (cleaned upper text).map base32Index = ds.map some := by
    rw [cleaned_of_stripped hupper hds h, map_map]
    exact map_congr_left fun d hd => index_base32Char (hds d hd)
  have hbytes : ∀ bs : Bytes, ∀ n ∈ bs.map UInt8.toNat, n < 2 ^ 8 := fun bs =>
    forall_mem_map.mpr fun byte _ => byte.toNat_lt
  have hpos := length_pos_iff.mpr hb
  obtain ⟨st, hst, hholds⟩ := exists_base32Decode hindex (length_pos_iff.mp (by omega))
  have hout := hholds.regroups.eq_of_padded hholds.bits_lt (by omega) (by decide)
    (by rw [length_map]; exact hlength) hnumber (hbytes _) (hbytes b)
  rw [hst, map_injective_iff.mpr (fun _ _ => UInt8.toNat_inj.mp) hout]

theorem narrows_of_base32Step {st st' : Base32State} {c : Char} (h : base32Step st c = .ok st') :
    NarrowsToAlphabet c := by
  by_contra hc
  have hnone : base32Index c = none := findIdx?_eq_none_iff.mpr fun byte hbyte =>
    decide_eq_false fun heq => hc (show _ ∈ _ from heq ▸ hbyte)
  rw [base32Step, ← base32Index, hnone] at h
  cases h

theorem narrows_of_foldlM {cs : Text} {st st' : Base32State}
    (h : cs.foldlM base32Step st = .ok st') : ∀ c ∈ cs, NarrowsToAlphabet c := by
  induction cs generalizing st with
  | nil => exact forall_mem_nil _
  | cons c cs ih =>
    obtain ⟨st₁, hstep, hrest⟩ := bind_eq_ok h
    exact forall_mem_cons.mpr ⟨narrows_of_base32Step hstep, ih hrest⟩

theorem base32Decode_error_iff {upper : Uppercase} {text : Text} :
    (∃ e, base32Decode upper text = .error e) ↔
      cleaned upper text = [] ∨ ∃ c ∈ cleaned upper text, ¬ NarrowsToAlphabet c := by
  constructor
  · rintro ⟨e, he⟩
    by_contra hnone
    push Not at hnone
    have hindex : ∀ c ∈ cleaned upper text, base32Index c =
        some (base32Alphabet.findIdx (· = UInt8.ofNat c.toNat)) := by
      intro c hc
      refine findIdx?_eq_some_iff_findIdx_eq.mpr ⟨findIdx_lt_length_of_exists ?_, rfl⟩
      exact ⟨_, hnone.2 c hc, decide_eq_true rfl⟩
    obtain ⟨st, hst, -⟩ := exists_base32Decode
      ((map_congr_left hindex).trans (map_map ..).symm) (mt map_eq_nil_iff.mp hnone.1)
    rw [hst] at he
    cases he
  · intro h
    cases hdecode : base32Decode upper text with
    | error e => exact ⟨e, rfl⟩
    | ok key =>
      rw [base32Decode_eq] at hdecode
      split at hdecode
      next => cases hdecode
      next hne =>
        obtain ⟨st, hst, -⟩ := bind_eq_ok hdecode
        rcases h with hnil | ⟨c, hc, hnarrow⟩
        · rw [hnil] at hne
          exact absurd rfl hne
        · exact absurd (narrows_of_foldlM hst c hc) hnarrow

/-- Every encoding is read back, in upper or lower case and with white space and padding
anywhere in it. A text is refused for a character that is not in the alphabet, exactly
when one of its characters does not narrow to a character of the alphabet, or all of them
are in the alphabet anyway. -/
theorem base32_round_trip_and_rejects_iff {upper : Uppercase} (hupper : upper.Lawful) :
    (∀ b ≠ [], ∀ text, (stripped text).map Char.toUpper = base32Encode b →
      base32Decode upper text = .ok b) ∧
    ∀ text, ((∃ c ∈ cleaned upper text, c ∉ rfcAlphabet) →
        ∃ e, base32Decode upper text = .error e) ↔
      ((∀ c ∈ cleaned upper text, NarrowsToAlphabet c) →
        ∀ c ∈ cleaned upper text, c ∈ rfcAlphabet) := by
  refine ⟨fun b hb text h => base32Decode_base32Encode hupper hb h, fun text => ?_⟩
  rw [base32Decode_error_iff]
  constructor
  · intro h hall c hc
    by_contra hout
    rcases h ⟨c, hc, hout⟩ with hnil | ⟨d, hd, hnarrow⟩
    · rw [hnil] at hc
      cases hc
    · exact hnarrow (hall d hd)
  · rintro h ⟨c, hc, hout⟩
    by_contra hnone
    push Not at hnone
    exact hout (h hnone.2 c hc)

/-- ASCII letters have their upper case, and all other characters are their own. -/
def asciiUpper : Uppercase := fun c => [c.toUpper]

theorem base32_round_trip_lower_case :
    base32Encode [0xff, 0x01] = "74AQ".toList ∧
      base32Decode asciiUpper " 74 a=q\n".toList = .ok [0xff, 0x01] :=
  ⟨by decide +kernel, (base32_round_trip_and_rejects_iff fun _ _ => rfl).1 _ (by decide) _
    (by decide +kernel)⟩

/-- The low byte of `Ł`, the character 0x141, is that of `A`. -/
theorem far_character_is_decoded :
    (∃ c ∈ cleaned asciiUpper "ŁA".toList, c ∉ rfcAlphabet) ∧
      base32Decode asciiUpper "ŁA".toList = base32Decode asciiUpper "AA".toList ∧
      base32Decode asciiUpper "ŁA".toList = .ok [0] :=
  ⟨⟨'Ł', by decide +kernel, by decide +kernel⟩, by decide +kernel, by decide +kernel⟩

end Bichon.Totp
