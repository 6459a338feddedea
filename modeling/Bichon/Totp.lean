import Bichon.Lib.Bytes
import Bichon.Lib.Decimal
import Bichon.Lib.Texts

/-!
# Two-factor codes

`verifyCode` accepts a submitted code when it equals the code of the secret at
one of the time steps around the present one. The code is computed by
`totpCodeAt`, which decodes the base32 secret, takes the HMAC of the step
counter and truncates it to a number of decimal digits. HMAC-SHA1 is any
function to twenty bytes, and the upper-case mapping of a character comes from
the Unicode tables; both are parameters. `rfcCode` is the code that RFC 6238
defines, stated in arithmetic, and `totpCodeAt_eq` says that the bit operations
of the source compute it.

The number of digits is not fixed: `verifyCode` takes it from the length of the
text that was submitted. `verifyCode_iff` characterises the texts that are
accepted, and `verify_six_digits_iff` says for which texts acceptance means that
the six-digit code was given.
-/

namespace Bichon.Totp

open ByteFile Texts

/-- The length of a text in bytes of its UTF-8 form, which is what `str::len`
returns. -/
def byteLen (text : Text) : Nat := (text.map Char.utf8Size).sum

/-- A tag of HMAC-SHA1. -/
structure Mac where
  bytes : Bytes
  length_eq : bytes.length = 20

/-- The functions of other libraries: the MAC of a message under a key, and the
upper-case form of a character, which may be several characters. -/
abbrev Hmac := Bytes → Bytes → Mac

abbrev Uppercase := Char → List Char

inductive TotpError where
  | emptyInput
  | invalidCharacter (c : Char)
  | digits
deriving DecidableEq, Repr

/-- The texts of the errors. All of them have the code `InvalidParameter`. -/
def TotpError.message : TotpError → String
  | .emptyInput => "Empty base32 input."
  | .invalidCharacter c => "Invalid base32 character '" ++ c.toString ++ "'."
  | .digits => "TOTP digits must be between 1 and 8."

def timeStepSecs : Nat := 30

def base32Alphabet : Bytes :=
  "ABCDEFGHIJKLMNOPQRSTUVWXYZ234567".toList.map fun c => UInt8.ofNat c.toNat

/-- The decoder between two characters: the bits that do not fill a byte yet, as
a number and their count, and the bytes so far. -/
structure Base32State where
  buffer : Nat
  bits : Nat
  out : Bytes
deriving DecidableEq, Repr

/-- One round of the loop of `base32_decode`. The character is compared by its
low byte, as the cast in the source does. -/
def base32Step (st : Base32State) (c : Char) : Except TotpError Base32State :=
  match base32Alphabet.findIdx? (· = UInt8.ofNat c.toNat) with
  | none => .error (.invalidCharacter c)
  | some index =>
    let buffer := st.buffer <<< 5 ||| index
    let bits := st.bits + 5
    if 8 ≤ bits then
      .ok { buffer := buffer &&& (1 <<< (bits - 8) - 1), bits := bits - 8,
            out := st.out ++ [UInt8.ofNat (buffer >>> (bits - 8) &&& 0xff)] }
    else
      .ok { buffer, bits, out := st.out }

def base32Decode (upper : Uppercase) (input : Text) : Except TotpError Bytes := do
  let cleaned := (input.filter fun c => !isWhitespace c && c != '=').flatMap upper
  if cleaned.isEmpty then
    throw .emptyInput
  let st ← cleaned.foldlM base32Step { buffer := 0, bits := 0, out := [] }
  return st.out

/-- The eight bytes of a counter, the most significant one first. -/
def toBeBytes (counter : Nat) : Bytes :=
  (List.range 8).map fun i => UInt8.ofNat (counter / 256 ^ (7 - i))

/-- The four bytes at the offset that the last byte gives, without the topmost
bit, with the operations of the source. -/
def truncatedBits (mac : Bytes) : UInt32 :=
  let byte (i : Nat) : UInt8 := mac.getD i 0
  let offset := (byte (mac.length - 1) &&& 0x0f).toNat
  (byte offset &&& 0x7f).toUInt32 <<< 24 ||| (byte (offset + 1)).toUInt32 <<< 16 |||
    (byte (offset + 2)).toUInt32 <<< 8 ||| (byte (offset + 3)).toUInt32

def totpCodeAt (upper : Uppercase) (hmac : Hmac) (secretBase32 : Text) (timestampSecs : Nat)
    (digits : UInt32) : Except TotpError Text := do
  if digits = 0 ∨ digits > 8 then
    throw .digits
  let secret ← base32Decode upper secretBase32
  let counter := timestampSecs / timeStepSecs
  let mac := hmac secret (toBeBytes counter)
  let code := truncatedBits mac.bytes % UInt32.ofNat (10 ^ digits.toNat)
  return Decimal.zeroPadded digits.toNat code.toNat

/-- The time of the step that lies `w` steps from the present one, `window`
steps at most on either side; a time before the epoch counts as the epoch. The
loop runs from `-window` to `window`. -/
def stepTimes (now : Nat) (window : UInt8) : List Nat :=
  (List.range (2 * window.toNat + 1)).map fun (i : Nat) =>
    (max ((now : Int) + ((i : Int) - window.toNat) * timeStepSecs) 0).toNat

/-- The check of a submitted code at the time `now`, in seconds since the epoch.
The number of digits is the length of what was submitted. -/
def verifyCode (upper : Uppercase) (hmac : Hmac) (secretBase32 code : Text) (window : UInt8)
    (now : Nat) : Bool :=
  (stepTimes now window).any fun ts =>
    match totpCodeAt upper hmac secretBase32 ts (UInt32.ofNat (byteLen (trim code))) with
    | .ok expected => trim code = expected
    | .error _ => false

/-- The check of a user's code. No code passes for a user without a secret. -/
def verifyTotpCode (upper : Uppercase) (hmac : Hmac) (totpSecret : Option Text) (code : Text)
    (window : UInt8) (now : Nat) : Bool :=
  match totpSecret with
  | none => false
  | some secret => verifyCode upper hmac secret code window now

/-! ### The code of the standard -/

/-- The dynamic truncation: the 31-bit number in the four bytes at the offset
given by the low half of the last byte. -/
def dynamicTruncation (mac : Bytes) : Nat :=
  let byte (i : Nat) : Nat := (mac.getD i 0).toNat
  let offset := byte 19 % 16
  (byte offset % 128) * 2 ^ 24 + byte (offset + 1) * 2 ^ 16 + byte (offset + 2) * 2 ^ 8 +
    byte (offset + 3)

/-- The code of `digits` digits that RFC 6238 gives for a key at a time step. -/
def rfcCode (hmac : Hmac) (key : Bytes) (step digits : Nat) : Text :=
  Decimal.zeroPadded digits (dynamicTruncation (hmac key (toBeBytes step)).bytes % 10 ^ digits)

/-- The time steps at most `window` away from the one of `now`. -/
def StepAround (now : Nat) (window : UInt8) (step : Nat) : Prop :=
  now / timeStepSecs ≤ step + window.toNat ∧ step ≤ now / timeStepSecs + window.toNat

/-- The text is the six-digit code of the secret at a step around `now`. -/
def SixDigitCode (upper : Uppercase) (hmac : Hmac) (secretBase32 : Text) (window : UInt8)
    (now : Nat) (code : Text) : Prop :=
  ∃ key step, base32Decode upper secretBase32 = .ok key ∧ StepAround now window step ∧
    code = rfcCode hmac key step 6

theorem rfcCode_spec (hmac : Hmac) (key : Bytes) (step : Nat) {digits : Nat} (h : 0 < digits) :
    (rfcCode hmac key step digits).length = digits ∧
      Decimal.IsDigits (rfcCode hmac key step digits) :=
  Decimal.zeroPadded_spec h (Nat.mod_lt _ (Nat.pow_pos (by omega)))

theorem or_bytes (a : Nat) {b c d : Nat} (hb : b < 2 ^ 8) (hc : c < 2 ^ 8) (hd : d < 2 ^ 8) :
    a * 2 ^ 24 ||| b * 2 ^ 16 ||| c * 2 ^ 8 ||| d = a * 2 ^ 24 + b * 2 ^ 16 + c * 2 ^ 8 + d := by
  have hab : a * 2 ^ 24 ||| b * 2 ^ 16 = 2 ^ 16 * (a * 2 ^ 8 + b) := by
    have h := Nat.two_pow_add_eq_or_of_lt (show b * 2 ^ 16 < 2 ^ 24 by omega) a
    rw [Nat.mul_comm a, ← h]
    omega
  have habc : 2 ^ 16 * (a * 2 ^ 8 + b) ||| c * 2 ^ 8 = 2 ^ 8 * (a * 2 ^ 16 + b * 2 ^ 8 + c) := by
    rw [← Nat.two_pow_add_eq_or_of_lt (by omega)]
    omega
  rw [hab, habc, ← Nat.two_pow_add_eq_or_of_lt hd]
  omega

theorem toNat_truncatedBits {mac : Bytes} (h : mac.length = 20) :
    (truncatedBits mac).toNat = dynamicTruncation mac := by
  have hlow (x : UInt8) : (x &&& 0x0f).toNat = x.toNat % 16 :=
    Nat.and_two_pow_sub_one_eq_mod x.toNat 4
  have hhigh (x : UInt8) : (x &&& 0x7f).toUInt32.toNat = x.toNat % 128 :=
    Nat.and_two_pow_sub_one_eq_mod x.toNat 7
  have hbyte (i : Nat) : (mac.getD i 0).toNat < 2 ^ 8 := (mac.getD i 0).toNat_lt
  simp only [truncatedBits, dynamicTruncation, h, Nat.reduceSub, hlow]
  generalize (mac.getD 19 0).toNat % 16 = offset
  have hb := hbyte (offset + 1)
  have hc := hbyte (offset + 2)
  simp only [UInt32.toNat_or, UInt32.toNat_shiftLeft, hhigh, UInt8.toNat_toUInt32,
    UInt32.reduceToNat, Nat.reduceMod, Nat.shiftLeft_eq]
  rw [Nat.mod_eq_of_lt (show (mac.getD offset 0).toNat % 128 * 2 ^ 24 < 2 ^ 32 by omega),
    Nat.mod_eq_of_lt (show (mac.getD (offset + 1) 0).toNat * 2 ^ 16 < 2 ^ 32 by omega),
    Nat.mod_eq_of_lt (show (mac.getD (offset + 2) 0).toNat * 2 ^ 8 < 2 ^ 32 by omega),
    or_bytes _ hb hc (hbyte (offset + 3))]

theorem totpCodeAt_eq (upper : Uppercase) (hmac : Hmac) (secretBase32 : Text) (ts : Nat)
    {digits : UInt32} (h : 0 < digits.toNat) (h8 : digits.toNat ≤ 8) :
    totpCodeAt upper hmac secretBase32 ts digits = (base32Decode upper secretBase32).map fun key =>
        rfcCode hmac key (ts / timeStepSecs) digits.toNat := by
  have hcond : ¬ (digits = 0 ∨ digits > 8) := by
    rintro (rfl | hgt)
    · exact absurd h (by decide)
    · have : 8 < digits.toNat := hgt
      omega
  have hpow : 10 ^ digits.toNat < 2 ^ 32 :=
    Nat.lt_of_le_of_lt (Nat.pow_le_pow_right (by omega) h8) (by decide)
  rw [totpCodeAt, if_neg hcond]
  cases base32Decode upper secretBase32 with
  | error e => rfl
  | ok key =>
    simp only [bind, Except.bind, Except.map, pure, Except.pure, rfcCode,
      UInt32.toNat_mod, UInt32.toNat_ofNat', Nat.mod_eq_of_lt hpow,
      toNat_truncatedBits (Mac.length_eq _)]

theorem totpCodeAt_of_digits (upper : Uppercase) (hmac : Hmac) (secretBase32 : Text) (ts : Nat)
    {digits : UInt32} (h : ¬ (0 < digits.toNat ∧ digits.toNat ≤ 8)) :
    totpCodeAt upper hmac secretBase32 ts digits = .error .digits := by
  have hcond : digits = 0 ∨ digits > 8 := by
    by_cases h0 : digits = 0
    · exact .inl h0
    · have hne : digits.toNat ≠ 0 := fun hz => h0 (UInt32.toNat_inj.mp hz)
      exact .inr (show 8 < digits.toNat by omega)
  rw [totpCodeAt, if_pos hcond]
  rfl

/-! ### Which texts are accepted -/

theorem utf8Size_of_isDigit {c : Char} (h : c.isDigit = true) : c.utf8Size = 1 := by
  simp only [Char.isDigit, Bool.and_eq_true, decide_eq_true_eq] at h
  rw [Char.utf8Size_eq_one_iff]
  exact UInt32.le_trans h.2 (by decide)

theorem byteLen_of_isDigits {text : Text} (h : Decimal.IsDigits text) :
    byteLen text = text.length := by
  induction text with
  | nil => rfl
  | cons c text ih =>
    have hc : c.isDigit = true := h c (by simp)
    have ht := ih fun d hd => h d (List.mem_cons_of_mem c hd)
    rw [byteLen] at ht
    simp [byteLen, utf8Size_of_isDigit hc, ht, Nat.add_comm]

theorem stepAround_of_mem_stepTimes {now ts : Nat} {window : UInt8}
    (h : ts ∈ stepTimes now window) : StepAround now window (ts / timeStepSecs) := by
  simp only [stepTimes, List.mem_map, List.mem_range] at h
  obtain ⟨i, hi, rfl⟩ := h
  simp only [StepAround, timeStepSecs]
  omega

theorem now_mem_stepTimes (now : Nat) (window : UInt8) : now ∈ stepTimes now window := by
  simp only [stepTimes, List.mem_map, List.mem_range]
  exact ⟨window.toNat, by omega, by simp⟩

/-- A text is accepted exactly when it is the code of its own length, between
one and eight digits, at one of the time steps. -/
theorem verifyCode_iff {upper : Uppercase} {hmac : Hmac} {secretBase32 code : Text}
    {window : UInt8} {now : Nat} :
    verifyCode upper hmac secretBase32 code window now = true ↔
      ∃ key ts, base32Decode upper secretBase32 = .ok key ∧ ts ∈ stepTimes now window ∧
        1 ≤ (trim code).length ∧ (trim code).length ≤ 8 ∧
        trim code = rfcCode hmac key (ts / timeStepSecs) (trim code).length := by
  simp only [verifyCode, List.any_eq_true]
  generalize trim code = text
  constructor
  · rintro ⟨ts, hts, hcode⟩
    by_cases hlen : 0 < (UInt32.ofNat (byteLen text)).toNat ∧
        (UInt32.ofNat (byteLen text)).toNat ≤ 8
    · rw [totpCodeAt_eq upper hmac secretBase32 ts hlen.1 hlen.2] at hcode
      cases hdec : base32Decode upper secretBase32 with
      | error e => simp [hdec, Except.map] at hcode
      | ok key =>
        simp only [hdec, Except.map, decide_eq_true_eq] at hcode
        have hspec := rfcCode_spec hmac key (ts / timeStepSecs) hlen.1
        rw [← hcode] at hspec
        rw [← hspec.1] at hcode hlen
        exact ⟨key, ts, rfl, hts, hlen.1, hlen.2, hcode⟩
    · rw [totpCodeAt_of_digits upper hmac secretBase32 ts hlen] at hcode
      simp at hcode
  · rintro ⟨key, ts, hdec, hts, hpos, hle, hcode⟩
    have hdigits : Decimal.IsDigits text := by
      rw [hcode]
      exact (rfcCode_spec hmac key (ts / timeStepSecs) hpos).2
    have hlen : (UInt32.ofNat (byteLen text)).toNat = text.length := by
      rw [byteLen_of_isDigits hdigits, UInt32.toNat_ofNat', Nat.mod_eq_of_lt (by omega)]
    refine ⟨ts, hts, ?_⟩
    rw [totpCodeAt_eq upper hmac secretBase32 ts (by omega) (by omega), hdec, hlen]
    simpa [Except.map] using hcode

/-- The tag whose truncation is a given number: the number in the first four
bytes, and zero as the offset. -/
def macOf (n : Nat) : Mac where
  bytes := [UInt8.ofNat (n / 2 ^ 24), UInt8.ofNat (n / 2 ^ 16), UInt8.ofNat (n / 2 ^ 8),
    UInt8.ofNat n] ++ List.replicate 16 0
  length_eq := by simp

theorem dynamicTruncation_macOf {n : Nat} (h : n < 2 ^ 31) :
    dynamicTruncation (macOf n).bytes = n := by
  have hbytes : dynamicTruncation (macOf n).bytes = n / 2 ^ 24 % 2 ^ 8 % 128 * 2 ^ 24 +
      n / 2 ^ 16 % 2 ^ 8 * 2 ^ 16 + n / 2 ^ 8 % 2 ^ 8 * 2 ^ 8 + n % 2 ^ 8 := rfl
  omega

/-- A submitted code that could be a code of some length: one to eight digits. -/
def CodeShaped (text : Text) : Prop := Decimal.IsDigits text ∧ 1 ≤ text.length ∧ text.length ≤ 8

instance (text : Text) : Decidable (CodeShaped text) := inferInstanceAs (Decidable (_ ∧ _))

theorem exists_verifyCode {upper : Uppercase} {secretBase32 code : Text} {key : Bytes}
    (hdec : base32Decode upper secretBase32 = .ok key) (h : CodeShaped (trim code))
    (window : UInt8) (now : Nat) :
    ∃ hmac, verifyCode upper hmac secretBase32 code window now = true := by
  obtain ⟨hdigits, hpos, hle⟩ := h
  have hlt : Decimal.value (trim code) < 10 ^ (trim code).length := Decimal.value_lt hdigits
  have hpow : 10 ^ (trim code).length ≤ 10 ^ 8 := Nat.pow_le_pow_right (by omega) hle
  refine ⟨fun _ _ => macOf (Decimal.value (trim code)), verifyCode_iff.mpr
    ⟨key, now, hdec, now_mem_stepTimes now window, hpos, hle, ?_⟩⟩
  rw [rfcCode, dynamicTruncation_macOf (by omega), Nat.mod_eq_of_lt hlt,
    Decimal.zeroPadded_value (List.length_pos_iff.mp hpos) hdigits]

/-- Acceptance means that the six-digit code was given, for every MAC function,
exactly when the secret has no code at all, or the text has six characters, or
the text is not made of one to eight digits. -/
theorem verify_six_digits_iff (upper : Uppercase) (secretBase32 code : Text) (window : UInt8)
    (now : Nat) :
    (∀ hmac, verifyCode upper hmac secretBase32 code window now = true →
      SixDigitCode upper hmac secretBase32 window now (trim code)) ↔
    ((∃ e, base32Decode upper secretBase32 = .error e) ∨ (trim code).length = 6 ∨
      ¬ CodeShaped (trim code)) := by
  constructor
  · intro hall
    cases hdec : base32Decode upper secretBase32 with
    | error e => exact .inl ⟨e, rfl⟩
    | ok key =>
      right
      by_cases hshape : CodeShaped (trim code)
      · obtain ⟨hmac, hacc⟩ := exists_verifyCode hdec hshape window now
        obtain ⟨key', step, -, -, hcode⟩ := hall hmac hacc
        left
        rw [hcode]
        exact (rfcCode_spec hmac key' step (by omega)).1
      · exact .inr hshape
  · intro hcond hmac hacc
    obtain ⟨key, ts, hdec, hts, hpos, hle, hcode⟩ := verifyCode_iff.mp hacc
    rcases hcond with ⟨e, he⟩ | hsix | hshape
    · rw [hdec] at he
      cases he
    · refine ⟨key, ts / timeStepSecs, hdec, stepAround_of_mem_stepTimes hts, ?_⟩
      rw [hsix] at hcode
      exact hcode
    · refine absurd ⟨?_, hpos, hle⟩ hshape
      rw [hcode]
      exact (rfcCode_spec hmac key (ts / timeStepSecs) hpos).2

def rfcSecret : Text := "GEZDGNBVGY3TQOJQGEZDGNBVGY3TQOJQ".toList

/-- The MAC of the test vectors: HMAC-SHA1 under the key of `rfcSecret` for the
counters zero, one and two. -/
def rfcHmac : Hmac := fun _ message =>
  if message = toBeBytes 0 then
    ⟨[0xcc, 0x93, 0xcf, 0x18, 0x50, 0x8d, 0x94, 0x93, 0x4c, 0x64, 0xb6, 0x5d, 0x8b, 0xa7,
        0x66, 0x7f, 0xb7, 0xcd, 0xe4, 0xb0], rfl⟩
  else if message = toBeBytes 1 then
    ⟨[0x75, 0xa4, 0x8a, 0x19, 0xd4, 0xcb, 0xe1, 0x00, 0x64, 0x4e, 0x8a, 0xc1, 0x39, 0x7e,
        0xea, 0x74, 0x7a, 0x2d, 0x33, 0xab], rfl⟩
  else
    ⟨[0x0b, 0xac, 0xb7, 0xfa, 0x08, 0x2f, 0xef, 0x30, 0x78, 0x22, 0x11, 0x93, 0x8b, 0xc1,
        0xc5, 0xe7, 0x04, 0x16, 0xff, 0x44], rfl⟩

/-- At second 59 the six-digit code of the test secret is 287082, and the code
of one digit, 2, passes as well. -/
theorem verify_one_digit_accepted :
    verifyTotpCode (fun c => [c.toUpper]) rfcHmac (some rfcSecret) "287082".toList 1 59 = true ∧
    verifyTotpCode (fun c => [c.toUpper]) rfcHmac (some rfcSecret) "2".toList 1 59 = true ∧
    ¬ SixDigitCode (fun c => [c.toUpper]) rfcHmac rfcSecret 1 59 (trim "2".toList) := by
  refine ⟨by decide +kernel, by decide +kernel, ?_⟩
  rintro ⟨key, step, -, -, hcode⟩
  have hlen := (rfcCode_spec rfcHmac key step (show 0 < 6 by omega)).1
  rw [← hcode] at hlen
  exact absurd hlen (by decide)

end Bichon.Totp
