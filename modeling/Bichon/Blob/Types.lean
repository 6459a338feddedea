import Bichon.Lib.Bytes
import Mathlib.Algebra.Order.Ring.Unbundled.Rat

/-!
# Types of the blob store

The constants, the codec, the configuration and the errors of the crate, together
with the functions it takes from other crates. The latter are the fields of
`Extern`: the checksum, the hash, the two compressors and the rounding of `f64`
are parameters of everything below, and the only facts used about them are the
round trips of the compressors, which the structure carries.

A finite `f64` is a rational number, so `deleted_ratio` and its threshold are
rationals here and every operation on them is followed by `Extern.f64`.
-/

namespace Bichon.Blob

open ByteFile

/-- A content hash, `[u8; 32]`. -/
abbrev Key := {bs : Bytes // bs.length = 32}

/-- The key all of whose bytes are `b`. -/
def Key.fill (b : UInt8) : Key := ⟨List.replicate 32 b, by simp⟩

def ENTRY_MAGIC : UInt32 := 0xB3DB0001

/-- `magic(4) + crc32(4) + flags(1) + codec(1) + key(32) + raw_size(4) + data_size(4)`. -/
def ENTRY_HEADER_SIZE : Nat := 50

def SEGMENT_MAX_SIZE : Nat := 1024 * 1024 * 1024

def MAX_VALUE_SIZE : Nat := 100 * 1024 * 1024

inductive Codec where
  | none
  | zstd
  | lz4
  deriving DecidableEq, Repr

namespace Codec

def toU8 : Codec → UInt8
  | none => 0
  | zstd => 1
  | lz4 => 2

def fromU8 (v : UInt8) : Option Codec :=
  if v = 0 then some none
  else if v = 1 then some zstd
  else if v = 2 then some lz4
  else Option.none

@[simp] theorem fromU8_toU8 (c : Codec) : fromU8 c.toU8 = some c := by
  cases c <;> rfl

theorem toU8_of_fromU8 {v : UInt8} {c : Codec} (h : fromU8 v = some c) : c.toU8 = v := by
  unfold fromU8 at h
  split_ifs at h with h0 h1 h2
  · cases h
    exact h0.symm
  · cases h
    exact h1.symm
  · cases h
    exact h2.symm

end Codec

inductive IoErrorKind where
  | unexpectedEof
  | notFound
  | other
  deriving DecidableEq, Repr

/-- Why an entry was refused. -/
inductive CorruptReason where
  | badMagic (magic : UInt32)
  | unknownCodec (codec : UInt8)
  | dataSizeExceedsMax (dataSize : UInt32)
  | midFileCorruption
  deriving DecidableEq

/-- The errors the modelled functions return. A path inside an error is given by
the id of the segment it names. -/
inductive Error where
  | io (kind : IoErrorKind)
  | crcMismatch (segmentId offset : Nat)
  | corruptEntry (segmentId offset : Nat) (reason : CorruptReason)
  | segmentNotFound (segmentId : Nat)
  | valueTooLarge (size : Nat)
  | compression (codec : Codec)
  | invalidConfig (reason : String)
  deriving DecidableEq

@[simp] theorem ok_bind {α β : Type} (a : α) (f : α → Except Error β) :
    (Except.ok a >>= f) = f a := rfl

@[simp] theorem error_bind {α β : Type} (e : Error) (f : α → Except Error β) :
    (Except.error e >>= f) = .error e := rfl

structure Config where
  compressThreshold : Nat := 4096
  compressionLevel : Int := 0
  gcDeletedRatio : ℚ := 3 / 10
  flushIntervalSecs : Nat := 0
  gcIntervalSecs : Nat := 0

def Config.validate (config : Config) : Except Error Unit :=
  if config.gcDeletedRatio ≤ 0 ∨ 1 ≤ config.gcDeletedRatio then
    .error (.invalidConfig "gc_deleted_ratio must be in (0.0, 1.0)")
  else if config.compressionLevel < 0 then
    .error (.invalidConfig "compression_level must be >= 0")
  else if 0 < config.flushIntervalSecs ∧ config.flushIntervalSecs < 5 then
    .error (.invalidConfig "flush_interval_secs must be 0 (disabled) or >= 5")
  else if 0 < config.gcIntervalSecs ∧ config.gcIntervalSecs < 10 then
    .error (.invalidConfig "gc_interval_secs must be 0 (disabled) or >= 10")
  else
    .ok ()

/-- What the crate takes from elsewhere: `crc32fast`, `sha2`, `zstd`, `lz4_flex`
and the rounding to the nearest `f64`. -/
structure Extern where
  crc32 : Bytes → UInt32
  sha256 : Bytes → Key
  f64 : ℚ → ℚ
  zstdEncode : Bytes → Int → Option Bytes
  zstdDecode : Bytes → Option Bytes
  lz4Compress : Bytes → Bytes
  lz4Decompress : Bytes → Nat → Option Bytes
  zstd_roundtrip : ∀ {data level out},
    zstdEncode data level = some out → zstdDecode out = some data
  lz4_roundtrip : ∀ data, lz4Decompress (lz4Compress data) data.length = some data

section

variable (X : Extern) (data : Bytes) (codec : Codec)

/-- The output of the requested compressor and the codec it has to be read with.
A failing `zstd` falls back to the raw bytes. -/
def runCodec (level : Int) : Bytes × Codec :=
  match codec with
  | .zstd =>
    match X.zstdEncode data level with
    | some out => (out, .zstd)
    | none => (data, .none)
  | .lz4 => (X.lz4Compress data, .lz4)
  | .none => (data, .none)

/-- Store a value compressed when it is long enough and the result is shorter. -/
def compress (threshold : Nat) (level : Int) :
    Bytes × Codec :=
  if data.length < threshold then (data, .none)
  else if data.length ≤ (runCodec X data codec level).1.length then (data, .none)
  else runCodec X data codec level

def decompress (rawSize : Nat) :
    Except Error Bytes :=
  match codec with
  | .none => .ok data
  | .zstd =>
    match X.zstdDecode data with
    | some out => .ok out
    | none => .error (.compression .zstd)
  | .lz4 =>
    match X.lz4Decompress data rawSize with
    | some out => .ok out
    | none => .error (.compression .lz4)

end

section

variable (X : Extern) (data : Bytes) (codec : Codec)

include X data codec

theorem length_compress_le (threshold : Nat) (level : Int) :
    (compress X data codec threshold level).1.length ≤ data.length := by
  unfold compress
  split
  · exact le_refl data.length
  · split
    · exact le_refl data.length
    · omega

theorem decompress_runCodec (level : Int) :
    decompress X (runCodec X data codec level).1 (runCodec X data codec level).2
      data.length = .ok data := by
  cases codec with
  | none => rfl
  | zstd =>
    cases h : X.zstdEncode data level with
    | none => simp [runCodec, h, decompress]
    | some out => simp [runCodec, h, decompress, X.zstd_roundtrip h]
  | lz4 => simp [runCodec, decompress, X.lz4_roundtrip data]

theorem decompress_compress (threshold : Nat) (level : Int) :
    decompress X (compress X data codec threshold level).1
      (compress X data codec threshold level).2 data.length = .ok data := by
  unfold compress
  split
  · rfl
  · split
    · rfl
    · exact decompress_runCodec X data codec level

end

end Bichon.Blob
