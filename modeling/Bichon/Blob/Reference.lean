import Bichon.Blob.Gc

/-!
# External functions that can be evaluated

CRC-32 and SHA-256 as they are specified, so that the model can be run on concrete
inputs. Ratios are left as they are: `reference` rounds correctly only where the
quotient is a binary fraction. Its `zstd` always fails and its `lz4` copies; neither
is reached for values below the compression threshold.
-/

namespace Bichon.Blob

open ByteFile

/-! ## CRC-32 -/

def crcBit (crc : UInt32) : UInt32 :=
  if crc &&& 1 = 1 then (crc >>> 1) ^^^ 0xEDB88320 else crc >>> 1

def crcByte (crc : UInt32) (b : UInt8) : UInt32 :=
  (List.range 8).foldl (fun crc _ => crcBit crc) (crc ^^^ b.toUInt32)

def crc32 (bs : Bytes) : UInt32 := bs.foldl crcByte 0xFFFFFFFF ^^^ 0xFFFFFFFF

/-- The check value of the algorithm, for the text `123456789`. -/
example : crc32 [49, 50, 51, 52, 53, 54, 55, 56, 57] = 0xCBF43926 := by decide +kernel

/-! ## SHA-256 -/

def toBeBytes (w : UInt32) : Bytes := (toLeBytes w).reverse

def fromBeBytes (bs : Bytes) : UInt32 := fromLeBytes bs.reverse

def rotr (w n : UInt32) : UInt32 := (w >>> n) ||| (w <<< (32 - n))

def shaConstants : List UInt32 :=
  [0x428a2f98, 0x71374491, 0xb5c0fbcf, 0xe9b5dba5, 0x3956c25b, 0x59f111f1, 0x923f82a4, 0xab1c5ed5,
   0xd807aa98, 0x12835b01, 0x243185be, 0x550c7dc3, 0x72be5d74, 0x80deb1fe, 0x9bdc06a7, 0xc19bf174,
   0xe49b69c1, 0xefbe4786, 0x0fc19dc6, 0x240ca1cc, 0x2de92c6f, 0x4a7484aa, 0x5cb0a9dc, 0x76f988da,
   0x983e5152, 0xa831c66d, 0xb00327c8, 0xbf597fc7, 0xc6e00bf3, 0xd5a79147, 0x06ca6351, 0x14292967,
   0x27b70a85, 0x2e1b2138, 0x4d2c6dfc, 0x53380d13, 0x650a7354, 0x766a0abb, 0x81c2c92e, 0x92722c85,
   0xa2bfe8a1, 0xa81a664b, 0xc24b8b70, 0xc76c51a3, 0xd192e819, 0xd6990624, 0xf40e3585, 0x106aa070,
   0x19a4c116, 0x1e376c08, 0x2748774c, 0x34b0bcb5, 0x391c0cb3, 0x4ed8aa4a, 0x5b9cca4f, 0x682e6ff3,
   0x748f82ee, 0x78a5636f, 0x84c87814, 0x8cc70208, 0x90befffa, 0xa4506ceb, 0xbef9a3f7, 0xc67178f2]

structure ShaState where
  (a b c d e f g h : UInt32)

def shaInit : ShaState :=
  ⟨0x6a09e667, 0xbb67ae85, 0x3c6ef372, 0xa54ff53a, 0x510e527f, 0x9b05688c, 0x1f83d9ab, 0x5be0cd19⟩

/-- The next word of the message schedule, from the sixteen before it. -/
def shaNext (w : List UInt32) : UInt32 :=
  let x := w.getD 1 0
  let y := w.getD 14 0
  w.getD 0 0 + (rotr x 7 ^^^ rotr x 18 ^^^ (x >>> 3)) + w.getD 9 0 +
    (rotr y 17 ^^^ rotr y 19 ^^^ (y >>> 10))

def shaRound (s : ShaState) (k w : UInt32) : ShaState :=
  let t₁ := s.h + (rotr s.e 6 ^^^ rotr s.e 11 ^^^ rotr s.e 25) +
    ((s.e &&& s.f) ^^^ (~~~ s.e &&& s.g)) + k + w
  let t₂ := (rotr s.a 2 ^^^ rotr s.a 13 ^^^ rotr s.a 22) +
    ((s.a &&& s.b) ^^^ (s.a &&& s.c) ^^^ (s.b &&& s.c))
  ⟨t₁ + t₂, s.a, s.b, s.c, s.d + t₁, s.e, s.f, s.g⟩

def shaRounds : List UInt32 → List UInt32 → ShaState → ShaState
  | [], _, s => s
  | k :: ks, w, s => shaRounds ks (w.tail ++ [shaNext w]) (shaRound s k (w.headD 0))

def shaWords : Bytes → List UInt32
  | a :: b :: c :: d :: rest => fromBeBytes [a, b, c, d] :: shaWords rest
  | _ => []

def shaBlock (s : ShaState) (block : Bytes) : ShaState :=
  let t := shaRounds shaConstants (shaWords block) s
  ⟨s.a + t.a, s.b + t.b, s.c + t.c, s.d + t.d, s.e + t.e, s.f + t.f, s.g + t.g, s.h + t.h⟩

def shaBlocks : Nat → Bytes → ShaState → ShaState
  | 0, _, s => s
  | n + 1, bs, s => shaBlocks n (bs.drop 64) (shaBlock s (bs.take 64))

def shaPad (bs : Bytes) : Bytes :=
  bs ++ [0x80] ++ List.replicate ((119 - bs.length % 64) % 64) 0 ++
    toBeBytes (UInt32.ofNat (bs.length * 8 / 2 ^ 32)) ++ toBeBytes (UInt32.ofNat (bs.length * 8))

def ShaState.digest (s : ShaState) : Key where
  val := toBeBytes s.a ++ toBeBytes s.b ++ toBeBytes s.c ++ toBeBytes s.d ++ toBeBytes s.e ++
    toBeBytes s.f ++ toBeBytes s.g ++ toBeBytes s.h
  property := by simp [toBeBytes]

def sha256 (bs : Bytes) : Key := (shaBlocks ((shaPad bs).length / 64) (shaPad bs) shaInit).digest

/-- The digest of the text `abc`. -/
example : (sha256 [97, 98, 99]).val =
    [0xba, 0x78, 0x16, 0xbf, 0x8f, 0x01, 0xcf, 0xea, 0x41, 0x41, 0x40, 0xde, 0x5d, 0xae, 0x22,
      0x23, 0xb0, 0x03, 0x61, 0xa3, 0x96, 0x17, 0x7a, 0x9c, 0xb4, 0x10, 0xff, 0x61, 0xf2, 0x00,
      0x15, 0xad] := by
  decide +kernel

def reference : Extern where
  crc32 := crc32
  sha256 := sha256
  f64 := id
  zstdEncode := fun _ _ => none
  zstdDecode := fun _ => none
  lz4Compress := id
  lz4Decompress := fun data _ => some data
  zstd_roundtrip := fun h => by cases h
  lz4_roundtrip := fun _ => rfl

/-- A configuration whose threshold is a binary fraction. -/
def quarterConfig : Config := { gcDeletedRatio := 1 / 4 }

theorem validate_quarterConfig : quarterConfig.validate = .ok () := by
  norm_num [Config.validate, quarterConfig]

end Bichon.Blob
