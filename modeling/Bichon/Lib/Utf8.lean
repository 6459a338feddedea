import Bichon.Lib.Bytes

/-!
# Texts in UTF-8

`decode` is the check a reader makes of the bytes it is given: they are the encoding of one
text, or they are refused. The two directions are one equivalence (`decode_eq_some_iff`), so
that a byte string is decoded by naming the text it encodes.
-/

namespace Utf8

open ByteFile

def encode (text : List Char) : Bytes := text.flatMap String.utf8EncodeChar

def decode (bytes : Bytes) : Option (List Char) := bytes.toByteArray.utf8Decode?.map Array.toList

@[simp] theorem encode_nil : encode [] = [] := rfl

theorem encode_cons (c : Char) (text : List Char) :
    encode (c :: text) = String.utf8EncodeChar c ++ encode text := rfl

theorem encode_append (text rest : List Char) :
    encode (text ++ rest) = encode text ++ encode rest := by
  simp [encode]

theorem decode_encode (text : List Char) : decode (encode text) = some text := by
  have h : (encode text).toByteArray = text.utf8Encode := rfl
  rw [decode, h, List.utf8Decode?_utf8Encode, Option.map_some, List.toList_toArray]

theorem decode_eq_some_iff {bytes : Bytes} {text : List Char} :
    decode bytes = some text ↔ encode text = bytes := by
  constructor
  · intro h
    obtain ⟨chars, hchars, rfl⟩ := Option.map_eq_some_iff.mp h
    have hsome : bytes.toByteArray.utf8Decode?.isSome = true := by rw [hchars]; rfl
    have hbytes := ByteArray.utf8Encode_get_utf8Decode? (h := hsome)
    simp only [hchars, Option.get_some] at hbytes
    have hlist := congrArg (fun b => b.data.toList) hbytes
    simp only [List.utf8Encode, List.data_toByteArray] at hlist
    exact hlist
  · rintro rfl
    exact decode_encode text

theorem decode_encodeChar_append (c : Char) (bytes : Bytes) :
    decode (String.utf8EncodeChar c ++ bytes) = (decode bytes).map (c :: ·) := by
  have h : (String.utf8EncodeChar c ++ bytes).toByteArray =
      [c].utf8Encode ++ bytes.toByteArray := by
    rw [List.toByteArray_append, List.utf8Encode_singleton]
  rw [decode, h, ByteArray.utf8Decode?_utf8Encode_singleton_append, decode, Option.map_map,
    Option.map_map]
  congr 1
  funext chars
  simp

theorem decode_encode_append (text : List Char) (bytes : Bytes) :
    decode (encode text ++ bytes) = (decode bytes).map (text ++ ·) := by
  induction text with
  | nil => simp
  | cons c text ih =>
    rw [encode_cons, List.append_assoc, decode_encodeChar_append, ih, Option.map_map]
    rfl

end Utf8
