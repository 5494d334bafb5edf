import ActionTools.Json.Printer

/-!
# Random identifiers

An identifier drawn at random is a version 4 UUID: sixteen random bytes, six bits of which are
fixed, in upper-case hexadecimal with four hyphens.
-/

namespace ActionTools.Uuid

/-- Two upper-case hexadecimal digits. -/
def byteChars (byte : UInt8) : List Char :=
  [(Json.hexDigit (byte.toNat / 16)).toUpper, (Json.hexDigit byte.toNat).toUpper]

/-- The digits of bytes, those after the fourth, sixth, eighth and tenth set off by hyphens. -/
def chars (bytes : List UInt8) : List Char :=
  let part (start size : Nat) : List Char := ((bytes.drop start).take size).flatMap byteChars
  ['-'].intercalate [part 0 4, part 4 2, part 6 2, part 8 2, part 10 6]

/-- Bytes with the bits set that mark version and variant. -/
def mark (bytes : List UInt8) : List UInt8 :=
  (bytes.modify 6 fun byte ↦ (byte &&& 0x0F) ||| 0x40).modify 8 fun byte ↦ (byte &&& 0x3F) ||| 0x80

/-- The identifier of sixteen bytes. -/
def text (bytes : List UInt8) : String := String.ofList (chars (mark bytes))

end ActionTools.Uuid
