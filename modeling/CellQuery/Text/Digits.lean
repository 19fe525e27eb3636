/-! # Numbers as text

    Naturals in decimal, without leading zeros, and bytes as two lower-case
    hexadecimal digits. -/

namespace CellQuery.Text

/-- The decimal digits of a natural number. -/
def decimal (n : Nat) : List Char :=
  Nat.toDigits 10 n

/-- One hexadecimal digit, lower case. -/
def hexDigit (n : Nat) : Char :=
  Nat.digitChar (n % 16)

/-- The two hexadecimal digits of a byte. -/
def hexByte (b : UInt8) : List Char :=
  [hexDigit (b.toNat / 16), hexDigit (b.toNat % 16)]

/-- The digits of a byte string, two for each byte. -/
def hex (bytes : List UInt8) : List Char :=
  bytes.flatMap hexByte

end CellQuery.Text
