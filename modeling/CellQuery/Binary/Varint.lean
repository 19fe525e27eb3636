import CellQuery.Binary.Reader

/-! # Numbers of variable length

    A natural number is written in groups of seven bits, the lowest first; every
    byte but the last has its high bit set.  A reader knows how wide the number
    may be: how many bytes it may have, and how large the last of these may be.
    Within that width a number may be written longer than it needs.

    Signed numbers are folded into the naturals first: 0, −1, 1, −2, … become
    0, 1, 2, 3, … -/

namespace CellQuery.Binary

/-! ### Writing -/

/-- The bytes of a natural number. -/
def varint (n : Nat) : List UInt8 :=
  if n < 128 then [UInt8.ofNat n]
  else UInt8.ofNat (n % 128 + 128) :: varint (n / 128)
termination_by n

/-! ### Reading -/

/-- How wide a number may be. -/
structure Width where
  /-- The number of bytes it may have. -/
  bytes : Nat
  /-- The largest value of the last of these. -/
  last : Nat

/-- Numbers of 32 bits. -/
def Width.word : Width := ⟨5, 0x0f⟩

/-- Numbers of 64 bits. -/
def Width.long : Width := ⟨10, 0x01⟩

/-- The groups of a number that may have the given number of further bytes. -/
def readGroups (last : Nat) : Nat → Reader Nat
  | 0 => Reader.fail .badVarint
  | left + 1 => do
    let b ← Reader.byte
    if b.toNat < 128 then
      -- In the last place there is room for a part of a group only.
      if left = 0 ∧ last < b.toNat then Reader.fail .badVarint else return b.toNat
    else
      let high ← readGroups last left
      return b.toNat - 128 + 128 * high

/-- A number of the given width. -/
def readVarint (width : Width) : Reader Nat :=
  readGroups width.last width.bytes

/-! ### Signed numbers -/

/-- Folds the integers into the naturals. -/
def zigzag (n : Int) : Nat :=
  if 0 ≤ n then 2 * n.toNat else 2 * (-n).toNat - 1

/-- Unfolds a natural into the integer it stands for. -/
def unzigzag (n : Nat) : Int :=
  if n % 2 = 0 then (n / 2 : Nat) else -((n / 2 : Nat) + 1 : Int)

end CellQuery.Binary
