import CellQuery.Tag
import CellQuery.Wire.Basic

/-! # Reading bytes from left to right

    A reader takes bytes from the front of a byte string and leaves the rest.
    The first fault that it meets ends the reading. -/

namespace CellQuery.Binary

/-- Why bytes could not be read. -/
inductive ReadError where
  /-- The bytes ended too early. -/
  | unexpectedEnd
  /-- A number has too many bytes, or is too large. -/
  | badVarint
  /-- A mark of presence is neither 0 nor 1. -/
  | badOption
  /-- A truth value is neither 0 nor 1. -/
  | badBool
  /-- A text is not valid UTF-8. -/
  | badText
  /-- A tag is not known. -/
  | unknownTag (e : UnknownTag)
  /-- A kind of payload is not known. -/
  | unknownPayload (index : Nat)
  /-- A node has the wrong shape. -/
  | shape (e : ShapeError)
  deriving DecidableEq

/-- Reads a value and leaves the rest of the bytes. -/
def Reader (α : Type) : Type :=
  List UInt8 → Except ReadError (α × List UInt8)

namespace Reader

/-- Reads nothing. -/
def pure {α : Type} (a : α) : Reader α :=
  fun bytes => .ok (a, bytes)

/-- Reads twice, one after the other. -/
def bind {α β : Type} (r : Reader α) (f : α → Reader β) : Reader β :=
  fun bytes =>
    match r bytes with
    | .error e => .error e
    | .ok (a, rest) => f a rest

instance : Monad Reader where
  pure := pure
  bind := bind

/-- A fault at this place. -/
def fail {α : Type} (e : ReadError) : Reader α :=
  fun _ => .error e

/-- One byte. -/
def byte : Reader UInt8
  | [] => .error .unexpectedEnd
  | b :: rest => .ok (b, rest)

/-- The given number of bytes. -/
def take (n : Nat) : Reader (List UInt8) :=
  fun bytes =>
    if n ≤ bytes.length then .ok (bytes.take n, bytes.drop n) else .error .unexpectedEnd

/-- The same reader the given number of times. -/
def times {α : Type} (r : Reader α) : Nat → Reader (List α)
  | 0 => pure []
  | n + 1 => do
    let a ← r
    let as ← times r n
    return a :: as

/-- Reads from the front of a byte string; what is left over does not matter. -/
def run {α : Type} (r : Reader α) (bytes : List UInt8) : Except ReadError α :=
  match r bytes with
  | .error e => .error e
  | .ok (a, _) => .ok a

end Reader

end CellQuery.Binary
