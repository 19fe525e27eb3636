import CellQuery.Binary.Wire
import Mathlib.Algebra.Group.Nat.Defs

/-! # The binary format as a grammar

    Which byte strings stand for which values, said without a reader or a
    writer.  A number may be written in several ways, so a format relates a
    thing to all the byte strings that spell it:

    * numbers in groups of seven bits, the lowest first, within a width;
    * integers folded into the naturals;
    * a mark in front of what may be missing;
    * the index of a variant in front of its content;
    * the number of items in front of a sequence. -/

namespace CellQuery

namespace Binary

/-- Which byte strings spell which things. -/
abbrev Format (α : Type) : Type :=
  α → List UInt8 → Prop

/-! ## Numbers -/

/-- Groups of seven bits, the lowest first: the high bit of a byte says that
    more of them follow. -/
inductive Groups : Format Nat
  | last {b : UInt8} : b.toNat < 128 → Groups b.toNat [b]
  | more {b : UInt8} {n : Nat} {bytes : List UInt8} :
      128 ≤ b.toNat → Groups n bytes → Groups (b.toNat - 128 + 128 * n) (b :: bytes)

/-- The first number that is too large for a width. -/
def Width.bound (width : Width) : Nat :=
  128 ^ (width.bytes - 1) * (width.last + 1)

example : Width.word.bound = 2 ^ 32 ∧ Width.long.bound = 2 ^ 64 := by decide

/-- A number of a width, in as many bytes as the width allows. -/
def Width.Spells (width : Width) : Format Nat := fun n bytes =>
  Groups n bytes ∧ bytes.length ≤ width.bytes ∧ n < width.bound

/-- The integers 0, −1, 1, −2, … as the naturals 0, 1, 2, 3, … -/
inductive Folded : Int → Nat → Prop
  | natural (k : Nat) : Folded k (2 * k)
  | negative (k : Nat) : Folded (-(k + 1)) (2 * k + 1)

/-! ## Options and sequences -/

/-- A thing that may be missing: a byte 0, or a byte 1 and the thing. -/
inductive Optional {α : Type} (item : Format α) : Format (Option α)
  | none : Optional item none [0]
  | some {a : α} {bytes : List UInt8} : item a bytes → Optional item (some a) (1 :: bytes)

/-- Things one after another. -/
inductive Sequence {α : Type} (item : Format α) : Format (List α)
  | nil : Sequence item [] []
  | cons {a : α} {as : List α} {front back : List UInt8} :
      item a front → Sequence item as back → Sequence item (a :: as) (front ++ back)

/-- Things one after another, and their number in front. -/
inductive Counted {α : Type} (item : Format α) : Format (List α)
  | intro {as : List α} {count items : List UInt8} :
      Width.long.Spells as.length count → Sequence item as items →
      Counted item as (count ++ items)

/-- A byte string, and its length in front. -/
def Measured : Format (List UInt8) :=
  Counted fun b bytes => bytes = [b]

/-- A text in UTF-8, and its length in front. -/
def Text : Format String := fun s bytes =>
  Measured s.toUTF8.data.toList bytes

end Binary

open Binary

/-! ## Wire values -/

/-- A tag by its number. -/
def Tag.Spelled : Format Tag := fun tag bytes =>
  ∃ n, Folded tag.number.toInt n ∧ Width.word.Spells n bytes

/-- The content of a payload of the kind with the given index. -/
inductive Primitive.Content : Nat → Format Primitive
  | truth (b : Bool) : Content 0 (.truth b) [if b then 1 else 0]
  | number {n : UInt64} {bytes : List UInt8} :
      Width.long.Spells n.toNat bytes → Content 1 (.number n) bytes
  | raw {data bytes : List UInt8} : Measured data bytes → Content 2 (.raw data) bytes

/-- A payload: the index of its kind, then its content. -/
def Primitive.Spelled : Format Primitive := fun p bytes =>
  ∃ kind front back, Width.word.Spells kind front ∧ Primitive.Content kind p back ∧
    bytes = front ++ back

/-- A wire value: its tag, its payload and its children. -/
inductive Wire.Spelled : Format Wire
  | intro {tag : Tag} {primitive : Option Primitive} {children : List Wire}
      {head payload below : List UInt8} :
      tag.Spelled head → Optional Primitive.Spelled primitive payload →
      Counted Wire.Spelled children below →
      Wire.Spelled ⟨tag, primitive, children⟩ (head ++ (payload ++ below))

/-! ## Values, calls and roots -/

/-- A well-formed value, as its wire value. -/
def Value.Spelled : Format Value := fun v bytes =>
  v.WellFormed ∧ (Wire.ofValue v).Spelled bytes

/-- A call: its name, then its expression. -/
def Call.Spelled : Format Call := fun call bytes =>
  ∃ front back, Text call.name front ∧ call.result.Spelled back ∧ bytes = front ++ back

/-- A root: its calls. -/
def Root.Spelled : Format Root := fun root bytes =>
  Counted Call.Spelled root.calls bytes

end CellQuery
