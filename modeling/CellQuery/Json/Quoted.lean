import CellQuery.Text.Digits

/-! # Quoted strings

    A string is written between double quotes.  The quote, the backslash and the
    control characters below the space are escaped, five of them by a letter and
    the others by four hexadecimal digits; every other character stands for
    itself.

    When a string is read, an escape by hexadecimal digits names a UTF-16 unit,
    so two of them may be needed for one character.  `Piece` keeps what was
    written, and `join?` turns pieces into characters, unless a surrogate is
    left without its other half. -/

namespace CellQuery.Json

/-! ### Writing -/

/-- The short escape of a character, if it has one. -/
def shortEscape? (c : Char) : Option Char :=
  if c = '"' then some '"'
  else if c = '\\' then some '\\'
  else if c = '\x08' then some 'b'
  else if c = '\x0c' then some 'f'
  else if c = '\n' then some 'n'
  else if c = '\r' then some 'r'
  else if c = '\t' then some 't'
  else none

/-- A character as it is written between quotes. -/
def escaped (c : Char) : List Char :=
  match shortEscape? c with
  | some e => ['\\', e]
  | none =>
    if c.toNat < 32 then
      ['\\', 'u', '0', '0', Text.hexDigit (c.toNat / 16), Text.hexDigit (c.toNat % 16)]
    else [c]

/-- A string between quotes. -/
def quoted (s : List Char) : List Char :=
  '"' :: (s.flatMap escaped ++ ['"'])

/-- Items separated by commas. -/
def commaSeparated : List (List Char) → List Char
  | [] => []
  | [item] => item
  | item :: items => item ++ ',' :: commaSeparated items

/-! ### Reading -/

/-- A part of a string as it was written. -/
inductive Piece where
  /-- A character, as such or by its short escape. -/
  | char (c : Char)
  /-- A UTF-16 unit by its hexadecimal digits. -/
  | unit (n : Nat)

/-- The character that a short escape stands for. -/
def unescape? (c : Char) : Option Char :=
  if c = '"' then some '"'
  else if c = '\\' then some '\\'
  else if c = '/' then some '/'
  else if c = 'b' then some '\x08'
  else if c = 'f' then some '\x0c'
  else if c = 'n' then some '\n'
  else if c = 'r' then some '\r'
  else if c = 't' then some '\t'
  else none

/-- The value of a hexadecimal digit of either case. -/
def hexValue? (c : Char) : Option Nat :=
  if '0' ≤ c ∧ c ≤ '9' then some (c.toNat - 48)
  else if 'a' ≤ c ∧ c ≤ 'f' then some (c.toNat - 87)
  else if 'A' ≤ c ∧ c ≤ 'F' then some (c.toNat - 55)
  else none

/-- The value of four hexadecimal digits. -/
def hexUnit? (a b c d : Char) : Option Nat :=
  match hexValue? a, hexValue? b, hexValue? c, hexValue? d with
  | some a, some b, some c, some d => some (((a * 16 + b) * 16 + c) * 16 + d)
  | _, _, _, _ => none

/-- The pieces up to the closing quote, and what follows it. -/
def scanPieces : List Char → Option (List Piece × List Char)
  | [] => none
  | '"' :: rest => some ([], rest)
  | '\\' :: 'u' :: a :: b :: c :: d :: rest =>
    match hexUnit? a b c d, scanPieces rest with
    | some n, some (pieces, rest) => some (.unit n :: pieces, rest)
    | _, _ => none
  | '\\' :: e :: rest =>
    match unescape? e, scanPieces rest with
    | some c, some (pieces, rest) => some (.char c :: pieces, rest)
    | _, _ => none
  | c :: rest =>
    -- A backslash gets here only as the last character of the text.
    if c.toNat < 32 ∨ c = '\\' then none
    else
      match scanPieces rest with
      | some (pieces, rest) => some (.char c :: pieces, rest)
      | none => none

/-- The unit is the first half of a pair. -/
def isLeading (n : Nat) : Bool :=
  0xD800 ≤ n && n < 0xDC00

/-- The unit is the second half of a pair. -/
def isTrailing (n : Nat) : Bool :=
  0xDC00 ≤ n && n < 0xE000

/-- The characters of a list of pieces; a half without its partner has none. -/
def join? : List Piece → Option (List Char)
  | [] => some []
  | .char c :: pieces => (join? pieces).map (c :: ·)
  | .unit n :: pieces =>
    if isLeading n then
      match pieces with
      | .unit m :: pieces =>
        if isTrailing m then
          (join? pieces).map (Char.ofNat (0x10000 + (n - 0xD800) * 0x400 + (m - 0xDC00)) :: ·)
        else none
      | _ => none
    else if isTrailing n then none
    else (join? pieces).map (Char.ofNat n :: ·)

end CellQuery.Json
