import CellQuery.Json.Quoted

/-! # Tokens of a JSON text

    `tokens` cuts a text into tokens.  Blanks between tokens are dropped, and the
    first place where no token can be read yields `invalid`, after which nothing
    follows.

    A number without fraction and exponent that fits into 64 bits, signed or
    unsigned, is an `integer`; every other number, negative zero among them, is
    a `decimal`, of which only the grammar is checked. -/

namespace CellQuery.Json

/-- A token. -/
inductive Token where
  | openArray
  | closeArray
  | openObject
  | closeObject
  | comma
  | colon
  | null
  | bool (b : Bool)
  /-- A whole number of 64 bits. -/
  | integer (n : Int)
  /-- Any other number. -/
  | decimal
  /-- A string, without its characters if they do not make a text. -/
  | string (s : Option String)
  /-- No token starts here. -/
  | invalid
  deriving DecidableEq

/-! ### Numbers -/

/-- Digits after a mark that requires at least one, and what follows them. -/
def someDigits? (s : List Char) : Option (List Char) :=
  match s.takeWhile Char.isDigit with
  | [] => none
  | _ => some (s.dropWhile Char.isDigit)

/-- What follows an exponent, of which the letter has been read. -/
def afterExponent? : List Char → Option (List Char)
  | '+' :: rest => someDigits? rest
  | '-' :: rest => someDigits? rest
  | rest => someDigits? rest

/-- What follows the fraction and exponent of a number; `none` if there is
    neither, `some none` if one is begun and not finished. -/
def afterFraction : List Char → Option (Option (List Char))
  | '.' :: rest =>
    match someDigits? rest with
    | none => some none
    | some ('e' :: rest) => some (afterExponent? rest)
    | some ('E' :: rest) => some (afterExponent? rest)
    | some rest => some (some rest)
  | 'e' :: rest => some (afterExponent? rest)
  | 'E' :: rest => some (afterExponent? rest)
  | _ => none

/-- The token of a whole number that was written with the given sign and size. -/
def wholeNumber (negative : Bool) (size : Nat) : Token :=
  if negative then
    -- Negative zero is not a whole number here.
    if 0 < size ∧ 2 * size ≤ UInt64.size then .integer (-(size : Int)) else .decimal
  else if size < UInt64.size then .integer size
  else .decimal

/-- A number whose sign has been read. -/
def scanNumber (negative : Bool) (s : List Char) : Option (Token × List Char) :=
  let digits := s.takeWhile Char.isDigit
  let rest := s.dropWhile Char.isDigit
  if digits.isEmpty then none
  -- A zero in front of other digits is a fault.
  else if digits.head? = some '0' ∧ 1 < digits.length then none
  else
    match afterFraction rest with
    | none => some (wholeNumber negative (Nat.ofDigitChars 10 digits 0), rest)
    | some none => none
    | some (some rest) => some (.decimal, rest)

/-! ### One token -/

/-- The blanks between tokens. -/
def isBlank (c : Char) : Bool :=
  c = ' ' || c = '\t' || c = '\n' || c = '\r'

/-- The token that starts with the given character, and what follows it. -/
def scanToken (c : Char) (rest : List Char) : Option (Token × List Char) :=
  if c = '[' then some (.openArray, rest)
  else if c = ']' then some (.closeArray, rest)
  else if c = '{' then some (.openObject, rest)
  else if c = '}' then some (.closeObject, rest)
  else if c = ',' then some (.comma, rest)
  else if c = ':' then some (.colon, rest)
  else if c = '"' then
    (scanPieces rest).map fun (pieces, rest) =>
      (.string ((join? pieces).map String.ofList), rest)
  else if c = '-' then scanNumber true rest
  else if c.isDigit then scanNumber false (c :: rest)
  else
    match c, rest with
    | 'n', 'u' :: 'l' :: 'l' :: rest => some (.null, rest)
    | 't', 'r' :: 'u' :: 'e' :: rest => some (.bool true, rest)
    | 'f', 'a' :: 'l' :: 's' :: 'e' :: rest => some (.bool false, rest)
    | _, _ => none

/-! ### Every token takes something away -/

theorem scanPieces_length {s rest : List Char} {pieces : List Piece}
    (h : scanPieces s = some (pieces, rest)) : rest.length < s.length := by
  fun_induction scanPieces s generalizing pieces with
  | case1 => cases h
  | case2 =>
    cases h
    exact Nat.lt_succ_self _
  | case3 a b c d s n pieces' rest' hs _ ih =>
    -- Four digits stand between the mark and the rest.
    cases h
    have hrest := ih hs
    simp only [List.length_cons]
    omega
  | case4 => cases h
  | case5 e s _ c pieces' rest' hs _ ih =>
    cases h
    exact Nat.lt_succ_of_lt (Nat.lt_succ_of_lt (ih hs))
  | case6 => cases h
  | case7 => cases h
  | case8 c s _ _ _ _ pieces' rest' hs ih =>
    cases h
    exact Nat.lt_succ_of_lt (ih hs)
  | case9 => cases h

theorem someDigits?_length {s rest : List Char} (h : someDigits? s = some rest) :
    rest.length ≤ s.length := by
  unfold someDigits? at h
  split at h
  · simp at h
  · simp only [Option.some.injEq] at h
    exact h ▸ (List.dropWhile_suffix _).length_le

theorem afterExponent?_length {s rest : List Char} (h : afterExponent? s = some rest) :
    rest.length ≤ s.length := by
  unfold afterExponent? at h
  split at h
  · next digits => exact Nat.le_succ_of_le (someDigits?_length h)
  · next digits => exact Nat.le_succ_of_le (someDigits?_length h)
  · exact someDigits?_length h

theorem afterFraction_length {s rest : List Char} (h : afterFraction s = some (some rest)) :
    rest.length ≤ s.length := by
  have hexponent : ∀ (letter : Char) {digits : List Char},
      some (afterExponent? digits) = some (some rest) → rest.length ≤ (letter :: digits).length :=
    fun _ _ h => Nat.le_succ_of_le (afterExponent?_length (Option.some.inj h))
  unfold afterFraction at h
  split at h
  · next digits =>
    -- Behind the digits of the fraction there may be an exponent.
    split at h
    · next hnone => cases h
    · next exponent hfraction =>
      exact Nat.le_succ_of_le (Nat.le_trans (hexponent 'e' h) (someDigits?_length hfraction))
    · next exponent hfraction =>
      exact Nat.le_succ_of_le (Nat.le_trans (hexponent 'E' h) (someDigits?_length hfraction))
    · next after hfraction =>
      cases h
      exact Nat.le_succ_of_le (someDigits?_length hfraction)
  · next exponent => exact hexponent 'e' h
  · next exponent => exact hexponent 'E' h
  · next hnone => cases h

theorem scanNumber_length {negative : Bool} {s rest : List Char} {token : Token}
    (h : scanNumber negative s = some (token, rest)) : rest.length < s.length := by
  have hparts : (s.takeWhile Char.isDigit).length + (s.dropWhile Char.isDigit).length = s.length := by
    rw [← List.length_append, List.takeWhile_append_dropWhile]
  unfold scanNumber at h
  dsimp only at h
  split at h
  · next hempty => cases h
  · next hdigits =>
    have hpositive : 0 < (s.takeWhile Char.isDigit).length := by
      rw [List.length_pos_iff]
      simpa using hdigits
    split at h
    · next hzero => cases h
    · next hzero =>
      split at h
      · next hnone =>
        cases h
        omega
      · next hunfinished => cases h
      · next after hafter =>
        cases h
        have hrest := afterFraction_length hafter
        omega

theorem scanToken_length {c : Char} {s rest : List Char} {token : Token}
    (h : scanToken c s = some (token, rest)) : rest.length ≤ s.length := by
  have hmark : ∀ {mark : Token}, some (mark, s) = some (token, rest) → rest.length ≤ s.length := by
    rintro _ ⟨⟩
    exact Nat.le_refl _
  unfold scanToken at h
  split at h
  · next hopenArray => exact hmark h
  split at h
  · next hcloseArray => exact hmark h
  split at h
  · next hopenObject => exact hmark h
  split at h
  · next hcloseObject => exact hmark h
  split at h
  · next hcomma => exact hmark h
  split at h
  · next hcolon => exact hmark h
  split at h
  · next hquote =>
    obtain ⟨⟨pieces, after⟩, hpieces, hfound⟩ := Option.map_eq_some_iff.mp h
    cases hfound
    exact Nat.le_of_lt (scanPieces_length hpieces)
  split at h
  · next hminus => exact Nat.le_of_lt (scanNumber_length h)
  split at h
  · next hdigit => exact Nat.le_of_lt_succ (scanNumber_length h)
  -- What is left are the three names, each with its letters behind the first.
  split at h
  · next after =>
    cases h
    exact Nat.le_add_right rest.length 3
  · next after =>
    cases h
    exact Nat.le_add_right rest.length 3
  · next after =>
    cases h
    exact Nat.le_add_right rest.length 4
  · next hnone => cases h

/-! ### The tokens of a text -/

/-- The tokens of a text, up to the first place where there is none. -/
def tokens (s : List Char) : List Token :=
  match s with
  | [] => []
  | c :: rest =>
    if isBlank c then tokens rest
    else
      match _h : scanToken c rest with
      | none => [.invalid]
      | some (token, rest') => token :: tokens rest'
termination_by s.length
decreasing_by
  · simp
  · have := scanToken_length _h
    simp only [List.length_cons]
    omega

end CellQuery.Json
