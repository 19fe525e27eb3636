import CellQuery.Json.Quoted

/-! # Quoted strings are read back

    Every character is written as one piece: as such, by its short escape, or, for the
    remaining control characters, by the digits of a unit.  What is scanned up to
    the closing quote are these pieces, and together they make the characters again. -/

namespace CellQuery.Json

/-! ## One character -/

/-- The piece as which a character is written. -/
def pieceOf (c : Char) : Piece :=
  match shortEscape? c with
  | some _ => .char c
  | none => if c.toNat < 32 then .unit c.toNat else .char c

/-- A short escape stands for the character that is written by it. -/
theorem unescape?_of_shortEscape? {c e : Char} (h : shortEscape? c = some e) :
    unescape? e = some c ∧ e ≠ 'u' := by
  unfold shortEscape? at h
  repeat'
    split at h
    next hc =>
      cases h
      rw [hc]
      decide
  cases h

/-- What has no short escape is neither a quote nor a backslash. -/
theorem plain_of_shortEscape? {c : Char} (h : shortEscape? c = none) : c ≠ '"' ∧ c ≠ '\\' := by
  constructor
  · rintro rfl
    cases h
  · rintro rfl
    cases h

/-- The digits of a control character name the character. -/
theorem hexUnit?_control {n : Nat} (h : n < 32) :
    hexUnit? '0' '0' (Text.hexDigit (n / 16)) (Text.hexDigit (n % 16)) = some n := by
  have hall : ∀ n < 32,
      hexUnit? '0' '0' (Text.hexDigit (n / 16)) (Text.hexDigit (n % 16)) = some n := by decide
  exact hall n h

/-- What is written for a character is scanned as its piece. -/
theorem scanPieces_escaped (c : Char) (rest : List Char) :
    scanPieces (escaped c ++ rest) =
      (scanPieces rest).map fun (pieces, rest) => (pieceOf c :: pieces, rest) := by
  unfold escaped pieceOf
  cases hshort : shortEscape? c with
  | some e =>
    obtain ⟨hc, hu⟩ := unescape?_of_shortEscape? hshort
    show scanPieces ('\\' :: e :: rest) = _
    rw [scanPieces.eq_def]
    cases hrest : scanPieces rest <;> simp [hc, hu, hrest]
  | none =>
    obtain ⟨hquote, hbackslash⟩ := plain_of_shortEscape? hshort
    by_cases hcontrol : c.toNat < 32
    · simp only [hcontrol, if_true]
      show scanPieces ('\\' :: 'u' :: '0' :: '0' :: _ :: _ :: rest) = _
      rw [scanPieces, hexUnit?_control hcontrol]
      cases scanPieces rest <;> rfl
    · simp only [hcontrol, if_false]
      show scanPieces (c :: rest) = _
      rw [scanPieces.eq_def]
      cases hrest : scanPieces rest <;> simp [hbackslash, hcontrol, hrest]

theorem join?_pieceOf (c : Char) (pieces : List Piece) :
    join? (pieceOf c :: pieces) = (join? pieces).map (c :: ·) := by
  unfold pieceOf
  cases shortEscape? c with
  | some e => rfl
  | none =>
    by_cases hcontrol : c.toNat < 32
    · -- A control character lies far below the halves of pairs.
      have hleading : isLeading c.toNat = false := by
        unfold isLeading
        simp only [Bool.and_eq_false_iff, decide_eq_false_iff_not]
        omega
      have htrailing : isTrailing c.toNat = false := by
        unfold isTrailing
        simp only [Bool.and_eq_false_iff, decide_eq_false_iff_not]
        omega
      simp only [hcontrol, if_true]
      rw [join?.eq_def]
      simp [hleading, htrailing, Char.ofNat_toNat]
    · simp [hcontrol, join?]

/-! ## Whole strings -/

/-- The pieces of a string are scanned up to the quote that closes it. -/
theorem scanPieces_quoted (s rest : List Char) :
    scanPieces (s.flatMap escaped ++ '"' :: rest) = some (s.map pieceOf, rest) := by
  induction s with
  | nil => rfl
  | cons c s ih =>
    rw [List.flatMap_cons, List.append_assoc, scanPieces_escaped, ih]
    rfl

/-- The pieces of a string make the string. -/
theorem join?_pieces (s : List Char) : join? (s.map pieceOf) = some s := by
  induction s with
  | nil => rfl
  | cons c s ih => rw [List.map_cons, join?_pieceOf, ih, Option.map_some]

end CellQuery.Json
