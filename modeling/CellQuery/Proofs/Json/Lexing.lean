import CellQuery.Json.Token
import CellQuery.Proofs.Json.Quoted
import Mathlib.Data.Nat.Init

/-! # Texts that are cut into given tokens

    `Lexes text ts` says that a text is cut into the given tokens, whatever follows it.
    A number alone does not know where it ends, so what follows must not go on
    with it.  The relation is shown of the texts of all tokens that are written, and
    it is kept when a mark is put in front of a text or between two. -/

namespace CellQuery.Json

/-! ## What follows a text -/

/-- A number that stands before the text ends there. -/
def EndsNumber : List Char → Prop
  | [] => True
  | c :: _ => c.isDigit = false ∧ c ≠ '.' ∧ c ≠ 'e' ∧ c ≠ 'E'

/-- The text is cut into the tokens, whatever follows it. -/
def Lexes (text : List Char) (ts : List Token) : Prop :=
  ∀ rest, EndsNumber rest → tokens (text ++ rest) = ts ++ tokens rest

theorem tokens_nil : tokens [] = [] := by
  rw [tokens]

theorem Lexes.tokens_eq {text : List Char} {ts : List Token} (h : Lexes text ts) :
    tokens text = ts := by
  have hall := h [] trivial
  rwa [tokens_nil, List.append_nil, List.append_nil] at hall

/-! ## Single tokens -/

theorem tokens_cons {c : Char} {rest rest' : List Char} {token : Token}
    (hblank : isBlank c = false) (hscan : scanToken c rest = some (token, rest')) :
    tokens (c :: rest) = token :: tokens rest' := by
  rw [tokens]
  simp only [hblank, Bool.false_eq_true, if_false]
  split
  · next hnone =>
    rw [hscan] at hnone
    cases hnone
  · next hsome =>
    rw [hscan] at hsome
    cases hsome
    rfl

/-- The tokens that are one character. -/
def marks : List (Char × Token) :=
  [('[', .openArray), (']', .closeArray), ('{', .openObject), ('}', .closeObject),
   (',', .comma), (':', .colon)]

theorem tokens_mark {c : Char} {token : Token} (h : (c, token) ∈ marks) (rest : List Char) :
    tokens (c :: rest) = token :: tokens rest := by
  simp only [marks, List.mem_cons, List.not_mem_nil, or_false, Prod.mk.injEq] at h
  rcases h with ⟨rfl, rfl⟩ | ⟨rfl, rfl⟩ | ⟨rfl, rfl⟩ | ⟨rfl, rfl⟩ | ⟨rfl, rfl⟩ | ⟨rfl, rfl⟩ <;>
    exact tokens_cons rfl rfl

/-- A mark ends any number before it. -/
theorem endsNumber_mark {c : Char} {token : Token} (h : (c, token) ∈ marks) (rest : List Char) :
    EndsNumber (c :: rest) := by
  have hall : ∀ mark ∈ marks, mark.1.isDigit = false ∧ mark.1 ≠ '.' ∧ mark.1 ≠ 'e' ∧
    mark.1 ≠ 'E' := by decide
  exact hall _ h

theorem lexes_null : Lexes ['n', 'u', 'l', 'l'] [.null] :=
  fun _ _ => tokens_cons rfl rfl

theorem lexes_true : Lexes ['t', 'r', 'u', 'e'] [.bool true] :=
  fun _ _ => tokens_cons rfl rfl

theorem lexes_false : Lexes ['f', 'a', 'l', 's', 'e'] [.bool false] :=
  fun _ _ => tokens_cons rfl rfl

theorem lexes_quoted (s : String) : Lexes (quoted s.toList) [.string (some s)] := by
  intro rest _
  have hscan : scanToken '"' (s.toList.flatMap escaped ++ '"' :: rest) =
      some (.string (some s), rest) := by
    simp [scanToken, scanPieces_quoted, join?_pieces]
  have htext : quoted s.toList ++ rest = '"' :: (s.toList.flatMap escaped ++ '"' :: rest) := by
    simp [quoted]
  rw [htext]
  exact tokens_cons rfl hscan

/-! ## Numbers -/

theorem isDigit_of_mem_decimal {n : Nat} {c : Char} (h : c ∈ Text.decimal n) :
    c.isDigit = true :=
  Nat.isDigit_of_mem_toDigits (by decide) (by decide) h

theorem takeWhile_isDigit {ds rest : List Char} (hds : ∀ c ∈ ds, c.isDigit = true)
    (hrest : EndsNumber rest) : (ds ++ rest).takeWhile Char.isDigit = ds := by
  rw [List.takeWhile_append_of_pos hds]
  cases rest with
  | nil => simp
  | cons c rest => simp [hrest.1]

theorem dropWhile_isDigit {ds rest : List Char} (hds : ∀ c ∈ ds, c.isDigit = true)
    (hrest : EndsNumber rest) : (ds ++ rest).dropWhile Char.isDigit = rest := by
  rw [List.dropWhile_append_of_pos hds]
  cases rest with
  | nil => rfl
  | cons c rest => simp [hrest.1]

/-- Only zero is written with a zero in front. -/
theorem decimal_head_zero {n : Nat} (h : (Text.decimal n).head? = some '0') : n = 0 := by
  induction n using Nat.strong_induction_on with
  | _ n ih =>
    unfold Text.decimal at h ih
    rcases Nat.lt_or_ge n 10 with hlt | hge
    · rw [Nat.toDigits_of_lt_base hlt] at h
      simpa using h
    · -- A larger number starts as its tenth does, which is not zero.
      have hhead : (Nat.toDigits 10 (n / 10)).head? = some '0' := by
        rw [Nat.toDigits_of_base_le (by decide) hge, List.head?_append] at h
        cases hdigits : Nat.toDigits 10 (n / 10) with
        | nil => exact absurd hdigits Nat.toDigits_ne_nil
        | cons d ds => simpa [hdigits] using h
      have htenth := ih (n / 10) (by omega) hhead
      omega

/-- A character that is no digit differs from every digit. -/
theorem ne_of_isDigit {c d : Char} (hc : c.isDigit = true) (hd : d.isDigit = false) : c ≠ d := by
  rintro rfl
  rw [hc] at hd
  cases hd

theorem isBlank_of_isDigit {c : Char} (hc : c.isDigit = true) : isBlank c = false := by
  have hspace : c ≠ ' ' := ne_of_isDigit hc rfl
  have htab : c ≠ '\t' := ne_of_isDigit hc rfl
  have hnewline : c ≠ '\n' := ne_of_isDigit hc rfl
  have hreturn : c ≠ '\r' := ne_of_isDigit hc rfl
  simp [isBlank, hspace, htab, hnewline, hreturn]

/-- A digit starts a number. -/
theorem scanToken_of_isDigit {c : Char} (hc : c.isDigit = true) (rest : List Char) :
    scanToken c rest = scanNumber false (c :: rest) := by
  have hne : ∀ d : Char, d.isDigit = false → c ≠ d := fun _ => ne_of_isDigit hc
  unfold scanToken
  rw [if_neg (hne '[' rfl), if_neg (hne ']' rfl), if_neg (hne '{' rfl), if_neg (hne '}' rfl),
    if_neg (hne ',' rfl), if_neg (hne ':' rfl), if_neg (hne '"' rfl), if_neg (hne '-' rfl),
    if_pos hc]

theorem lexes_decimal (n : UInt64) : Lexes (Text.decimal n.toNat) [.integer n.toNat] := by
  intro rest hrest
  have hdigits : ∀ c ∈ Text.decimal n.toNat, c.isDigit = true := fun c => isDigit_of_mem_decimal
  have htake := takeWhile_isDigit hdigits hrest
  have hdrop := dropWhile_isDigit hdigits hrest
  have hzero : ¬((Text.decimal n.toNat).head? = some '0' ∧ 1 < (Text.decimal n.toNat).length) := by
    rintro ⟨hhead, hlong⟩
    rw [decimal_head_zero hhead] at hlong
    exact absurd hlong (by decide)
  have hfraction : afterFraction rest = none := by
    cases rest with
    | nil => rfl
    | cons c rest =>
      obtain ⟨_, hpoint, he, hE⟩ := hrest
      unfold afterFraction
      split <;> simp_all
  have hvalue : Nat.ofDigitChars 10 (Text.decimal n.toNat) 0 = n.toNat :=
    Nat.ofDigitChars_toDigits (by decide) (by decide)
  have hscan : scanNumber false (Text.decimal n.toNat ++ rest) =
      some (.integer n.toNat, rest) := by
    have hne : (Text.decimal n.toNat).isEmpty = false := by simp [Text.decimal]
    simp [scanNumber, htake, hdrop, hne, hzero, hfraction, hvalue, wholeNumber,
      UInt64.toNat_lt_size]
  -- The first digit decides that a number starts here.
  cases hdecimal : Text.decimal n.toNat with
  | nil => simp [Text.decimal] at hdecimal
  | cons c ds =>
    have hc : c.isDigit = true := hdigits c (by rw [hdecimal]; exact List.mem_cons_self)
    rw [hdecimal] at hscan
    refine tokens_cons (isBlank_of_isDigit hc) ?_
    rw [scanToken_of_isDigit hc]
    exact hscan

/-! ## Texts put together -/

theorem lexes_nil : Lexes [] [] :=
  fun _ _ => rfl

/-- A mark goes in front of any text. -/
theorem Lexes.mark {c : Char} {token : Token} {text : List Char} {ts : List Token}
    (hmark : (c, token) ∈ marks) (h : Lexes text ts) : Lexes (c :: text) (token :: ts) := by
  intro rest hrest
  rw [List.cons_append, tokens_mark hmark, h rest hrest, List.cons_append]

/-- A mark separates two texts, also where the first of them is a number. -/
theorem Lexes.append_mark {c : Char} {token : Token} {text more : List Char} {ts us : List Token}
    (h : Lexes text ts) (hmark : (c, token) ∈ marks) (hmore : Lexes more us) :
    Lexes (text ++ c :: more) (ts ++ token :: us) := by
  intro rest hrest
  have hend : EndsNumber (c :: (more ++ rest)) := endsNumber_mark hmark _
  rw [List.append_assoc, List.cons_append, h _ hend, tokens_mark hmark, hmore rest hrest]
  simp

end CellQuery.Json
