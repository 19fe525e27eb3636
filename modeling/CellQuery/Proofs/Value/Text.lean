import CellQuery.Proofs.Json.Lexing
import CellQuery.Proofs.Tag.Lookup
import CellQuery.Proofs.Value.Subtree
import CellQuery.Value.Text

/-! # Values are known by their texts

    A text begins with the name of a tag.  All names are words, and so are the payloads
    of the leaves, so the first character that stands in no word shows where
    a name or a payload ends.  What is between the parentheses is a payload if it begins with
    a digit or a small letter, and texts of children if it begins with a capital.

    * `Text.word_append_inj`: a word is known even if something follows it.
    * `Value.chars_append_inj`: so is the text of a value, if a comma or a closing
      parenthesis follows it, or nothing.  The induction is over the value by its children. -/

namespace CellQuery

namespace Text

/-! ## Words -/

/-- The character may stand in a name or a payload. -/
def inWord (c : Char) : Bool :=
  c.isAlphanum || c = '_'

/-- No word goes on with this text. -/
def EndsWord (rest : List Char) : Prop :=
  ∀ c ∈ rest.head?, inWord c = false

theorem takeWhile_inWord {word rest : List Char} (hword : ∀ c ∈ word, inWord c = true)
    (hrest : EndsWord rest) : (word ++ rest).takeWhile inWord = word := by
  rw [List.takeWhile_append_of_pos hword]
  cases rest with
  | nil => simp
  | cons c rest => simp [hrest c rfl]

/-- Where two texts begin with words, the words and what follows them are the same if the texts
    are. -/
theorem word_append_inj {word word' rest rest' : List Char}
    (hword : ∀ c ∈ word, inWord c = true) (hword' : ∀ c ∈ word', inWord c = true)
    (hrest : EndsWord rest) (hrest' : EndsWord rest') (h : word ++ rest = word' ++ rest') :
    word = word' ∧ rest = rest' := by
  have hsame : word = word' := by
    rw [← takeWhile_inWord hword hrest, h, takeWhile_inWord hword' hrest']
  subst hsame
  exact ⟨rfl, List.append_cancel_left h⟩

theorem inWord_of_isDigit {c : Char} (h : c.isDigit = true) : inWord c = true := by
  simp [inWord, Char.isAlphanum, h]

theorem inWord_decimal {n : Nat} : ∀ c ∈ decimal n, inWord c = true :=
  fun _ hc => inWord_of_isDigit (Json.isDigit_of_mem_decimal hc)

/-- No digit is a capital. -/
theorem isUpper_of_isDigit {c : Char} (h : c.isDigit = true) : c.isUpper = false := by
  have hnine : c.val ≤ '9'.val := by
    rw [Char.isDigit, Bool.and_eq_true] at h
    exact of_decide_eq_true h.2
  have hcapital : ¬c.val ≥ 'A'.val := UInt32.not_le.mpr (UInt32.lt_of_le_of_lt hnine (by decide))
  have hnone : ¬(c.val ≥ 'A'.val ∧ c.val ≤ 'Z'.val) := fun h => hcapital h.1
  exact decide_eq_false hnone

theorem decimal_inj {m n : Nat} (h : decimal m = decimal n) : m = n := by
  have hvalue : ∀ k, Nat.ofDigitChars 10 (decimal k) 0 = k :=
    fun k => Nat.ofDigitChars_toDigits (by decide) (by decide)
  rw [← hvalue m, h, hvalue n]

theorem inWord_hex {data : List UInt8} : ∀ c ∈ hex data, inWord c = true := by
  have hdigit : ∀ n < 16, inWord (Nat.digitChar n) = true := by decide
  intro c hc
  obtain ⟨b, _, hb⟩ := List.mem_flatMap.mp hc
  simp only [hexByte, hexDigit, List.mem_cons, List.not_mem_nil, or_false] at hb
  rcases hb with rfl | rfl
  · exact hdigit _ (Nat.mod_lt _ (by decide))
  · exact hdigit _ (Nat.mod_lt _ (by decide))

theorem hexByte_inj {a b : UInt8} (h : hexByte a = hexByte b) : a = b := by
  have hdigit : ∀ m < 16, ∀ n < 16, Nat.digitChar m = Nat.digitChar n → m = n := by decide
  have ha := UInt8.toNat_lt a
  have hb := UInt8.toNat_lt b
  simp only [hexByte, hexDigit, List.cons.injEq, and_true] at h
  have hhigh := hdigit _ (Nat.mod_lt _ (by decide)) _ (Nat.mod_lt _ (by decide)) h.1
  have hlow := hdigit _ (Nat.mod_lt _ (by decide)) _ (Nat.mod_lt _ (by decide)) h.2
  apply UInt8.toNat_inj.mp
  omega

theorem hex_inj {data data' : List UInt8} (h : hex data = hex data') : data = data' := by
  induction data generalizing data' with
  | nil =>
    cases data' with
    | nil => rfl
    | cons b data' => cases h
  | cons a data ih =>
    cases data' with
    | nil => cases h
    | cons b data' =>
      -- The digits of the first byte are the first two.
      have hdigits : hexByte a ++ hex data = hexByte b ++ hex data' := h
      obtain ⟨hbyte, hrest⟩ := List.append_inj hdigits rfl
      rw [hexByte_inj hbyte, ih hrest]

end Text

namespace Value

open Text

/-! ## Names -/

theorem inWord_name (tag : Tag) : ∀ c ∈ tag.name.toList, inWord c = true := by
  have hall : tag.name.toList.all inWord = true := by cases tag <;> decide
  exact List.all_eq_true.mp hall

theorem name_inj {s t : Tag} (h : s.name.toList = t.name.toList) : s = t := by
  have hs : Tag.ofName? t.name = some s := Tag.ofName?_eq_some.mpr (String.toList_inj.mp h)
  have ht : Tag.ofName? t.name = some t := Tag.ofName?_eq_some.mpr rfl
  exact Option.some.inj (hs.symm.trans ht)

/-- A name begins with a capital. -/
theorem head_name (tag : Tag) : ∃ c cs, tag.name.toList = c :: cs ∧ c.isUpper = true := by
  cases tag <;> exact ⟨_, _, rfl, rfl⟩

/-! ## A name and what follows it -/

/-- The value is no node. -/
def IsLeaf (v : Value) : Prop :=
  ∀ tag children, v ≠ node tag children

/-- The payload of a leaf, as it is written. -/
def payload : Value → List Char
  | uint n => decimal n.toNat
  | bool b => boolChars b
  | bytes data => '0' :: 'x' :: hex data
  | arg i => decimal i.toNat
  | param i => decimal i.toNat
  | _ => []

/-- What is between the parentheses. -/
def inside : Value → List Char
  | node _ children => charsAll children
  | leaf => leaf.payload

/-- The text of a value without the name of its tag. -/
def afterName : Value → List Char
  | nil => []
  | v => '(' :: (v.inside ++ [')'])

theorem chars_eq (v : Value) : v.chars = v.tag.name.toList ++ v.afterName := by
  cases v with
  | nil => simp [chars, tag, afterName]
  | _ => rfl

/-- A text begins with a capital. -/
theorem head_chars (v : Value) : ∃ c cs, v.chars = c :: cs ∧ c.isUpper = true := by
  obtain ⟨c, cs, hname, hc⟩ := head_name v.tag
  exact ⟨c, cs ++ v.afterName, by rw [chars_eq, hname, List.cons_append], hc⟩

/-- What may follow the text of a value: nothing, or a comma or a closing parenthesis and
    anything after it. -/
def Ends (rest : List Char) : Prop :=
  ∀ c ∈ rest.head?, c = ',' ∨ c = ')'

theorem ends_nil : Ends [] := by
  simp [Ends]

theorem ends_close (rest : List Char) : Ends (')' :: rest) := by
  rintro c ⟨⟩
  exact .inr rfl

theorem Ends.endsWord {rest : List Char} (h : Ends rest) : EndsWord rest := by
  intro c hc
  rcases h c hc with rfl | rfl <;> rfl

theorem endsWord_afterName {v : Value} {rest : List Char} (h : Ends rest) :
    EndsWord (v.afterName ++ rest) := by
  cases v with
  | nil => exact h.endsWord
  | _ => rintro c ⟨⟩; rfl

/-! ## Leaves -/

theorem inWord_payload (v : Value) : ∀ c ∈ v.payload, inWord c = true := by
  cases v with
  | bool b =>
    have hall : (payload (.bool b)).all inWord = true := by cases b <;> decide
    exact List.all_eq_true.mp hall
  | bytes data =>
    have hdata : ∀ c ∈ hex data, inWord c = true := inWord_hex
    simpa [payload, inWord] using hdata
  | uint _ => exact inWord_decimal
  | arg _ => exact inWord_decimal
  | param _ => exact inWord_decimal
  | nil => simp [payload]
  | node _ _ => simp [payload]

/-- A payload begins with a digit or a small letter. -/
theorem head_payload {v : Value} (hleaf : v.IsLeaf) (hnil : v ≠ nil) :
    ∃ c cs, v.payload = c :: cs ∧ c.isUpper = false ∧ c ≠ ')' := by
  have hdecimal : ∀ n, ∃ c cs, decimal n = c :: cs ∧ c.isUpper = false ∧ c ≠ ')' := by
    intro n
    cases h : decimal n with
    | nil => simp [decimal] at h
    | cons c cs =>
      have hc : c.isDigit = true := Json.isDigit_of_mem_decimal (h ▸ List.mem_cons_self)
      exact ⟨c, cs, rfl, isUpper_of_isDigit hc, Json.ne_of_isDigit hc rfl⟩
  cases v with
  | uint n => exact hdecimal n.toNat
  | arg i => exact hdecimal i.toNat
  | param i => exact hdecimal i.toNat
  | bool b => cases b <;> exact ⟨_, _, rfl, by decide, by decide⟩
  | bytes data => exact ⟨_, _, rfl, by decide, by decide⟩
  | nil => exact absurd rfl hnil
  | node tag children => exact absurd rfl (hleaf tag children)

/-- A leaf is known by its tag and its payload. -/
theorem leaf_inj {v w : Value} (hv : v.IsLeaf) (hw : w.IsLeaf) (htag : v.tag = w.tag)
    (hpayload : v.payload = w.payload) : v = w := by
  have hnumber : ∀ {m n : UInt64}, decimal m.toNat = decimal n.toNat → m = n :=
    fun h => UInt64.toNat_inj.mp (decimal_inj h)
  have hbool : ∀ b c : Bool, boolChars b = boolChars c → b = c := by decide
  match v, w, htag with
  | node t cs, _, _ => exact absurd rfl (hv t cs)
  | _, node t cs, _ => exact absurd rfl (hw t cs)
  | nil, nil, _ => rfl
  | uint _, uint _, _ => exact congrArg uint (hnumber hpayload)
  | arg _, arg _, _ => exact congrArg arg (hnumber hpayload)
  | param _, param _, _ => exact congrArg param (hnumber hpayload)
  | bytes _, bytes _, _ =>
    simp only [payload, List.cons.injEq, true_and] at hpayload
    exact congrArg bytes (hex_inj hpayload)
  | bool b, bool c, _ => exact congrArg bool (hbool b c hpayload)

theorem isLeaf_or_node (v : Value) : v.IsLeaf ∨ ∃ tag children, v = node tag children := by
  cases v with
  | node tag children => exact .inr ⟨tag, children, rfl⟩
  | _ => exact .inl nofun

theorem eq_nil_of_leaf {v : Value} (hv : v.IsLeaf) (h : v.tag = .nil) : v = nil := by
  cases v with
  | nil => rfl
  | node tag children => exact absurd rfl (hv tag children)
  | _ => cases h

theorem afterName_of_leaf {v : Value} (hv : v.IsLeaf) (hnil : v ≠ nil) :
    v.afterName = '(' :: (v.payload ++ [')']) := by
  cases v with
  | nil => exact absurd rfl hnil
  | node tag children => exact absurd rfl (hv tag children)
  | _ => rfl

/-- The parentheses of two leaves of the same tag hold the same only if the leaves are the same. -/
theorem leaf_afterName_inj {v w : Value} (hv : v.IsLeaf) (hw : w.IsLeaf) (htag : v.tag = w.tag)
    {x y : List Char} (h : v.afterName ++ x = w.afterName ++ y) : v = w ∧ x = y := by
  by_cases hnil : v = nil
  · subst hnil
    obtain rfl := eq_nil_of_leaf hw htag.symm
    exact ⟨rfl, h⟩
  · have hnil' : w ≠ nil := by
      rintro rfl
      exact hnil (eq_nil_of_leaf hv htag)
    rw [afterName_of_leaf hv hnil, afterName_of_leaf hw hnil'] at h
    simp only [List.cons_append, List.append_assoc, List.nil_append, List.cons.injEq,
      true_and] at h
    obtain ⟨hpayload, hrest⟩ := word_append_inj (inWord_payload v) (inWord_payload w)
      (ends_close x).endsWord (ends_close y).endsWord h
    exact ⟨leaf_inj hv hw htag hpayload, (List.cons.inj hrest).2⟩

/-- The parentheses of a leaf and of a node of the same tag do not hold the same. -/
theorem leaf_ne_node {v : Value} (hv : v.IsLeaf) {t : Tag} {children : List Value}
    {x y : List Char} (hx : Ends x) : v.afterName ++ x ≠ (node t children).afterName ++ y := by
  intro h
  by_cases hnil : v = nil
  · -- Nothing else has a name without parentheses.
    subst hnil
    change x = '(' :: _ at h
    rcases hx '(' (by rw [h]; rfl) with hc | hc <;> cases hc
  · obtain ⟨c, cs, hpayload, hupper, hclose⟩ := head_payload hv hnil
    have hinside : v.payload ++ ')' :: x = charsAll children ++ ')' :: y := by
      rw [afterName_of_leaf hv hnil] at h
      simpa [afterName, inside] using h
    rw [hpayload] at hinside
    cases children with
    | nil => exact hclose (List.cons.inj hinside).1
    | cons w ws =>
      obtain ⟨d, ds, hd, hcapital⟩ := head_chars w
      rw [charsAll, hd] at hinside
      rw [(List.cons.inj hinside).1, hcapital] at hupper
      cases hupper

/-! ## Nodes -/

/-- The text of the value is known even if something follows it. -/
def Known (v : Value) : Prop :=
  ∀ w x y, Ends x → Ends y → v.chars ++ x = w.chars ++ y → v = w ∧ x = y

/-- What follows the text of a child is a comma or the closing parenthesis. -/
theorem ends_charsAfter (vs : List Value) (rest : List Char) :
    Ends (charsAfter vs ++ ')' :: rest) := by
  cases vs with
  | nil => exact ends_close rest
  | cons v vs => rintro c ⟨⟩; exact .inl rfl

theorem charsAfter_append_inj {vs ws : List Value} {x y : List Char} (hvs : ∀ v ∈ vs, Known v)
    (h : charsAfter vs ++ ')' :: x = charsAfter ws ++ ')' :: y) : vs = ws ∧ x = y := by
  induction vs generalizing ws with
  | nil =>
    cases ws with
    | nil => exact ⟨rfl, (List.cons.inj h).2⟩
    | cons w ws => cases (List.cons.inj h).1
  | cons v vs ih =>
    cases ws with
    | nil => cases (List.cons.inj h).1
    | cons w ws =>
      have htexts : v.chars ++ (charsAfter vs ++ ')' :: x) =
          w.chars ++ (charsAfter ws ++ ')' :: y) := by
        simpa [charsAfter] using h
      obtain ⟨rfl, hrest⟩ := hvs v List.mem_cons_self w _ _ (ends_charsAfter vs x)
        (ends_charsAfter ws y) htexts
      obtain ⟨rfl, rfl⟩ := ih (fun u hu => hvs u (List.mem_cons_of_mem v hu)) hrest
      exact ⟨rfl, rfl⟩

theorem charsAll_append_inj {vs ws : List Value} {x y : List Char} (hvs : ∀ v ∈ vs, Known v)
    (h : charsAll vs ++ ')' :: x = charsAll ws ++ ')' :: y) : vs = ws ∧ x = y := by
  -- Without children there is the closing parenthesis at once, and no text begins with it.
  have hclose : ∀ (w : Value) (us : List Value) (a b : List Char),
      ')' :: a ≠ charsAll (w :: us) ++ b := by
    intro w us a b heq
    obtain ⟨c, cs, hw, hc⟩ := head_chars w
    rw [charsAll, hw] at heq
    rw [← (List.cons.inj heq).1] at hc
    cases hc
  cases vs with
  | nil =>
    cases ws with
    | nil => exact ⟨rfl, (List.cons.inj h).2⟩
    | cons w ws => exact absurd h (hclose w ws _ _)
  | cons v vs =>
    cases ws with
    | nil => exact absurd h.symm (hclose v vs _ _)
    | cons w ws =>
      -- Behind a comma and a space both lists would look the same.
      have hafter : charsAfter (v :: vs) ++ ')' :: x = charsAfter (w :: ws) ++ ')' :: y :=
        congrArg (',' :: ' ' :: ·) h
      exact charsAfter_append_inj hvs hafter

/-! ## Texts -/

/-- Where two texts begin with those of values, the values and what follows their texts are the
    same if the texts are. -/
theorem chars_append_inj (v : Value) : Known v := by
  induction v using of_children with
  | step v ih =>
    intro w x y hx hy h
    rw [chars_eq, chars_eq, List.append_assoc, List.append_assoc] at h
    obtain ⟨hname, hafter⟩ := word_append_inj (inWord_name v.tag) (inWord_name w.tag)
      (endsWord_afterName hx) (endsWord_afterName hy) h
    have htag : v.tag = w.tag := name_inj hname
    rcases isLeaf_or_node v with hv | ⟨t, vs, rfl⟩ <;>
      rcases isLeaf_or_node w with hw | ⟨u, ws, rfl⟩
    · exact leaf_afterName_inj hv hw htag hafter
    · exact absurd hafter (leaf_ne_node hv hx)
    · exact absurd hafter.symm (leaf_ne_node hw hy)
    · obtain rfl : t = u := htag
      have hinside : charsAll vs ++ ')' :: x = charsAll ws ++ ')' :: y := by
        simpa [afterName, inside] using hafter
      obtain ⟨rfl, rfl⟩ := charsAll_append_inj ih hinside
      exact ⟨rfl, rfl⟩

theorem text_inj {v w : Value} (h : v.text = w.text) : v = w := by
  have hchars : v.chars ++ [] = w.chars ++ [] := congrArg (· ++ []) (String.ofList_inj.mp h)
  exact (chars_append_inj v w [] [] ends_nil ends_nil hchars).1

end Value

end CellQuery
