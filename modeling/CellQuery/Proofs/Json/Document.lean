import CellQuery.Json.Tree
import CellQuery.Proofs.Json.Lexing
import CellQuery.Proofs.Json.Nesting

/-! # Documents

    A document is what a JSON text can say without a fault: atoms, and arrays and objects
    of documents.  It has a compact text, and it has the tree that is read from any
    text of it.

    * `Doc.compact` is the text without blanks, `Doc.tokens` are its tokens.
    * `Doc.tree` is what is read from the tokens, and `Doc.depth` tells how
      deep its containers are nested.
    * `Doc.isRead` says that the reader builds the tree, wherever the document
      stands. -/

namespace CellQuery.Json

/-- A value that is no container. -/
inductive Atom where
  | null
  | bool (b : Bool)
  | number (n : UInt64)
  | text (s : String)

namespace Atom

/-- The text of an atom. -/
def compact : Atom → List Char
  | null => ['n', 'u', 'l', 'l']
  | bool true => ['t', 'r', 'u', 'e']
  | bool false => ['f', 'a', 'l', 's', 'e']
  | number n => Text.decimal n.toNat
  | text s => quoted s.toList

/-- The token of an atom. -/
def token : Atom → Token
  | null => .null
  | bool b => .bool b
  | number n => .integer n.toNat
  | text s => .string (some s)

/-- The tree of an atom. -/
def tree : Atom → Json
  | null => .null
  | bool b => .bool b
  | number n => .integer n.toNat
  | text s => .string (some s)

theorem lexes (a : Atom) : Lexes a.compact [a.token] := by
  cases a with
  | null => exact lexes_null
  | bool b =>
    cases b with
    | true => exact lexes_true
    | false => exact lexes_false
  | number n => exact lexes_decimal n
  | text s => exact lexes_quoted s

theorem nests (a : Atom) : Nests a.compact 0 := by
  cases a with
  | null => exact nests_plain (by simp [compact, Plain])
  | bool b =>
    cases b with
    | true => exact nests_plain (by simp [compact, Plain])
    | false => exact nests_plain (by simp [compact, Plain])
  | number n =>
    refine nests_plain fun c hc => ?_
    have hdigit := isDigit_of_mem_decimal hc
    exact ⟨ne_of_isDigit hdigit rfl, ne_of_isDigit hdigit rfl, ne_of_isDigit hdigit rfl,
      ne_of_isDigit hdigit rfl, ne_of_isDigit hdigit rfl⟩
  | text s => exact nests_quoted s

end Atom

/-- What a JSON text says. -/
inductive Doc where
  | atom (a : Atom)
  | array (items : List Doc)
  | object (fields : List (String × Doc))

namespace Doc

/-! ## Recursion and induction -/

section recursion
variable {α : Type} (atom : Atom → α) (array : List α → α) (object : List (String × α) → α)

mutual

/-- What is made of a document, given what to make of each kind of value. -/
def fold : Doc → α
  | .atom a => atom a
  | .array items => array (foldItems items)
  | .object fields => object (foldFields fields)

/-- What is made of each item. -/
def foldItems : List Doc → List α
  | [] => []
  | d :: ds => fold d :: foldItems ds

/-- What is made of the value of each field. -/
def foldFields : List (String × Doc) → List (String × α)
  | [] => []
  | (key, d) :: fields => (key, fold d) :: foldFields fields

end

theorem fold_array (items : List Doc) :
    fold atom array object (.array items) = array (items.map (fold atom array object)) := by
  have hitems : foldItems atom array object items = items.map (fold atom array object) := by
    induction items with
    | nil => rfl
    | cons d ds ih => rw [foldItems, ih, List.map_cons]
  rw [fold, hitems]

theorem fold_object (fields : List (String × Doc)) :
    fold atom array object (.object fields) =
      object (fields.map fun field => (field.1, fold atom array object field.2)) := by
  have hfields : foldFields atom array object fields =
      fields.map fun field => (field.1, fold atom array object field.2) := by
    induction fields with
    | nil => rfl
    | cons field fields ih => rw [foldFields, ih, List.map_cons]
  rw [fold, hfields]

end recursion

section induction
variable {P : Doc → Prop}

mutual

/-- What a document inherits from its parts holds of every document. -/
theorem of_parts (atom : ∀ a, P (.atom a))
    (array : ∀ items, (∀ d ∈ items, P d) → P (.array items))
    (object : ∀ fields, (∀ field ∈ fields, P field.2) → P (.object fields)) : ∀ d, P d
  | .atom a => atom a
  | .array items => array items (of_items atom array object items)
  | .object fields => object fields (of_fields atom array object fields)

theorem of_items (atom : ∀ a, P (.atom a))
    (array : ∀ items, (∀ d ∈ items, P d) → P (.array items))
    (object : ∀ fields, (∀ field ∈ fields, P field.2) → P (.object fields)) :
    ∀ items : List Doc, ∀ d ∈ items, P d
  | [] => by simp
  | d :: ds => by
    have hd := of_parts atom array object d
    have hds := of_items atom array object ds
    exact List.forall_mem_cons.mpr ⟨hd, hds⟩

theorem of_fields (atom : ∀ a, P (.atom a))
    (array : ∀ items, (∀ d ∈ items, P d) → P (.array items))
    (object : ∀ fields, (∀ field ∈ fields, P field.2) → P (.object fields)) :
    ∀ fields : List (String × Doc), ∀ field ∈ fields, P field.2
  | [] => by simp
  | (key, d) :: fields => by
    have hd := of_parts atom array object d
    have hfields := of_fields atom array object fields
    exact List.forall_mem_cons.mpr ⟨hd, hfields⟩

end

end induction

/-! ## Texts, tokens and trees -/

/-- The text without blanks. -/
def compact : Doc → List Char :=
  fold Atom.compact
    (fun items => '[' :: (commaSeparated items ++ [']']))
    (fun fields =>
      '{' :: (commaSeparated (fields.map fun field => quoted field.1.toList ++ ':' :: field.2)
        ++ ['}']))

/-- The tokens of the text. -/
def tokens : Doc → List Token :=
  fold (fun a => [a.token])
    (fun items => .openArray :: (List.intercalate [.comma] items ++ [.closeArray]))
    (fun fields =>
      .openObject ::
        (List.intercalate [.comma]
          (fields.map fun field => .string (some field.1) :: .colon :: field.2)
        ++ [.closeObject]))

/-- The tree that is read from the text. -/
def tree : Doc → Json :=
  fold Atom.tree Json.array fun fields =>
    Json.object (fields.map fun field => (some field.1, field.2))

/-- How many containers are nested in one another. -/
def depth : Doc → Nat :=
  fold (fun _ => 0) (fun depths => depths.foldr max 0 + 1)
    fun depths => (depths.map (·.2)).foldr max 0 + 1

section equations
variable (a : Atom) (items : List Doc) (fields : List (String × Doc))

theorem compact_atom : (atom a).compact = a.compact :=
  rfl

theorem compact_array : (array items).compact =
    '[' :: (commaSeparated (items.map compact) ++ [']']) :=
  fold_array ..

theorem compact_object : (object fields).compact =
    '{' :: (commaSeparated (fields.map fun field => quoted field.1.toList ++ ':' :: field.2.compact)
      ++ ['}']) := by
  rw [compact, fold_object, List.map_map]
  rfl

theorem tokens_array : (array items).tokens =
    .openArray :: (List.intercalate [.comma] (items.map tokens) ++ [.closeArray]) :=
  fold_array ..

theorem tokens_object : (object fields).tokens =
    .openObject :: (List.intercalate [.comma]
      (fields.map fun field => .string (some field.1) :: .colon :: field.2.tokens)
      ++ [.closeObject]) := by
  rw [tokens, fold_object, List.map_map]
  rfl

theorem tree_atom : (atom a).tree = a.tree :=
  rfl

theorem tree_array : (array items).tree = .array (items.map tree) :=
  fold_array ..

theorem tree_object : (object fields).tree =
    .object (fields.map fun field => (some field.1, field.2.tree)) := by
  rw [tree, fold_object, List.map_map]
  rfl

theorem depth_atom : (atom a).depth = 0 :=
  rfl

theorem depth_array : (array items).depth = (items.map depth).foldr max 0 + 1 :=
  fold_array ..

theorem depth_array_le {n : Nat} (h : ∀ d ∈ items, d.depth ≤ n) : (array items).depth ≤ n + 1 := by
  rw [depth_array]
  induction items with
  | nil => simp
  | cons d items ih =>
    have hd := h d List.mem_cons_self
    have hitems := ih fun e he => h e (List.mem_cons_of_mem d he)
    rw [List.map_cons, List.foldr_cons]
    omega

theorem depth_object : (object fields).depth =
    (fields.map fun field => field.2.depth).foldr max 0 + 1 := by
  rw [depth, fold_object, List.map_map]
  rfl

end equations

/-! ## Reading -/

/-- The reader goes on with a complete value. -/
def resume (value : Json) (ts : List Token) : List Place → Json × List Token
  | [] => (value, ts)
  | .item before :: places => read (.afterItem (value :: before)) places ts
  | .field before key :: places => read (.afterField ((key, value) :: before)) places ts

/-- A token that completes a value. -/
theorem read_of_deliver {expected : Expected} {places : List Place} {token : Token} {value : Json}
    (h : step expected places token = deliver value places) (ts : List Token) :
    read expected places (token :: ts) = resume value ts places := by
  rw [read, h]
  match places with
  | [] => rfl
  | .item before :: places => rfl
  | .field before key :: places => rfl

/-- A document does not start with the token that closes an array. -/
theorem head_tokens (d : Doc) : ∃ token ts, d.tokens = token :: ts ∧ token ≠ .closeArray := by
  cases d with
  | atom a => exact ⟨a.token, [], rfl, by cases a <;> simp [Atom.token]⟩
  | array items => exact ⟨_, _, tokens_array items, by simp⟩
  | object fields => exact ⟨_, _, tokens_object fields, by simp⟩

/-- The first item is read as any other one. -/
theorem read_firstItem (d : Doc) (places : List Place) (ts : List Token) :
    read .firstItem places (d.tokens ++ ts) = read .value (.item [] :: places) (d.tokens ++ ts) := by
  obtain ⟨token, us, htokens, hne⟩ := d.head_tokens
  have hstep : step .firstItem places token = step .value (.item [] :: places) token := by
    cases token <;> first | rfl | exact absurd rfl hne
  rw [htokens, List.cons_append, read, read, hstep]
  cases step .value (.item [] :: places) token <;> rfl

/-- Tokens between commas start with those of the first part. -/
theorem intercalate_cons (part : List Token) (parts : List (List Token)) :
    ∃ ts, List.intercalate [.comma] (part :: parts) = part ++ ts := by
  cases parts with
  | nil => exact ⟨[], by simp⟩
  | cons next parts =>
    refine ⟨.comma :: List.intercalate [.comma] (next :: parts), ?_⟩
    rw [List.intercalate_cons_cons, List.append_assoc]
    rfl

/-- The reader builds the tree of the document, whatever containers are open around it. -/
def IsRead (d : Doc) : Prop :=
  ∀ places ts, read .value places (d.tokens ++ ts) = resume d.tree ts places

/-- The items that are left of an array, up to its end. -/
theorem read_items {d : Doc} {items : List Doc} (h : ∀ e ∈ d :: items, IsRead e)
    (before : List Json) (places : List Place) (ts : List Token) :
    read .value (.item before :: places)
        (List.intercalate [.comma] ((d :: items).map tokens) ++ .closeArray :: ts) =
      resume (.array (before.reverse ++ (d :: items).map tree)) ts places := by
  induction items generalizing d before with
  | nil =>
    have hd := h d List.mem_cons_self (.item before :: places) (.closeArray :: ts)
    have hclose : step (.afterItem (d.tree :: before)) places .closeArray =
        deliver (.array (before.reverse ++ [d.tree])) places := by
      simp [step]
    rw [List.map_singleton, List.intercalate_singleton, List.map_singleton, hd,
      ← read_of_deliver hclose ts]
    rfl
  | cons e items ih =>
    -- The comma makes a place for the next item, with this one before it.
    have hd := h d List.mem_cons_self (.item before :: places)
    have hrest := ih (fun x hx => h x (List.mem_cons_of_mem d hx)) (d.tree :: before)
    rw [List.reverse_cons, List.append_assoc, List.singleton_append] at hrest
    rw [List.map_cons, List.map_cons, List.intercalate_cons_cons, List.append_assoc,
      List.append_assoc, hd]
    exact hrest

/-- The fields that are left of an object, up to its end. -/
theorem read_fields {field : String × Doc} {fields : List (String × Doc)}
    (h : ∀ f ∈ field :: fields, IsRead f.2)
    (before : List (Key × Json)) (places : List Place) (ts : List Token) :
    read (.key before) places
        (List.intercalate [.comma]
          ((field :: fields).map fun f => .string (some f.1) :: .colon :: f.2.tokens)
          ++ .closeObject :: ts) =
      resume (.object (before.reverse ++ (field :: fields).map fun f => (some f.1, f.2.tree)))
        ts places := by
  induction fields generalizing field before with
  | nil =>
    have hvalue := h field List.mem_cons_self (.field before field.1 :: places) (.closeObject :: ts)
    have hclose : step (.afterField ((some field.1, field.2.tree) :: before)) places .closeObject =
        deliver (.object (before.reverse ++ [(some field.1, field.2.tree)])) places := by
      simp [step]
    rw [List.map_singleton, List.intercalate_singleton, List.map_singleton,
      ← read_of_deliver hclose ts]
    exact hvalue
  | cons next fields ih =>
    have hvalue := h field List.mem_cons_self (.field before field.1 :: places)
    have hrest := ih (fun f hf => h f (List.mem_cons_of_mem field hf))
      ((some field.1, field.2.tree) :: before)
    rw [List.reverse_cons, List.append_assoc, List.singleton_append] at hrest
    rw [List.map_cons, List.map_cons, List.intercalate_cons_cons, List.append_assoc,
      List.append_assoc]
    exact (hvalue _).trans hrest

theorem isRead (d : Doc) : IsRead d := by
  induction d using of_parts with
  | atom a =>
    intro places ts
    have hstep : step .value places a.token = deliver a.tree places := by
      cases a <;> rfl
    exact read_of_deliver hstep ts
  | array items ih =>
    intro places ts
    rw [tokens_array, tree_array, List.cons_append, List.append_assoc, List.singleton_append]
    cases items with
    | nil =>
      have hclose : step .firstItem places .closeArray = deliver (.array []) places := rfl
      exact read_of_deliver hclose ts
    | cons d items =>
      -- No value starts with the bracket that would close the array.
      obtain ⟨us, hus⟩ := intercalate_cons d.tokens (items.map tokens)
      have hitems := read_items ih [] places ts
      rw [List.map_cons, hus, List.append_assoc] at hitems ⊢
      exact (read_firstItem d places _).trans hitems
  | object fields ih =>
    intro places ts
    rw [tokens_object, tree_object, List.cons_append, List.append_assoc, List.singleton_append]
    cases fields with
    | nil =>
      have hclose : step .firstKey places .closeObject = deliver (.object []) places := rfl
      exact read_of_deliver hclose ts
    | cons field fields =>
      obtain ⟨us, hus⟩ := intercalate_cons (.string (some field.1) :: .colon :: field.2.tokens)
        (fields.map fun f => .string (some f.1) :: .colon :: f.2.tokens)
      have hfields := read_fields ih [] places ts
      rw [List.map_cons, hus] at hfields ⊢
      exact hfields

/-- What is read from the text of a document is its tree, and nothing is left. -/
theorem ofText_of_lexes {text : List Char} {d : Doc} (h : Lexes text d.tokens) :
    ofText text = (d.tree, []) := by
  have hread := d.isRead [] []
  rw [List.append_nil] at hread
  rw [ofText, h.tokens_eq, hread]
  rfl

end Doc

end CellQuery.Json
