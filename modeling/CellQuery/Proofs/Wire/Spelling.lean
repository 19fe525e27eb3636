import CellQuery.Proofs.Json.Spacing
import CellQuery.Proofs.Wire.Document

/-! # Spellings of a value

    A value can be written in JSON in many ways, and at every node anew:

    * its tag by name or by number;
    * its fields as an object, in any order, or as an array, in theirs;
    * a payload or a list of children that is not there as such, or not at all.

    `Wire.Spelling` are the documents that are written so; a text of one of them may have
    blanks between its words.  They all mean the same, but they are not nested alike: an
    empty list of children that is left out is one container less. -/

namespace CellQuery

open Json

namespace Wire

/-! ## Documents -/

/-- The ways to write a tag. -/
inductive TagSpelling (tag : Tag) : Atom → Prop where
  | name : TagSpelling tag (.text tag.name)
  | number {n : UInt64} (same : tag.number.toInt = n.toNat) : TagSpelling tag (.number n)

/-- A field of a wire value and its document, given the documents of wire values. -/
inductive Part (spells : Wire → Doc → Prop) : Wire → String × Doc → Prop where
  | tag {tag : Tag} {primitive : Option Primitive} {children : List Wire} {a : Atom}
      (spelled : TagSpelling tag a) : Part spells ⟨tag, primitive, children⟩ ("t", .atom a)
  | primitive {tag : Tag} {primitive : Option Primitive} {children : List Wire} :
      Part spells ⟨tag, primitive, children⟩ ("primitive", primitiveDoc primitive)
  | children {tag : Tag} {primitive : Option Primitive} {children : List Wire} {docs : List Doc}
      (spelled : List.Forall₂ spells children docs) :
      Part spells ⟨tag, primitive, children⟩ ("children", .array docs)

/-- No field is given twice, and none is missing but a payload or children that are not there. -/
structure Complete (w : Wire) (names : List String) : Prop where
  once : names.Nodup
  tag : "t" ∈ names
  primitive : w.primitive ≠ none → "primitive" ∈ names
  children : w.children ≠ [] → "children" ∈ names

/-- The documents of a wire value. -/
inductive Spelling : Wire → Doc → Prop where
  /-- An object with the fields in any order. -/
  | object {w : Wire} {fields : List (String × Doc)}
      (complete : Complete w (fields.map Prod.fst))
      (parts : ∀ field ∈ fields, Part Spelling w field) : Spelling w (.object fields)
  /-- An array with the fields in their order, up to some field. -/
  | array {w : Wire} {items : List Doc} (short : items.length ≤ fieldNames.length)
      (complete : Complete w ((fieldNames.zip items).map Prod.fst))
      (parts : ∀ field ∈ fieldNames.zip items, Part Spelling w field) :
      Spelling w (.array items)

/-! ## Reading the fields -/

theorem TagSpelling.tagOf {tag : Tag} {a : Atom} (h : TagSpelling tag a) :
    Wire.tagOf a.tree = .ok tag := by
  cases h with
  | name => exact tagOf_name tag
  | number same =>
    have hnumber := Tag.ofInteger?_eq_some.mpr same
    rw [Atom.tree, Wire.tagOf, hnumber]

/-- The draft in which the fields with the given names have been filled in. -/
def Draft.of (w : Wire) (names : List String) : Draft where
  tag := if "t" ∈ names then some w.tag else none
  primitive := if "primitive" ∈ names then some w.primitive else none
  children := if "children" ∈ names then some w.children else none

/-- A draft with all fields is the wire value: what may be missing is not there. -/
theorem Draft.finish_of {w : Wire} {names : List String} (complete : Complete w names) :
    (Draft.of w names).finish = .ok w := by
  obtain ⟨tag, primitive, children⟩ := w
  have hprimitive :
      (Draft.of ⟨tag, primitive, children⟩ names).primitive.getD none = primitive := by
    by_cases given : "primitive" ∈ names
    · simp [Draft.of, given]
    · have absent : primitive = none := by
        by_contra present
        exact given (complete.primitive present)
      simp [Draft.of, given, absent]
  have hchildren : (Draft.of ⟨tag, primitive, children⟩ names).children.getD [] = children := by
    by_cases given : "children" ∈ names
    · simp [Draft.of, given]
    · have absent : children = [] := by
        by_contra present
        exact given (complete.children present)
      simp [Draft.of, given, absent]
  have htag : (Draft.of ⟨tag, primitive, children⟩ names).tag = some tag := if_pos complete.tag
  rw [Draft.finish, htag, hprimitive, hchildren]
  rfl

/-- A field that is read is filled in. -/
theorem addField_part {w : Wire} {field : String × Doc} {names : List String}
    (part : Part (fun w d => Holds ofJson d w) w field) (new : field.1 ∉ names) (room : Nat) :
    addField room (.of w names) (some field.1) field.2.tree =
      within field.2.depth room (.of w (names ++ [field.1])) := by
  cases part with
  | @tag tag primitive children a spelled =>
    have hnone : (Draft.of ⟨tag, primitive, children⟩ names).tag = none := if_neg new
    rw [addField_tag room hnone spelled.tagOf, Doc.depth_atom]
    simp [Draft.of]
  | @primitive tag primitive children =>
    have hnone : (Draft.of ⟨tag, primitive, children⟩ names).primitive = none := if_neg new
    rw [addField_primitive room hnone]
    simp [Draft.of]
  | @children tag primitive children docs spelled =>
    have hnone : (Draft.of ⟨tag, primitive, children⟩ names).children = none := if_neg new
    rw [addField_children room hnone spelled]
    simp [Draft.of]

/-- Fields in any order, none of them twice. -/
theorem addFields_parts {w : Wire} {fields : List (String × Doc)} (names : List String)
    (parts : ∀ field ∈ fields, Part (fun w d => Holds ofJson d w) w field)
    (once : (names ++ fields.map Prod.fst).Nodup) (room : Nat) :
    addFields room (.of w names) (fields.map fun field => (some field.1, field.2.tree)) =
      within ((fields.map fun field => field.2.depth).foldr max 0) room
        (.of w (names ++ fields.map Prod.fst)) := by
  rw [addFields_eq]
  induction fields generalizing names with
  | nil =>
    rw [List.map_nil, List.map_nil, List.map_nil, List.append_nil]
    exact addFields_nil room
  | cons field fields ih =>
    obtain ⟨hfield, hfields⟩ := List.forall_mem_cons.mp parts
    rw [List.map_cons, List.append_cons] at once
    have new : field.1 ∉ names := by
      have hfront := (List.nodup_append.mp once).1
      have apart := (List.nodup_append.mp hfront).2.2
      exact fun given => apart _ given _ (List.mem_singleton.mpr rfl) rfl
    rw [List.map_cons, List.map_cons, List.map_cons, List.foldr_cons, List.append_cons]
    exact addFields_cons room (addField_part hfield new room) (ih _ hfields once)

/-- The items of an array are read as the fields that they stand for. -/
theorem addItems_eq (room : Nat) (draft : Draft) {names : List String} {items : List Json}
    (short : items.length ≤ names.length) :
    addItems room draft names items =
      addFields room draft ((names.zip items).map fun field => (some field.1, field.2)) := by
  induction names generalizing draft items with
  | nil =>
    rw [List.length_eq_zero_iff.mp (Nat.le_zero.mp short), addItems, List.zip_nil_right,
      List.map_nil, addFields]
  | cons name names ih =>
    cases items with
    | nil => rw [addItems, List.zip_nil_right, List.map_nil, addFields]
    | cons item items =>
      have hrest := fun draft => ih draft (Nat.le_of_succ_le_succ short)
      rw [addItems, List.zip_cons_cons, List.map_cons, addFields]
      simp only [hrest]

/-! ## Reading the documents -/

/-- What is read of the children can be said of the field that holds them. -/
theorem Part.imp {R S : Wire → Doc → Prop} {w : Wire} {field : String × Doc}
    (h : ∀ c ∈ w.children, ∀ d, R c d → S c d) (part : Part R w field) : Part S w field := by
  cases part with
  | tag spelled => exact .tag spelled
  | primitive => exact .primitive
  | children spelled =>
    have both := (List.forall₂_and_left _ _).mpr ⟨h, spelled⟩
    exact .children (both.imp fun c d hc => hc.1 d hc.2)

/-- A wire value is read from each of its documents. -/
theorem Spelling.holds {w : Wire} {d : Doc} (h : Spelling w d) : Holds ofJson d w := by
  induction w using of_children generalizing d with
  | step w ih =>
    have hparts {fields : List (String × Doc)} (complete : Complete w (fields.map Prod.fst))
        (parts : ∀ field ∈ fields, Part Spelling w field) (room : Nat) :
        (addFields room .empty (fields.map fun field => (some field.1, field.2.tree)) >>=
          Draft.finish) = within ((fields.map fun field => field.2.depth).foldr max 0) room w := by
      have hfields := addFields_parts []
        (fun field hfield => (parts field hfield).imp fun c hc d => ih c hc)
        complete.once room
      have hempty : Draft.of w [] = .empty := rfl
      rw [← hempty, hfields]
      exact within_bind_ok (Draft.finish_of complete)
    intro room
    cases h with
    | object complete parts =>
      rw [Doc.tree_object, Doc.depth_object, ofJson]
      exact enter_bind (hparts complete parts) room
    | @array _ items short complete parts =>
      have hfields : ((fieldNames.zip (items.map Doc.tree)).map fun field =>
          ((some field.1 : Key), field.2)) =
          (fieldNames.zip items).map fun field => (some field.1, field.2.tree) := by
        rw [List.zip_map_right, List.map_map]
        rfl
      have hdepths : items.map Doc.depth =
          (fieldNames.zip items).map fun field => field.2.depth := by
        conv => lhs; rw [← List.map_snd_zip short, List.map_map]
        rfl
      have hshort : (items.map Doc.tree).length ≤ fieldNames.length := by
        rwa [List.length_map]
      rw [Doc.tree_array, Doc.depth_array, ofJson, hdepths]
      refine enter_bind (fun room => ?_) room
      rw [addItems_eq room _ hshort, hfields]
      exact hparts complete parts room

/-- The document that is written is one of them. -/
theorem spelling_doc (w : Wire) : Spelling w w.doc := by
  induction w using of_children with
  | step w ih =>
    obtain ⟨tag, primitive, children⟩ := w
    have hchildren : List.Forall₂ Spelling children (children.map doc) := by
      rw [List.forall₂_map_right_iff]
      exact List.forall₂_same.mpr ih
    have complete : Complete ⟨tag, primitive, children⟩ fieldNames :=
      ⟨by decide, by decide, fun _ => by decide, fun _ => by decide⟩
    rw [doc, docs_eq]
    refine .object complete ?_
    simp only [List.forall_mem_cons, List.not_mem_nil, false_implies, implies_true, and_true]
    exact ⟨.tag .name, .primitive, .children hchildren⟩

end Wire

/-! ## Values -/

namespace Value

/-- A value is read from each of the documents of its wire value. -/
theorem holds_of_spelling {v : Value} (h : v.WellFormed) {d : Doc}
    (spelled : (Wire.ofValue v).Spelling d) : Holds ofJson d v := by
  intro room
  rw [ofJson, spelled.holds]
  refine within_bind_ok ?_
  rw [Wire.toValue_ofValue h]

theorem holds_value {v : Value} (h : v.WellFormed) : Holds ofJson (Wire.ofValue v).doc v :=
  holds_of_spelling h (Wire.spelling_doc _)

/-- However a well-formed value is spelled, and whatever blanks stand between the words, the text
    is read as the value if it nests at most 127 containers, and else refused. -/
theorem spellings_agree (v : Value) (h : v.WellFormed) (d : Doc)
    (spelled : (Wire.ofValue v).Spelling d) (text : String) (spaced : Spaced d.words text.toList) :
    decodeJson text = if Json.nesting text.toList ≤ 127 then .ok v else .error .malformed :=
  decode_of_spaced spaced (holds_of_spelling h spelled)

/-- Tags by name and by number, fields out of order, arrays for nodes, fields left out, and a
    blank in front of every word. -/
theorem spellings_agree_mixed :
    let v : Value := .node .equal [.param 0, .bytes [7], .node .list [.nil]]
    let text := " \x7b \"children\" : [" ++
      " \x7b \"primitive\" : \x7b \"u\" : 0 \x7d , \"t\" : \"PARAM\" \x7d ," ++
      " [ 3 , \x7b \"raw\" : [ 7 ] \x7d ] ," ++
      " [ \"LIST\" , null , [ [ \"NIL\" ] ] ] ] , \"t\" : 78 \x7d"
    decodeJson text = .ok v := by
  intro v text
  let param : Doc := .object [("primitive", Wire.primitiveDoc (some (.number 0))),
    ("t", .atom (.text Tag.param.name))]
  let bytes : Doc := .array [.atom (.number 3), Wire.primitiveDoc (some (.raw [7]))]
  let nil : Doc := .array [.atom (.text Tag.nil.name)]
  let list : Doc := .array [.atom (.text Tag.list.name), .atom .null, .array [nil]]
  let d : Doc := .object [("children", .array [param, bytes, list]), ("t", .atom (.number 78))]
  have two {P : String × Doc → Prop} {a b : String × Doc} (ha : P a) (hb : P b) :
      ∀ field ∈ [a, b], P field := by simp [ha, hb]
  have hparam : (Wire.ofValue (.param 0)).Spelling param :=
    .object ⟨by decide, by decide, fun _ => by decide, by simp [Wire.ofValue]⟩
      (two .primitive (.tag .name))
  have hbytes : (Wire.ofValue (.bytes [7])).Spelling bytes :=
    .array (by decide) ⟨by decide, by decide, fun _ => by decide, by simp [Wire.ofValue]⟩
      (two (.tag (.number rfl)) .primitive)
  have hnil : (Wire.ofValue .nil).Spelling nil := by
    have complete : Wire.Complete (Wire.ofValue .nil) ["t"] :=
      ⟨by decide, by decide, by simp [Wire.ofValue], by simp [Wire.ofValue]⟩
    exact .array (by decide) complete (List.forall_mem_singleton.mpr (.tag .name))
  have hlist : (Wire.ofValue (.node .list [.nil])).Spelling list := by
    refine .array (by decide) ⟨by decide, by decide, fun _ => by decide, fun _ => by decide⟩ ?_
    exact List.forall_mem_cons.mpr ⟨.tag .name, two .primitive (.children (.cons hnil .nil))⟩
  have spelled : (Wire.ofValue v).Spelling d :=
    .object ⟨by decide, by decide, by simp [v, Wire.ofValue], fun _ => by decide⟩
      (two (.children (.cons hparam (.cons hbytes (.cons hlist .nil)))) (.tag (.number rfl)))
  have blank : ∀ c ∈ [' '], isBlank c := List.forall_mem_singleton.mpr rfl
  have spaced : Spaced d.words text.toList := by
    have htext : text.toList = d.words.flatMap fun word => [' '] ++ word := by decide +kernel
    rw [htext]
    exact spaced_flatMap blank d.words
  have h : v.WellFormed := ⟨rfl, trivial, trivial, ⟨rfl, trivial, trivial⟩, trivial⟩
  have shallow : Json.nesting text.toList ≤ 127 := by
    rw [(Doc.presents_of_spaced spaced).nests.nesting_eq]
    decide +kernel
  rw [spellings_agree v h d spelled text spaced, if_pos shallow]

end Value

end CellQuery
