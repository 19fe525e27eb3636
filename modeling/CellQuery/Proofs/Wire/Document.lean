import CellQuery.Proofs.Json.Holding
import CellQuery.Proofs.Tag.Lookup
import CellQuery.Proofs.Wire.Shape
import CellQuery.Wire.Json

/-! # Values as documents

    The text that is written for a wire value is the compact text of a document, whose
    fields the reader fills in one after another.  A level of the tree of a value
    takes two containers: its object and the array of its children.  Below that
    only the payload of a leaf may be, which is one container more, or two
    for a byte string. -/

namespace CellQuery

open Json

/-! ## Payloads -/

namespace Primitive

/-- The document under the field of a payload. -/
def content : Primitive → Doc
  | truth b => .atom (.bool b)
  | number n => .atom (.number n)
  | raw data => .array (data.map fun b => .atom (.number b.toUInt64))

/-- The document of a payload. -/
def doc (p : Primitive) : Doc :=
  .object [(p.kind.field, p.content)]

theorem json_eq (p : Primitive) : p.json = p.doc.compact := by
  have hdoc : p.doc.compact =
      '{' :: (quoted p.kind.field.toList ++ ':' :: (p.content.compact ++ ['}'])) := by
    rw [doc, Doc.compact_object, List.map_singleton, commaSeparated, List.append_assoc,
      List.cons_append]
  rw [hdoc]
  cases p with
  | truth b =>
    have hkey : "\x7b\"b\":".toList = '{' :: (quoted "b".toList ++ [':']) := by decide
    have hbool : (if b then "true".toList else "false".toList) = (content (truth b)).compact := by
      cases b <;> rfl
    have hjson : (truth b).json =
        "\x7b\"b\":".toList ++ (if b then "true".toList else "false".toList) ++ ['}'] := rfl
    rw [hjson, hkey, hbool]
    simp [kind, PayloadKind.field]
  | number n =>
    have hkey : "\x7b\"u\":".toList = '{' :: (quoted "u".toList ++ [':']) := by decide
    have hjson : (number n).json = "\x7b\"u\":".toList ++ Text.decimal n.toNat ++ ['}'] := rfl
    rw [hjson, hkey, content, Doc.compact_atom, Atom.compact]
    simp [kind, PayloadKind.field]
  | raw data =>
    have hkey : "\x7b\"raw\":[".toList = '{' :: (quoted "raw".toList ++ [':', '[']) := by decide
    have hjson : (raw data).json = "\x7b\"raw\":[".toList ++
        commaSeparated (data.map fun b => Text.decimal b.toNat) ++ [']', '}'] := rfl
    rw [hjson, hkey, content, Doc.compact_array]
    simp [kind, PayloadKind.field, Doc.compact_atom, Atom.compact, Function.comp_def]

theorem depth_doc (p : Primitive) : p.doc.depth = p.content.depth + 1 := by
  simp [doc, Doc.depth_object]

end Primitive

namespace Wire

/-- A byte is read from its number. -/
theorem holds_byte (b : UInt8) : Holds (fun _ => byteOf) (.atom (.number b.toUInt64)) b := by
  intro room
  have hsize : (b.toNat : Int) < 256 := by
    have := b.toNat_lt
    omega
  have hread : ∀ n : Int, byteOf (.integer n) =
      if 0 ≤ n ∧ n < 256 then .ok (UInt8.ofNat n.toNat) else .error .malformed := fun _ => rfl
  show byteOf (.integer b.toUInt64.toNat) = _
  rw [Doc.depth_atom, within_zero, UInt8.toNat_toUInt64, hread,
    if_pos ⟨Int.natCast_nonneg _, hsize⟩, Int.toNat_natCast, UInt8.ofNat_toNat]

/-- A number is read under its field, however large it is. -/
theorem payloadOf_number (room : Nat) (n : UInt64) :
    payloadOf room (some "u") (.integer n.toNat) = .ok (.number n) := by
  have hsize : (n.toNat : Int) < (UInt64.size : Int) := Int.ofNat_lt.mpr n.toNat_lt_size
  have hread : ∀ n : Int, payloadOf room (some "u") (.integer n) =
      if 0 ≤ n ∧ n < (UInt64.size : Int) then .ok (.number (UInt64.ofNat n.toNat))
      else .error .malformed := fun _ => rfl
  rw [hread, if_pos ⟨Int.natCast_nonneg _, hsize⟩, Int.toNat_natCast, UInt64.ofNat_toNat]

/-- A payload is read under its field. -/
theorem payloadOf_content (p : Primitive) (room : Nat) :
    payloadOf room (some p.kind.field) p.content.tree = within p.content.depth room p := by
  cases p with
  | truth b => exact (within_zero ..).symm
  | number n => exact (payloadOf_number room n).trans (within_zero ..).symm
  | raw data =>
    have hread : ∀ j : Json, payloadOf room (some "raw") j =
        (arrayOf room (fun _ => byteOf) j).map .raw := fun _ => rfl
    have hbytes : arrayOf room (fun _ => byteOf) (Primitive.content (.raw data)).tree =
        within (Primitive.content (.raw data)).depth room data :=
      holds_arrayOf (fun b _ => holds_byte b) room
    rw [Primitive.kind, PayloadKind.field, hread, hbytes, map_within]

/-- The document of a payload that may be missing. -/
def primitiveDoc : Option Primitive → Doc
  | none => .atom .null
  | some p => p.doc

theorem primitiveField_eq (primitive : Option Primitive) :
    primitiveField primitive =
      quoted "primitive".toList ++ ':' :: (primitiveDoc primitive).compact := by
  have hkey : "\"primitive\":".toList = quoted "primitive".toList ++ [':'] := by decide
  cases primitive with
  | none =>
    have hnull : "null".toList = Atom.null.compact := by decide
    have hfield : primitiveField none = "\"primitive\":".toList ++ "null".toList := rfl
    rw [hfield, hkey, hnull, List.append_assoc]
    rfl
  | some p =>
    have hfield : primitiveField (some p) = "\"primitive\":".toList ++ p.json := rfl
    rw [hfield, hkey, p.json_eq, List.append_assoc]
    rfl

/-- The deepest payload is a byte string: an object around an array. -/
theorem depth_primitiveDoc_le (primitive : Option Primitive) :
    (primitiveDoc primitive).depth ≤ 2 := by
  cases primitive with
  | none => exact Nat.zero_le 2
  | some p =>
    have hcontent : p.content.depth ≤ 1 := by
      cases p with
      | truth b => exact Nat.zero_le 1
      | number n => exact Nat.zero_le 1
      | raw data =>
        refine Doc.depth_array_le _ fun d hd => ?_
        obtain ⟨b, _, rfl⟩ := List.mem_map.mp hd
        exact Nat.le_refl 0
    have hdepth := p.depth_doc
    rw [primitiveDoc]
    omega

theorem holds_primitive (primitive : Option Primitive) :
    Holds primitiveOf (primitiveDoc primitive) primitive := by
  intro room
  cases primitive with
  | none => exact (within_zero ..).symm
  | some p =>
    have hpayload : ∀ room,
        (payloadOf room (some p.kind.field) p.content.tree).map some =
          within p.content.depth room (some p) := by
      intro room
      rw [payloadOf_content, map_within]
    rw [primitiveDoc, p.depth_doc, Primitive.doc, Doc.tree_object]
    exact enter_bind hpayload room

/-! ## Wire values -/

mutual

/-- The document of a wire value. -/
def doc : Wire → Doc
  | ⟨tag, primitive, children⟩ =>
    .object [("t", .atom (.text tag.name)), ("primitive", primitiveDoc primitive),
      ("children", .array (docs children))]

/-- The documents of a list of wire values. -/
def docs : List Wire → List Doc
  | [] => []
  | w :: ws => w.doc :: docs ws

end

theorem docs_eq (ws : List Wire) : docs ws = ws.map doc := by
  induction ws with
  | nil => rfl
  | cons w ws ih => rw [docs, ih, List.map_cons]

theorem depth_doc (tag : Tag) (primitive : Option Primitive) (children : List Wire) :
    (doc ⟨tag, primitive, children⟩).depth =
      max (primitiveDoc primitive).depth (Doc.array (children.map doc)).depth + 1 := by
  rw [doc, docs_eq, Doc.depth_object]
  simp [Doc.depth_atom]

theorem jsonItems_eq {ws : List Wire} (h : ∀ w ∈ ws, w.json = w.doc.compact) :
    jsonItems ws = commaSeparated ((ws.map doc).map Doc.compact) := by
  -- The writer puts the commas in front of all items but the first.
  have hafter : ∀ ws : List Wire, (∀ w ∈ ws, w.json = w.doc.compact) →
      ∀ w : Wire, w.json = w.doc.compact →
      w.json ++ jsonAfter ws = commaSeparated (((w :: ws).map doc).map Doc.compact) := by
    intro ws
    induction ws with
    | nil =>
      intro _ w hw
      simp [jsonAfter, commaSeparated, hw]
    | cons next ws ih =>
      intro hws w hw
      have hrest := ih (fun u hu => hws u (List.mem_cons_of_mem next hu)) next
        (hws next List.mem_cons_self)
      rw [jsonAfter, hrest, hw]
      rfl
  cases ws with
  | nil => rfl
  | cons w ws =>
    exact hafter ws (fun u hu => h u (List.mem_cons_of_mem w hu)) w (h w List.mem_cons_self)

theorem json_eq (w : Wire) : w.json = w.doc.compact := by
  induction w using of_children with
  | step w ih =>
    obtain ⟨tag, primitive, children⟩ := w
    have htag : tagField tag = quoted "t".toList ++ ':' :: quoted tag.name.toList := by
      have hkey : "\"t\":".toList = quoted "t".toList ++ [':'] := by decide
      rw [tagField, hkey, List.append_assoc]
      rfl
    have hchildren : ",\"children\":[".toList = ',' :: (quoted "children".toList ++ [':', '[']) := by
      decide
    rw [json, doc, docs_eq, Doc.compact_object, htag, primitiveField_eq, hchildren, jsonItems_eq ih]
    simp only [List.map_cons, List.map_nil, commaSeparated, Doc.compact_atom, Atom.compact,
      Doc.compact_array]
    simp only [List.cons_append, List.append_assoc, List.nil_append]

theorem ofItems_eq (room : Nat) (js : List Json) : ofItems room js = each (ofJson room) js := by
  induction js with
  | nil => rw [ofItems, each]
  | cons j js ih =>
    rw [ofItems, each_cons, ih]
    cases ofJson room j with
    | error e => rfl
    | ok w => cases each (ofJson room) js <;> rfl

/-! ## Reading the fields -/

section fields
variable {draft : Draft} (room : Nat)

theorem addField_tag (h : draft.tag = none) {a : Atom} {tag : Tag}
    (hread : tagOf a.tree = .ok tag) :
    addField room draft (some "t") (Doc.atom a).tree =
      within 0 room { draft with tag := some tag } := by
  rw [Doc.tree_atom, addField.eq_def, if_pos rfl, h, hread, within_zero]
  rfl

/-- A tag is read from its name. -/
theorem tagOf_name (tag : Tag) : tagOf (Atom.text tag.name).tree = .ok tag := by
  have hname : Tag.ofName? tag.name = some tag := Tag.ofName?_eq_some.mpr rfl
  rw [Atom.tree, tagOf, hname]

theorem addField_primitive (h : draft.primitive = none) (primitive : Option Primitive) :
    addField room draft (some "primitive") (primitiveDoc primitive).tree =
      within (primitiveDoc primitive).depth room { draft with primitive := some primitive } := by
  have honce := once_within (primitiveDoc primitive).depth room primitive
  rw [addField.eq_def, if_neg (by decide), if_pos rfl, h, holds_primitive primitive room, honce]
  exact within_bind_ok rfl

theorem addField_children (h : draft.children = none) {ws : List Wire} {ds : List Doc}
    (hws : List.Forall₂ (fun w d => Holds ofJson d w) ws ds) :
    addField room draft (some "children") (Doc.array ds).tree =
      within (Doc.array ds).depth room { draft with children := some ws } := by
  have hitems : (enter room >>= fun room => ofItems room (ds.map Doc.tree)) =
      within (Doc.array ds).depth room ws := by
    rw [Doc.depth_array]
    refine enter_bind (fun room => ?_) room
    rw [ofItems_eq]
    exact each_within hws room
  rw [Doc.tree_array, addField, if_neg (by decide), if_neg (by decide), if_pos rfl]
  simp only [hitems, h, once_within]
  exact within_bind_ok rfl

end fields

theorem addFields_eq (room : Nat) (draft : Draft) (fields : List (Key × Json)) :
    addFields room draft fields = Json.addFields (addField room) draft fields := by
  induction fields generalizing draft with
  | nil => rw [addFields, Json.addFields]
  | cons field fields ih =>
    rw [addFields, Json.addFields]
    cases addField room draft field.1 field.2 with
    | error e => rfl
    | ok draft => exact ih draft

end Wire

/-! ## Values -/

namespace Value

/-- The deepest document of a list of values, against the highest of these values. -/
theorem depth_docs {vs : List Value}
    (h : ∀ v ∈ vs, 2 * v.height ≤ (Wire.ofValue v).doc.depth ∧
      (Wire.ofValue v).doc.depth ≤ 2 * v.height + 1) :
    2 * heightAll vs + 1 ≤ (Doc.array ((vs.map Wire.ofValue).map Wire.doc)).depth ∧
      (Doc.array ((vs.map Wire.ofValue).map Wire.doc)).depth ≤ 2 * heightAll vs + 2 := by
  rw [Doc.depth_array]
  induction vs with
  | nil => simp [heightAll]
  | cons v vs ih =>
    have hv := h v List.mem_cons_self
    have hvs := ih fun u hu => h u (List.mem_cons_of_mem v hu)
    simp only [List.map_cons, List.foldr_cons, heightAll]
    omega

/-- Every level of a value takes two containers, and one more can be needed at the end. -/
theorem depth_doc (v : Value) : 2 * v.height ≤ (Wire.ofValue v).doc.depth ∧
    (Wire.ofValue v).doc.depth ≤ 2 * v.height + 1 := by
  induction v using of_children with
  | step v ih =>
    obtain ⟨tag, primitive, hwire⟩ : ∃ tag primitive,
        Wire.ofValue v = ⟨tag, primitive, v.children.map Wire.ofValue⟩ := by
      cases v with
      | node tag children => exact ⟨tag, none, Wire.ofValue_node tag children⟩
      | _ => exact ⟨_, _, rfl⟩
    -- Next to the array of children, which is there even if empty, only the deepest payload counts.
    have hchildren := depth_docs ih
    have hprimitive := Wire.depth_primitiveDoc_le primitive
    rw [hwire, Wire.depth_doc, height_eq]
    omega

end Value

end CellQuery
