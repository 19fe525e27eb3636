import CellQuery.Proofs.Wire.Spelling
import CellQuery.Root.Json

/-! # Round trips of JSON

    What is written as JSON is read back as long as the text is not nested deeper than
    the reader allows.  The depth is that of the text, so it counts the containers that
    are written without need, such as the empty lists of children; for a single
    value this comes down to a bound on the height. -/

namespace CellQuery

open Json

namespace Call

/-- The document of a call. -/
def doc (call : Call) : Doc :=
  .object [("name", .atom (.text call.name)), ("result", (Wire.ofValue call.result).doc)]

theorem json_eq (call : Call) : call.json = call.doc.compact := by
  have hname : "\x7b\"name\":".toList = '{' :: (quoted "name".toList ++ [':']) := by decide
  have hresult : ",\"result\":".toList = ',' :: (quoted "result".toList ++ [':']) := by decide
  have hvalue : call.result.json = (Wire.ofValue call.result).doc.compact := Wire.json_eq _
  unfold json
  rw [doc, Doc.compact_object, hname, hresult, hvalue]
  simp only [List.map_cons, List.map_nil, commaSeparated, Doc.compact_atom, Atom.compact,
    List.cons_append, List.append_assoc, List.nil_append]

theorem depth_doc (call : Call) : call.doc.depth = (Wire.ofValue call.result).doc.depth + 1 := by
  rw [doc, Doc.depth_object]
  simp [Doc.depth_atom]

/-- A call is read from its document. -/
theorem holds_call {call : Call} (h : call.result.WellFormed) : Holds ofJson call.doc call := by
  intro room
  have hfields : ∀ room, addFields (addField room) ⟨none, none⟩
      [(some "name", (Doc.atom (.text call.name)).tree),
        (some "result", (Wire.ofValue call.result).doc.tree)] =
      within (Wire.ofValue call.result).doc.depth room ⟨some call.name, some call.result⟩ := by
    intro room
    have hname : addField room ⟨none, none⟩ (some "name") (Doc.atom (.text call.name)).tree =
        within 0 room ⟨some call.name, none⟩ := rfl
    have hresult : addField room ⟨some call.name, none⟩ (some "result")
        (Wire.ofValue call.result).doc.tree =
        within (Wire.ofValue call.result).doc.depth room ⟨some call.name, some call.result⟩ := by
      rw [addField, if_neg (by decide), if_pos rfl, Value.holds_value h, once_within]
      exact within_bind_ok rfl
    have hboth := addFields_cons room hname (addFields_cons room hresult (addFields_nil room))
    rwa [Nat.zero_max, Nat.max_zero] at hboth
  rw [ofJson, depth_doc, doc, Doc.tree_object]
  simp only [List.map_cons, List.map_nil, record_object _ hfields]
  exact within_bind_ok rfl

end Call

namespace Root

/-- The document of a root. -/
def doc (root : Root) : Doc :=
  .object [("calls", .array (root.calls.map Call.doc))]

theorem json_eq (root : Root) : root.json = root.doc.compact := by
  have hcalls : "\x7b\"calls\":[".toList = '{' :: (quoted "calls".toList ++ [':', '[']) := by
    decide
  have hjson : Call.json = fun call => call.doc.compact := funext Call.json_eq
  unfold json
  rw [doc, Doc.compact_object, hcalls, hjson]
  simp only [List.map_cons, List.map_nil, commaSeparated, Doc.compact_array, List.map_map,
    List.cons_append, List.append_assoc, List.nil_append, Function.comp_def]

theorem depth_doc (root : Root) :
    root.doc.depth = (Doc.array (root.calls.map Call.doc)).depth + 1 := by
  rw [doc, Doc.depth_object]
  simp

/-- A root is read from its document. -/
theorem holds_root {root : Root} (h : root.WellFormed) : Holds ofJson root.doc root := by
  intro room
  have hfields : ∀ room, addFields (addField room) none
      [(some "calls", (Doc.array (root.calls.map Call.doc)).tree)] =
      within (Doc.array (root.calls.map Call.doc)).depth room (some root.calls) := by
    intro room
    have hcalls : arrayOf room Call.ofJson (Doc.array (root.calls.map Call.doc)).tree =
        within (Doc.array (root.calls.map Call.doc)).depth room root.calls :=
      holds_arrayOf (fun call hcall => Call.holds_call (h call hcall)) room
    have hfield : addField room none (some "calls") (Doc.array (root.calls.map Call.doc)).tree =
        within (Doc.array (root.calls.map Call.doc)).depth room (some root.calls) := by
      rw [addField, if_pos rfl, hcalls, once_within]
    have hone := addFields_cons room hfield (addFields_nil room)
    rwa [Nat.max_zero] at hone
  rw [ofJson, depth_doc, doc, Doc.tree_object]
  simp only [List.map_cons, List.map_nil, record_object _ hfields]
  exact within_bind_ok rfl

end Root

/-! ## Whole texts -/

namespace Json

/-- The compact text of a document is read as what the document holds, if it is not nested too
    deep. -/
theorem decode_compact {α : Type} {read : Nat → Json → Except DecodeError α} {d : Doc} {a : α}
    (h : Holds read d a) :
    decode read (String.ofList d.compact) =
      if nesting d.compact ≤ maxNesting then .ok a else .error .malformed := by
  have spaced : Spaced d.words (String.ofList d.compact).toList := by
    rw [String.toList_ofList]
    exact d.spaced_compact
  have hread := decode_of_spaced spaced h
  rwa [String.toList_ofList] at hread

/-- Lists within lists. -/
def nested : Nat → Value
  | 0 => .nil
  | n + 1 => .node .list [nested n]

theorem wellFormed_nested (n : Nat) : (nested n).WellFormed := by
  induction n with
  | zero => trivial
  | succ n ih => exact ⟨rfl, ih, trivial⟩

theorem height_nested (n : Nat) : (nested n).height = n + 1 := by
  induction n with
  | zero => rfl
  | succ n ih =>
    rw [nested, Value.height, Value.heightAll_singleton, ih, Nat.add_comm]

/-- Roots and values are read back from their texts, up to the limit on nested containers.

    * A root is read back if its text nests at most 127 containers.
    * A value is read back if its height is at most 63, its text being as deep as two
      containers for each level, or one more. -/
theorem root_and_value_round_trip :
    (∀ root : Root, root.WellFormed →
      Root.decodeJson (String.ofList root.json) =
        if nesting root.json ≤ 127 then .ok root else .error .malformed) ∧
    ∀ v : Value, v.WellFormed →
      Value.decodeJson (String.ofList v.json) =
        if v.height ≤ 63 then .ok v else .error .malformed := by
  constructor
  · intro root h
    rw [root.json_eq]
    exact decode_compact (Root.holds_root h)
  · intro v h
    have hjson : v.json = (Wire.ofValue v).doc.compact := Wire.json_eq _
    have hdepth := v.depth_doc
    -- Height 63 is at most 127 containers, and height 64 at least 128.
    have hlimit : nesting v.json ≤ maxNesting ↔ v.height ≤ 63 := by
      rw [hjson, Doc.nesting_compact, maxNesting]
      omega
    have hread := decode_compact (Value.holds_value h)
    rw [← hjson] at hread
    simpa only [Value.decodeJson, hlimit] using hread

/-- The name needs all kinds of escapes, and the second call makes 127 containers. -/
theorem root_and_value_round_trip_limit :
    let name := "\"a\\/b\n\x01é😀"
    let root : Root :=
      ⟨[⟨name, .node .equal [.bytes [0, 255], .uint 18446744073709551615]⟩, ⟨"", nested 61⟩]⟩
    Root.decodeJson (String.ofList root.json) = .ok root ∧
      Value.decodeJson (String.ofList (nested 62).json) = .ok (nested 62) ∧
      Value.decodeJson (String.ofList (nested 63).json) = .error .malformed := by
  intro name root
  have hroot : root.WellFormed := by
    have hfirst : (Value.node .equal [.bytes [0, 255], .uint 18446744073709551615]).WellFormed :=
      ⟨rfl, trivial, trivial, trivial⟩
    exact List.forall_mem_cons.mpr ⟨hfirst, List.forall_mem_cons.mpr ⟨wellFormed_nested 61, by simp⟩⟩
  have hnesting : nesting root.json ≤ 127 := by
    rw [root.json_eq, Doc.nesting_compact]
    decide +kernel
  have hread := root_and_value_round_trip.1 root hroot
  have hlow := root_and_value_round_trip.2 (nested 62) (wellFormed_nested 62)
  have hhigh := root_and_value_round_trip.2 (nested 63) (wellFormed_nested 63)
  rw [if_pos hnesting] at hread
  rw [height_nested] at hlow hhigh
  exact ⟨hread, hlow, hhigh⟩

end Json

end CellQuery
