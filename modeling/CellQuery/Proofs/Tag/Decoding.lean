import CellQuery.Proofs.Binary.Shortest
import CellQuery.Proofs.Wire.Spelling

/-! # Tags, looked up and decoded

    A tag is looked up by its number, by any integer or by its name, and decoded from JSON by name
    or by integer, and from bytes by number.  All of these are exact: they yield the tag that has
    the key, and nothing or a fault that names the key if there is none.

    * `Tag.Finds` and `Tag.Decodes` say what exact means, of a lookup and of a decoder.
    * `Tag.Finds.decodes` makes the one into the other.
    * `Tag.tags_decode_exactly` puts all ways together. -/

namespace CellQuery

open Binary Json

namespace Tag

/-! ## What exact means -/

section exact
variable {κ ε : Type}

/-- The lookup finds the tag that has the key, and nothing if no tag has it. -/
structure Finds (key : Tag → κ) (find? : κ → Option Tag) : Prop where
  some_iff : ∀ k tag, find? k = some tag ↔ key tag = k
  none_iff : ∀ k, find? k = none ↔ ∀ tag, key tag ≠ k

/-- The decoder yields the tag that has the key, and the fault of the key if no tag has it. -/
structure Decodes (key : Tag → κ) (fault : κ → ε) (decode : κ → Except ε Tag) : Prop where
  ok_iff : ∀ k tag, decode k = .ok tag ↔ key tag = k
  error_iff : ∀ k e, decode k = .error e ↔ e = fault k ∧ ∀ tag, key tag ≠ k

variable {key : Tag → κ} {find? : κ → Option Tag} {fault : κ → ε} {decode : κ → Except ε Tag}

theorem finds_of_some_iff (h : ∀ k tag, find? k = some tag ↔ key tag = k) : Finds key find? := by
  refine ⟨h, fun k => ?_⟩
  rw [Option.eq_none_iff_forall_ne_some]
  exact forall_congr' fun tag => not_congr (h k tag)

/-- A decoder that fails where a lookup finds nothing is as exact as the lookup. -/
theorem Finds.decodes (h : Finds key find?)
    (hsome : ∀ k tag, find? k = some tag → decode k = .ok tag)
    (hnone : ∀ k, find? k = none → decode k = .error (fault k)) : Decodes key fault decode := by
  constructor
  · intro k tag
    rw [← h.some_iff]
    refine ⟨fun hok => ?_, hsome k tag⟩
    cases hfind : find? k with
    | some found =>
      rw [hsome k found hfind] at hok
      cases hok
      rfl
    | none =>
      rw [hnone k hfind] at hok
      cases hok
  · intro k e
    rw [← h.none_iff]
    constructor
    · intro herror
      cases hfind : find? k with
      | some found =>
        rw [hsome k found hfind] at herror
        cases herror
      | none =>
        rw [hnone k hfind] at herror
        cases herror
        exact ⟨rfl, rfl⟩
    · rintro ⟨rfl, hfind⟩
      exact hnone k hfind

end exact

/-! ## Lookups -/

theorem finds_number : Finds number ofNumber? :=
  finds_of_some_iff fun _ _ => ofNumber?_eq_some

theorem finds_integer : Finds (fun tag => tag.number.toInt) ofInteger? :=
  finds_of_some_iff fun _ _ => ofInteger?_eq_some

theorem finds_name : Finds name ofName? :=
  finds_of_some_iff fun _ _ => ofName?_eq_some

/-- Integers that differ by a multiple of 2^32 are not taken for each other. -/
theorem ofInteger?_shifted (tag : Tag) {k : Int} (h : k ≠ 0) :
    ofInteger? (tag.number.toInt + k * 4294967296) = none := by
  rw [finds_integer.none_iff]
  intro other same
  -- Both numbers have 32 bits, so they are less than 2^32 apart.
  have := tag.number.le_toInt
  have := tag.number.toInt_lt
  have := other.number.le_toInt
  have := other.number.toInt_lt
  omega

/-! ## JSON -/

theorem decodes_integer : Decodes (fun tag => tag.number.toInt)
    (fun n => DecodeError.unknownTag (.number n)) fun n => Wire.tagOf (.integer n) := by
  apply finds_integer.decodes
  · intro n tag hfind
    simp only [Wire.tagOf, hfind]
  · intro n hfind
    simp only [Wire.tagOf, hfind]

theorem decodes_name : Decodes name
    (fun s => DecodeError.unknownTag (.name s)) fun s => Wire.tagOf (.string (some s)) := by
  apply finds_name.decodes
  · intro s tag hfind
    simp only [Wire.tagOf, hfind]
  · intro s hfind
    simp only [Wire.tagOf, hfind]

/-- A tag is decoded from the text of each of its spellings. -/
theorem decode_spelling {tag : Tag} {a : Atom} (h : Wire.TagSpelling tag a) :
    Json.decode (fun _ => Wire.tagOf) (String.ofList a.compact) = .ok tag := by
  have hlexes : Lexes a.compact (Doc.atom a).tokens := a.lexes
  rw [Json.decode, String.toList_ofList, Doc.ofText_of_lexes hlexes, Doc.tree_atom]
  simp only [h.tagOf]
  rfl

theorem decode_name (tag : Tag) :
    Json.decode (fun _ => Wire.tagOf) (String.ofList (quoted tag.name.toList)) = .ok tag := by
  have htext := decode_spelling (Wire.TagSpelling.name : Wire.TagSpelling tag _)
  rwa [Atom.compact] at htext

theorem number_nonneg (tag : Tag) : 0 ≤ tag.number.toInt := by
  cases tag <;> decide

theorem decode_number (tag : Tag) :
    Json.decode (fun _ => Wire.tagOf)
      (String.ofList (Text.decimal tag.number.toInt.toNat)) = .ok tag := by
  have hsize : tag.number.toInt.toNat < UInt64.size := by
    have := tag.number.toInt_lt
    unfold UInt64.size
    omega
  have hnat := UInt64.toNat_ofNat_of_lt' hsize
  have hspelling : Wire.TagSpelling tag (.number (UInt64.ofNat tag.number.toInt.toNat)) := by
    apply Wire.TagSpelling.number
    rw [hnat, Int.toNat_of_nonneg tag.number_nonneg]
  have htext := decode_spelling hspelling
  rwa [Atom.compact, hnat] at htext

/-! ## Bytes -/

/-- A number that is written is read, and then its tag is looked up. -/
theorem readTag_varint (n : Int32) (rest : List UInt8) :
    readTag (varint (zigzag n.toInt) ++ rest) =
      match ofInteger? n.toInt with
      | some tag => .ok (tag, rest)
      | none => .error (.unknownTag (.number n.toInt)) := by
  have hread := (reads_varint .word).read_spelled (shortest_word (zigzag_lt n)).spelled rest
  have hback : unzigzag (zigzag n.toInt) = n.toInt :=
    folded_iff_unzigzag.mp (folded_iff_zigzag.mpr rfl)
  show Reader.bind (readVarint .word) _ _ = _
  rw [Reader.bind, hread]
  simp only [hback]
  cases ofInteger? n.toInt <;> rfl

theorem ofInteger?_toInt (n : Int32) : ofInteger? n.toInt = ofNumber? n := by
  rw [ofInteger?, narrow?_eq_some.mpr rfl, Option.bind_some]

theorem decodes_bytes (rest : List UInt8) : Decodes number
    (fun n => ReadError.unknownTag (.number n.toInt))
    fun n => readTag.run (varint (zigzag n.toInt) ++ rest) := by
  apply finds_number.decodes
  · intro n tag hfind
    simp only [Reader.run, readTag_varint, ofInteger?_toInt, hfind]
  · intro n hfind
    simp only [Reader.run, readTag_varint, ofInteger?_toInt, hfind]

/-- Tags are looked up and decoded exactly: by a number of 32 bits, by an integer of any size, of
    which nothing wraps around to a tag, and by a name.  So a tag that is written by name or by
    number, as a text or as bytes, is decoded as itself. -/
theorem tags_decode_exactly :
    (Finds number ofNumber? ∧
      Finds (fun tag => tag.number.toInt) ofInteger? ∧
      Finds name ofName?) ∧
    (Decodes (fun tag => tag.number.toInt)
        (fun n => DecodeError.unknownTag (.number n)) (fun n => Wire.tagOf (.integer n)) ∧
      Decodes name
        (fun s => DecodeError.unknownTag (.name s)) (fun s => Wire.tagOf (.string (some s))) ∧
      ∀ rest, Decodes number (fun n => ReadError.unknownTag (.number n.toInt))
        fun n => readTag.run (varint (zigzag n.toInt) ++ rest)) ∧
    ∀ tag : Tag,
      (∀ k : Int, k ≠ 0 → ofInteger? (tag.number.toInt + k * 4294967296) = none) ∧
      Json.decode (fun _ => Wire.tagOf) (String.ofList (quoted tag.name.toList)) = .ok tag ∧
      Json.decode (fun _ => Wire.tagOf)
        (String.ofList (Text.decimal tag.number.toInt.toNat)) = .ok tag ∧
      ∀ rest, readTag (varint (zigzag tag.number.toInt) ++ rest) = .ok (tag, rest) := by
  refine ⟨⟨finds_number, finds_integer, finds_name⟩,
    ⟨decodes_integer, decodes_name, decodes_bytes⟩, fun tag => ?_⟩
  refine ⟨fun k hk => tag.ofInteger?_shifted hk, tag.decode_name, tag.decode_number, ?_⟩
  intro rest
  rw [readTag_varint, ofInteger?_eq_some.mpr rfl]

/-- Numbers next to a gap in the table, an integer that is the number of a tag modulo 2^32 only, and
    the beginning of a name. -/
theorem tags_decode_exactly_near_misses :
    ofNumber? 28 = some .filter ∧ ofNumber? 29 = none ∧ ofNumber? 48 = some .getCapacity ∧
      Wire.tagOf (.integer 26) = .ok .queryCells ∧
      Wire.tagOf (.integer 4294967322) = .error (.unknownTag (.number 4294967322)) ∧
      Wire.tagOf (.string (some "GET_DATA")) = .ok .getData ∧
      Wire.tagOf (.string (some "GET_DAT")) = .error (.unknownTag (.name "GET_DAT")) ∧
      readTag.run (varint (zigzag 84) ++ [7]) = .ok .minus := by
  obtain ⟨⟨hnumber, _, _⟩, ⟨hinteger, hname, hbytes⟩, _⟩ := tags_decode_exactly
  have hgap : ofNumber? 29 = none := (hnumber.none_iff 29).mpr fun tag => by cases tag <;> decide
  have hwrapped : ∀ tag : Tag, tag.number.toInt ≠ 4294967322 := fun tag => by
    cases tag <;> decide
  have hshort : ∀ tag : Tag, tag.name ≠ "GET_DAT" := fun tag => by cases tag <;> decide
  exact ⟨(hnumber.some_iff 28 .filter).mpr rfl, hgap, (hnumber.some_iff 48 .getCapacity).mpr rfl,
    (hinteger.ok_iff 26 .queryCells).mpr rfl, (hinteger.error_iff _ _).mpr ⟨rfl, hwrapped⟩,
    (hname.ok_iff _ .getData).mpr rfl, (hname.error_iff _ _).mpr ⟨rfl, hshort⟩,
    ((hbytes [7]).ok_iff 84 .minus).mpr rfl⟩

end Tag

end CellQuery
