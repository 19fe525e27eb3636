import CellQuery.Proofs.Binary.Reads

/-! # The readers of the binary format

    Each reader reads the format of its name: numbers, tags, payloads, wire
    values, values, texts, calls and roots, in that order. -/

namespace CellQuery.Binary

/-! ## Numbers -/

theorem Groups.ne_nil {n : Nat} {bytes : List UInt8} (h : Groups n bytes) : bytes ≠ [] := by
  cases h <;> simp

theorem spells_one_byte {left last : Nat} {b : UInt8} (low : b.toNat < 128) :
    Width.Spells ⟨left + 1, last⟩ b.toNat [b] ↔ ¬(left = 0 ∧ last < b.toNat) := by
  have one : [b].length ≤ left + 1 := Nat.le_add_left 1 left
  have bounded : b.toNat < 128 ^ left * (last + 1) ↔ ¬(left = 0 ∧ last < b.toNat) := by
    cases left with
    | zero =>
      -- In the last place the bound leaves room for `last` and no more.
      rw [Nat.pow_zero]
      omega
    | succ left =>
      have : 1 ≤ 128 ^ left * (last + 1) := Nat.mul_pos (Nat.pow_pos (by decide)) (by omega)
      rw [Nat.pow_succ, Nat.mul_right_comm]
      omega
  exact ⟨fun h => bounded.mp h.2.2, fun h => ⟨.last low, one, bounded.mpr h⟩⟩

theorem spells_more_bytes {left last n : Nat} {b : UInt8} {bytes : List UInt8}
    (high : 128 ≤ b.toNat) (rest : Groups n bytes) :
    Width.Spells ⟨left + 1, last⟩ (b.toNat - 128 + 128 * n) (b :: bytes) ↔
      Width.Spells ⟨left, last⟩ n bytes := by
  have group : b.toNat - 128 < 128 := by
    have := b.toNat_lt
    omega
  cases left with
  | zero =>
    -- The bytes that follow have no place left.
    have some_byte : 0 < bytes.length := List.length_pos_iff.mpr rest.ne_nil
    refine iff_of_false (fun h => ?_) fun h => ?_
    · exact Nat.not_lt.mpr (Nat.le_of_succ_le_succ h.2.1) some_byte
    · exact Nat.not_lt.mpr h.2.1 some_byte
  | succ left =>
    have bounded : b.toNat - 128 + 128 * n < 128 ^ (left + 1) * (last + 1) ↔
        n < 128 ^ left * (last + 1) := by
      rw [Nat.pow_succ, Nat.mul_right_comm]
      omega
    constructor
    · intro h
      exact ⟨rest, Nat.le_of_succ_le_succ h.2.1, bounded.mp h.2.2⟩
    · intro h
      exact ⟨.more high rest, Nat.succ_le_succ h.2.1, bounded.mpr h.2.2⟩

/-- The groups of a number within a width, one byte after the other. -/
theorem reads_groups (last left : Nat) :
    Reads (readGroups last left) (Width.Spells ⟨left, last⟩) := by
  induction left with
  | zero =>
    refine (Reads.fail .badVarint).congr fun n bytes => ⟨False.elim, ?_⟩
    intro h
    exact h.1.ne_nil (List.length_eq_zero_iff.mp (Nat.le_zero.mp h.2.1))
  | succ left ih =>
    unfold readGroups
    refine (Reads.byte.bind fun b => .ite (.ite (.fail .badVarint) (.pure b.toNat))
      (ih.map fun high => b.toNat - 128 + 128 * high)).congr fun n bytes => ⟨?_, ?_⟩
    · intro ⟨b, front, back, one, more, both⟩
      rw [both, one]
      rcases more with ⟨low, ⟨_, impossible⟩ | ⟨fits, rfl, rfl⟩⟩ | ⟨high, m, hm, rfl⟩
      · exact impossible.elim
      · exact (spells_one_byte low).mpr fits
      · exact (spells_more_bytes (Nat.le_of_not_lt high) hm.1).mpr hm
    · intro h
      cases h.1 with
      | @last b low =>
        have fits := (spells_one_byte low).mp h
        exact ⟨b, [b], [], rfl, .inl ⟨low, .inr ⟨fits, rfl, rfl⟩⟩, rfl⟩
      | @more b m back high rest =>
        have hm := (spells_more_bytes high rest).mp h
        exact ⟨b, [b], back, rfl, .inr ⟨Nat.not_lt.mpr high, m, hm, rfl⟩, rfl⟩

/-- A number of a width. -/
theorem reads_varint (width : Width) : Reads (readVarint width) width.Spells :=
  reads_groups width.last width.bytes

theorem folded_iff_unzigzag {i : Int} {n : Nat} : Folded i n ↔ unzigzag n = i := by
  unfold unzigzag
  constructor
  · intro h
    cases h with
    | natural k =>
      rw [if_pos (by omega), show 2 * k / 2 = k by omega]
    | negative k =>
      rw [if_neg (by omega), show (2 * k + 1) / 2 = k by omega]
  · intro h
    split at h
    next even =>
      have := Folded.natural (n / 2)
      rwa [h, show 2 * (n / 2) = n by omega] at this
    next odd =>
      have := Folded.negative (n / 2)
      rwa [h, show 2 * (n / 2) + 1 = n by omega] at this

/-! ## Tags and payloads -/

theorem reads_tag : Reads readTag Tag.Spelled := by
  unfold readTag
  refine ((reads_varint .word).select (g := fun n => Tag.ofInteger? (unzigzag n))
    (fun n tag h => by simp only [h]) fun n h => ⟨_, by simp only [h]; rfl⟩).congr
      fun tag bytes => ⟨?_, ?_⟩
  · intro ⟨n, hn, found⟩
    exact ⟨n, folded_iff_unzigzag.mpr (Tag.ofInteger?_eq_some.mp found).symm, hn⟩
  · intro ⟨n, folded, hn⟩
    exact ⟨n, hn, Tag.ofInteger?_eq_some.mpr (folded_iff_unzigzag.mp folded).symm⟩

theorem reads_bool : Reads readBool fun b bytes => bytes = [if b then 1 else 0] := by
  unfold readBool
  refine (Reads.byte.choose (q := fun mark b => mark = if b then 1 else 0)
    fun mark => ?_).congr fun b bytes => by simp
  by_cases zero : mark = 0
  · rw [if_pos zero]
    exact Reads.pure_of fun b => by cases b <;> simp [zero]
  · rw [if_neg zero]
    by_cases one : mark = 1
    · rw [if_pos one]
      exact Reads.pure_of fun b => by cases b <;> simp [one]
    · rw [if_neg one]
      exact Reads.fail_of fun b => by cases b <;> simp [zero, one]

theorem sequence_bytes {data bytes : List UInt8} :
    Sequence (fun b bytes => bytes = [b]) data bytes ↔ bytes = data := by
  constructor
  · intro h
    induction h with
    | nil => rfl
    | cons one _ ih => rw [one, ih]; rfl
  · intro h
    rw [h]
    clear h
    induction data with
    | nil => exact .nil
    | cons b data ih => exact show Sequence _ (b :: data) ([b] ++ data) from .cons rfl ih

theorem counted_iff {α : Type} {item : Format α} {as : List α} {bytes : List UInt8} :
    Counted item as bytes ↔
      ∃ count items, Width.long.Spells as.length count ∧ Sequence item as items ∧
        bytes = count ++ items := by
  constructor
  · intro h
    cases h with
    | intro count items => exact ⟨_, _, count, items, rfl⟩
  · intro ⟨count, items, hcount, hitems, both⟩
    rw [both]
    exact .intro hcount hitems

theorem reads_counted {α : Type} {r : Reader α} {item : Format α} (h : Reads r item) :
    Reads (readVarint .long >>= r.times) (Counted item) := by
  refine ((reads_varint .long).bind fun n => h.times n).congr fun as bytes => ?_
  rw [counted_iff]
  constructor
  · intro ⟨n, count, items, hn, ⟨hlength, has⟩, both⟩
    exact ⟨count, items, hlength ▸ hn, has, both⟩
  · intro ⟨count, items, hcount, has, both⟩
    exact ⟨as.length, count, items, hcount, ⟨rfl, has⟩, both⟩

theorem reads_measured : Reads (readVarint .long >>= Reader.take) Measured := by
  refine ((reads_varint .long).bind Reads.take).congr fun data bytes => ?_
  rw [Measured, counted_iff]
  constructor
  · intro ⟨n, count, items, hn, ⟨hlength, same⟩, both⟩
    exact ⟨count, items, hlength ▸ hn, sequence_bytes.mpr same, both⟩
  · intro ⟨count, items, hcount, hitems, both⟩
    exact ⟨data.length, count, items, hcount, ⟨rfl, sequence_bytes.mp hitems⟩, both⟩

/-- The content of a payload, after the index of its kind. -/
theorem reads_primitive : Reads readPrimitive Primitive.Spelled := by
  unfold readPrimitive
  refine (reads_varint .word).bind (q := Primitive.Content) fun kind => ?_
  match kind with
  | 0 =>
    refine (reads_bool.map Primitive.truth).congr fun p bytes => ⟨?_, ?_⟩
    · intro ⟨b, hb, same⟩
      rw [hb, same]
      exact .truth b
    · intro h
      cases h with
      | truth b => exact ⟨b, rfl, rfl⟩
  | 1 =>
    refine ((reads_varint .long).map fun n => Primitive.number (UInt64.ofNat n)).congr
      fun p bytes => ⟨?_, ?_⟩
    · intro ⟨n, hn, same⟩
      rw [same]
      refine .number ?_
      rwa [UInt64.toNat_ofNat_of_lt' hn.2.2]
    · intro h
      cases h with
      | @number n _ hn => exact ⟨n.toNat, hn, by rw [UInt64.ofNat_toNat]⟩
  | 2 =>
    have raw := reads_measured.map Primitive.raw
    rw [Reads.bind_assoc] at raw
    refine raw.congr fun p bytes => ⟨?_, ?_⟩
    · intro ⟨data, hdata, same⟩
      rw [same]
      exact .raw hdata
    · intro h
      cases h with
      | raw hdata => exact ⟨_, hdata, rfl⟩
  | n + 3 =>
    exact (Reads.fail (.unknownPayload (n + 3))).congr fun p bytes => ⟨False.elim, nofun⟩

theorem reads_primitiveOption :
    Reads readPrimitiveOption (Optional Primitive.Spelled) := by
  unfold readPrimitiveOption
  refine (Reads.byte.bind fun mark =>
    .ite (.pure none) (.ite (reads_primitive.map some) (.fail .badOption))).congr
      fun p bytes => ⟨?_, ?_⟩
  · intro ⟨mark, front, back, one, content, both⟩
    rw [both, one]
    rcases content with ⟨zero, missing, nothing⟩ | ⟨_, ⟨present, a, ha, same⟩ | ⟨_, impossible⟩⟩
    · rw [zero, missing, nothing]
      exact .none
    · rw [present, same]
      exact .some ha
    · exact impossible.elim
  · intro h
    cases h with
    | none => exact ⟨0, [0], [], rfl, .inl ⟨rfl, rfl, rfl⟩, rfl⟩
    | @some a back ha => exact ⟨1, [1], back, rfl, .inr ⟨by decide, .inl ⟨rfl, a, ha, rfl⟩⟩, rfl⟩

/-! ## Wire values -/

/-- The wire value has at most the given number of levels. -/
def NestedWithin : Nat → Wire → Prop
  | 0, _ => False
  | depth + 1, w => ∀ c ∈ w.children, NestedWithin depth c

theorem Sequence.length_le {α : Type} {item : Format α} {as : List α} {bytes : List UInt8}
    (h : Sequence item as bytes) {a : α} (ha : a ∈ as) :
    ∃ front, item a front ∧ front.length ≤ bytes.length := by
  induction h with
  | nil => cases ha
  | @cons b bs front back hb _ ih =>
    rw [List.length_append]
    rcases List.mem_cons.mp ha with rfl | later
    · exact ⟨front, hb, by omega⟩
    · obtain ⟨bytes, item, hle⟩ := ih later
      exact ⟨bytes, item, by omega⟩

theorem sequence_and {α : Type} {item : Format α} {P : α → Prop} {as : List α}
    {bytes : List UInt8} :
    Sequence (fun a bytes => item a bytes ∧ P a) as bytes ↔
      Sequence item as bytes ∧ ∀ a ∈ as, P a := by
  constructor
  · intro h
    induction h with
    | nil => exact ⟨.nil, by simp⟩
    | cons ha _ ih => exact ⟨.cons ha.1 ih.1, List.forall_mem_cons.mpr ⟨ha.2, ih.2⟩⟩
  · intro ⟨h, all⟩
    induction h with
    | nil => exact .nil
    | cons ha _ ih =>
      obtain ⟨first, others⟩ := List.forall_mem_cons.mp all
      exact .cons ⟨ha, first⟩ (ih others)

theorem counted_and {α : Type} {item : Format α} {P : α → Prop} {as : List α}
    {bytes : List UInt8} :
    Counted (fun a bytes => item a bytes ∧ P a) as bytes ↔
      Counted item as bytes ∧ ∀ a ∈ as, P a := by
  rw [counted_iff, counted_iff]
  constructor
  · intro ⟨count, items, hcount, hitems, both⟩
    obtain ⟨hitems, all⟩ := sequence_and.mp hitems
    exact ⟨⟨count, items, hcount, hitems, both⟩, all⟩
  · intro ⟨⟨count, items, hcount, hitems, both⟩, all⟩
    exact ⟨count, items, hcount, sequence_and.mpr ⟨hitems, all⟩, both⟩

theorem length_pos_of_tag {tag : Tag} {bytes : List UInt8} (h : tag.Spelled bytes) :
    0 < bytes.length := by
  obtain ⟨n, _, hn⟩ := h
  exact List.length_pos_iff.mpr hn.1.ne_nil

/-- Every level takes a byte of its own. -/
theorem nestedWithin_of_spelled {w : Wire} {bytes : List UInt8} (h : w.Spelled bytes)
    {depth : Nat} (enough : bytes.length ≤ depth) : NestedWithin depth w := by
  induction depth generalizing w bytes with
  | zero =>
    cases h with
    | intro tag _ _ =>
      have := length_pos_of_tag tag
      simp only [List.length_append] at enough
      omega
  | succ depth ih =>
    cases h with
    | intro tag _ below =>
      intro c hc
      obtain ⟨count, items, _, hitems, both⟩ := counted_iff.mp below
      obtain ⟨bytes, hbytes, hle⟩ := hitems.length_le hc
      -- The tag takes a byte, so the children have fewer than the whole.
      have := length_pos_of_tag tag
      refine ih hbytes ?_
      simp only [both, List.length_append] at enough
      omega

theorem reads_wireWithin (depth : Nat) :
    Reads (readWireWithin depth) fun w bytes => w.Spelled bytes ∧ NestedWithin depth w := by
  induction depth with
  | zero => exact (Reads.fail .unexpectedEnd).congr fun w bytes => by simp [NestedWithin]
  | succ depth ih =>
    unfold readWireWithin
    have below (tag : Tag) (primitive : Option Primitive) :=
      (reads_counted ih).map fun children => (⟨tag, primitive, children⟩ : Wire)
    simp only [Reads.bind_assoc] at below
    refine (reads_tag.bind fun tag => reads_primitiveOption.bind fun primitive =>
      below tag primitive).congr fun w bytes => ⟨?_, ?_⟩
    · intro ⟨tag, head, _, htag, ⟨primitive, payload, below, hpayload, hbelow, rest⟩, whole⟩
      obtain ⟨children, hchildren, same⟩ := hbelow
      obtain ⟨hchildren, nested⟩ := counted_and.mp hchildren
      rw [whole, rest, same]
      exact ⟨.intro htag hpayload hchildren, nested⟩
    · intro ⟨h, nested⟩
      cases h with
      | @intro tag primitive children head payload below htag hpayload hbelow =>
        have hchildren := counted_and.mpr ⟨hbelow, nested⟩
        exact ⟨tag, head, _, htag,
          ⟨primitive, payload, below, hpayload, ⟨children, hchildren, rfl⟩, rfl⟩, rfl⟩

theorem reads_wire : Reads readWire Wire.Spelled := by
  intro input w rest
  rw [readWire, reads_wireWithin input.length input w rest]
  constructor
  · intro ⟨front, h, both⟩
    exact ⟨front, h.1, both⟩
  · intro ⟨front, h, both⟩
    -- The spelling is no longer than the input, which bounds the depth.
    exact ⟨front, ⟨h, nestedWithin_of_spelled h (by simp [both])⟩, both⟩

/-! ## Values and roots -/

theorem reads_value : Reads readValue Value.Spelled := by
  unfold readValue
  refine (reads_wire.choose (q := fun w v => w.toValue = .ok v) fun w => ?_).congr
    fun v bytes => ⟨?_, ?_⟩
  · cases checked : w.toValue with
    | ok v => exact Reads.pure_of fun other => by rw [Except.ok.injEq, eq_comm]
    | error e => exact Reads.fail_of fun other => nofun
  · intro ⟨w, hw, checked⟩
    obtain ⟨well_formed, image⟩ := Wire.toValue_eq_ok.mp checked
    exact ⟨well_formed, image ▸ hw⟩
  · intro ⟨well_formed, hw⟩
    exact ⟨_, hw, Wire.toValue_ofValue well_formed⟩

theorem fromUTF8?_eq_some {bytes : List UInt8} {s : String} :
    String.fromUTF8? ⟨bytes.toArray⟩ = some s ↔ s.toUTF8.data.toList = bytes := by
  unfold String.fromUTF8?
  constructor
  · intro h
    split at h
    next valid =>
      cases h
      rfl
    next => cases h
  · intro h
    have same : (⟨bytes.toArray⟩ : ByteArray) = s.toByteArray := by
      rw [← h, String.toUTF8_eq_toByteArray]
    rw [dif_pos (same ▸ s.isValidUTF8), Option.some.injEq, ← String.toByteArray_inj]
    exact same

theorem reads_text : Reads readText Text := by
  unfold readText
  rw [← Reads.bind_assoc]
  refine (reads_measured.select (g := fun data => String.fromUTF8? ⟨data.toArray⟩)
    (fun data s h => by simp only [h]) fun data h => ⟨_, by simp only [h]; rfl⟩).congr
      fun s bytes => ⟨?_, ?_⟩
  · intro ⟨data, hdata, decoded⟩
    show Measured s.toUTF8.data.toList bytes
    rw [fromUTF8?_eq_some.mp decoded]
    exact hdata
  · intro h
    exact ⟨_, h, fromUTF8?_eq_some.mpr rfl⟩

theorem reads_call : Reads readCall Call.Spelled := by
  unfold readCall
  refine (reads_text.bind fun name => reads_value.map fun result => (⟨name, result⟩ : Call)).congr
    fun call bytes => ⟨?_, ?_⟩
  · intro ⟨name, front, back, hname, ⟨result, hresult, same⟩, both⟩
    rw [same]
    exact ⟨front, back, hname, hresult, both⟩
  · intro ⟨front, back, hname, hresult, both⟩
    exact ⟨call.name, front, back, hname, ⟨call.result, hresult, rfl⟩, both⟩

theorem reads_root : Reads readRoot Root.Spelled := by
  unfold readRoot
  rw [← Reads.bind_assoc]
  refine ((reads_counted reads_call).map Root.mk).congr fun root bytes => ⟨?_, ?_⟩
  · intro ⟨calls, hcalls, same⟩
    rw [same]
    exact hcalls
  · intro h
    exact ⟨root.calls, h, rfl⟩

end CellQuery.Binary
