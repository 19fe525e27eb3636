import CellQuery.Proofs.Binary.Readers

/-! # Writers write shortest spellings

    Numbers may be written longer than they need, so a thing has several
    spellings.  The writers choose one that is as short as any: a number has no
    needless groups, and everything else inherits this from its parts.

    A length is a number of 64 bits.  `Value.LengthsFit` says that no list in a
    value is too long to be counted by one, as holds of lists in a memory. -/

namespace CellQuery

/-! ## Lengths -/

namespace Value

/-- The length of the list that the top of a value carries. -/
def listLength : Value → Nat
  | bytes data => data.length
  | v => v.children.length

/-- Every list in the value has a length of 64 bits. -/
def LengthsFit (v : Value) : Prop :=
  ∀ u ∈ v.subtrees, u.listLength < 2 ^ 64

theorem lengthsFit_iff {v : Value} :
    v.LengthsFit ↔ v.listLength < 2 ^ 64 ∧ ∀ c ∈ v.children, c.LengthsFit := by
  constructor
  · intro h
    exact ⟨h v (self_mem_subtrees v), fun c hc u hu => h u (mem_subtrees_of_child hc hu)⟩
  · intro ⟨here, below⟩ u hu
    rcases mem_subtrees.mp hu with rfl | ⟨c, hc, hu⟩
    · exact here
    · exact below c hc u hu

end Value

/-- Every list and every name in the root has a length of 64 bits. -/
def Root.LengthsFit (root : Root) : Prop :=
  root.calls.length < 2 ^ 64 ∧
    ∀ call ∈ root.calls, call.name.toUTF8.size < 2 ^ 64 ∧ call.result.LengthsFit

namespace Binary

/-! ## Numbers -/

theorem toNat_byte {n : Nat} (h : n < 256) : (UInt8.ofNat n).toNat = n :=
  UInt8.toNat_ofNat_of_lt' h

theorem groups_varint (n : Nat) : Groups n (varint n) := by
  induction n using Nat.strongRecOn with
  | ind n ih =>
    rw [varint]
    split
    next low =>
      have byte : (UInt8.ofNat n).toNat = n := toNat_byte (by omega)
      have := Groups.last (b := UInt8.ofNat n) (by omega)
      rwa [byte] at this
    next high =>
      have byte : (UInt8.ofNat (n % 128 + 128)).toNat = n % 128 + 128 :=
        toNat_byte (by omega)
      have := Groups.more (b := UInt8.ofNat (n % 128 + 128)) (by omega) (ih (n / 128) (by omega))
      rwa [byte, show n % 128 + 128 - 128 + 128 * (n / 128) = n by omega] at this

/-- No spelling of a number has fewer groups. -/
theorem length_varint_le {n : Nat} {bytes : List UInt8} (h : Groups n bytes) :
    (varint n).length ≤ bytes.length := by
  induction h with
  | last low =>
    rw [varint, if_pos low]
    exact Nat.le_refl _
  | @more b n bytes _ _ ih =>
    rw [varint]
    split
    next => simp
    next =>
      -- What is left after the first group is the number that the others spell.
      have := b.toNat_lt
      rw [show (b.toNat - 128 + 128 * n) / 128 = n by omega]
      simpa using ih

theorem length_varint_le_of_lt {n k : Nat} (h : n < 128 ^ (k + 1)) :
    (varint n).length ≤ k + 1 := by
  induction k generalizing n with
  | zero => rw [varint, if_pos (by omega)]; simp
  | succ k ih =>
    rw [varint]
    split
    next => simp
    next =>
      rw [Nat.pow_succ] at h
      simpa using ih (n := n / 128) (by omega)

/-- The bytes spell the thing, and no spelling of it is shorter. -/
structure Shortest {α : Type} (format : Format α) (a : α) (bytes : List UInt8) : Prop where
  spelled : format a bytes
  least : ∀ other, format a other → bytes.length ≤ other.length

theorem shortest_word {n : Nat} (h : n < 2 ^ 32) : Shortest Width.word.Spells n (varint n) :=
  ⟨⟨groups_varint n, length_varint_le_of_lt (k := 4) (by omega), h⟩,
    fun _ other => length_varint_le other.1⟩

theorem shortest_long {n : Nat} (h : n < 2 ^ 64) : Shortest Width.long.Spells n (varint n) :=
  ⟨⟨groups_varint n, length_varint_le_of_lt (k := 9) (by omega), h⟩,
    fun _ other => length_varint_le other.1⟩

/-! ## Options and sequences -/

section parts
variable {α : Type} {item : Format α}

theorem shortest_none : Shortest (Optional item) none [0] := by
  refine ⟨.none, fun other h => ?_⟩
  cases h
  exact Nat.le_refl _

theorem shortest_some {a : α} {bytes : List UInt8} (h : Shortest item a bytes) :
    Shortest (Optional item) (some a) (1 :: bytes) := by
  refine ⟨.some h.spelled, fun other hother => ?_⟩
  cases hother with
  | some hother => exact Nat.succ_le_succ (h.least _ hother)

theorem shortest_sequence {write : α → List UInt8} {as : List α}
    (h : ∀ a ∈ as, Shortest item a (write a)) :
    Shortest (Sequence item) as (as.flatMap write) := by
  induction as with
  | nil => exact ⟨.nil, fun _ _ => Nat.zero_le _⟩
  | cons a as ih =>
    obtain ⟨ha, has⟩ := List.forall_mem_cons.mp h
    rw [List.flatMap_cons]
    refine ⟨.cons ha.spelled (ih has).spelled, fun other hother => ?_⟩
    cases hother with
    | cons front back =>
      have := ha.least _ front
      have := (ih has).least _ back
      simp only [List.length_append]
      omega

theorem shortest_counted {as : List α} {items : List UInt8} (few : as.length < 2 ^ 64)
    (h : Shortest (Sequence item) as items) :
    Shortest (Counted item) as (varint as.length ++ items) := by
  have hcount := shortest_long few
  refine ⟨.intro hcount.spelled h.spelled, fun other hother => ?_⟩
  cases hother with
  | intro count others =>
    have := hcount.least _ count
    have := h.least _ others
    simp only [List.length_append]
    omega

end parts

theorem shortest_measured {data : List UInt8} (short : data.length < 2 ^ 64) :
    Shortest Measured data (varint data.length ++ data) := by
  refine shortest_counted short ⟨sequence_bytes.mpr rfl, fun other h => ?_⟩
  exact Nat.le_of_eq (congrArg List.length (sequence_bytes.mp h).symm)

/-! ## Tags and payloads -/

theorem folded_iff_zigzag {i : Int} {n : Nat} : Folded i n ↔ n = zigzag i := by
  unfold zigzag
  constructor
  · intro h
    cases h with
    | natural k => rw [if_pos (by omega)]; omega
    | negative k => rw [if_neg (by omega)]; omega
  · intro h
    split at h
    next =>
      have := Folded.natural i.toNat
      rwa [← h, show (i.toNat : Int) = i by omega] at this
    next =>
      have := Folded.negative ((-i).toNat - 1)
      rwa [show -(((-i).toNat - 1 : Nat) + 1 : Int) = i by omega,
        show 2 * ((-i).toNat - 1) + 1 = n by omega] at this

/-- A number of 32 bits stays one when it is folded. -/
theorem zigzag_lt (n : Int32) : zigzag n.toInt < 2 ^ 32 := by
  have := n.le_toInt
  have := n.toInt_lt
  unfold zigzag
  split <;> omega

theorem shortest_tag (tag : Tag) :
    Shortest Tag.Spelled tag (varint (zigzag tag.number.toInt)) := by
  have hn := shortest_word (zigzag_lt tag.number)
  refine ⟨⟨_, folded_iff_zigzag.mpr rfl, hn.spelled⟩, fun other h => ?_⟩
  obtain ⟨n, folded, h⟩ := h
  rw [folded_iff_zigzag.mp folded] at h
  exact hn.least other h

/-- A byte string in the payload has a length of 64 bits. -/
def PayloadFits : Primitive → Prop
  | .raw data => data.length < 2 ^ 64
  | _ => True

/-- The content of a payload, after an index that takes one byte. -/
theorem shortest_variant {k : Nat} {p : Primitive} {content : List UInt8} (small : k < 128)
    (only : ∀ i bytes, Primitive.Content i p bytes → i = k)
    (h : Shortest (Primitive.Content k) p content) :
    Shortest Primitive.Spelled p (UInt8.ofNat k :: content) := by
  have hk := shortest_word (n := k) (by omega)
  rw [varint, if_pos small] at hk
  refine ⟨⟨k, _, content, hk.spelled, h.spelled, rfl⟩, fun other hother => ?_⟩
  obtain ⟨i, front, back, hi, hback, both⟩ := hother
  -- However the index is written, it is that of the kind of payload.
  rw [only i back hback] at hi hback
  have := hk.least front hi
  have := h.least back hback
  simp only [both, List.length_cons, List.length_append] at *
  omega

theorem shortest_primitive {p : Primitive} (fits : PayloadFits p) :
    Shortest Primitive.Spelled p p.binary := by
  cases p with
  | truth b =>
    refine shortest_variant (k := 0) (by decide) (fun i bytes h => by cases h; rfl) ?_
    refine ⟨.truth b, fun other h => ?_⟩
    cases h
    exact Nat.le_refl _
  | number n =>
    have hn := shortest_long n.toNat_lt
    refine shortest_variant (k := 1) (by decide) (fun i bytes h => by cases h; rfl) ?_
    refine ⟨.number hn.spelled, fun other h => ?_⟩
    cases h with
    | number h => exact hn.least other h
  | raw data =>
    have hdata := shortest_measured fits
    refine shortest_variant (k := 2) (by decide) (fun i bytes h => by cases h; rfl) ?_
    refine ⟨.raw hdata.spelled, fun other h => ?_⟩
    cases h with
    | raw h => exact hdata.least other h

/-! ## Wire values -/

theorem binaryAll_eq (ws : List Wire) : Wire.binaryAll ws = ws.flatMap Wire.binary := by
  induction ws with
  | nil => rfl
  | cons w ws ih => rw [Wire.binaryAll, ih, List.flatMap_cons]

theorem shortest_wire {w : Wire} (fits : ∀ p, w.primitive = some p → PayloadFits p)
    (few : w.children.length < 2 ^ 64)
    (h : ∀ c ∈ w.children, Shortest Wire.Spelled c c.binary) :
    Shortest Wire.Spelled w w.binary := by
  obtain ⟨tag, primitive, children⟩ := w
  have htag := shortest_tag tag
  have hpayload : Shortest (Optional Primitive.Spelled) primitive
      (Primitive.binaryOption primitive) := by
    cases primitive with
    | none => exact shortest_none
    | some p => exact shortest_some (shortest_primitive (fits p rfl))
  have hchildren := shortest_counted few (shortest_sequence h)
  rw [Wire.binary, binaryAll_eq, List.append_assoc, List.append_assoc]
  refine ⟨.intro htag.spelled hpayload.spelled hchildren.spelled, fun other hother => ?_⟩
  cases hother with
  | intro head payload below =>
    have := htag.least _ head
    have := hpayload.least _ payload
    have := hchildren.least _ below
    simp only [List.length_append] at *
    omega

theorem shortest_leaf {tag : Tag} {p : Primitive} (fits : PayloadFits p) :
    Shortest Wire.Spelled ⟨tag, some p, []⟩ (Wire.binary ⟨tag, some p, []⟩) := by
  refine shortest_wire (fun q hq => ?_) (Nat.two_pow_pos 64) nofun
  cases hq
  exact fits

/-! ## Values and roots -/

theorem shortest_ofValue {v : Value} (fits : v.LengthsFit) :
    Shortest Wire.Spelled (Wire.ofValue v) v.binary := by
  induction v using Value.of_children with
  | step v ih =>
    obtain ⟨here, below⟩ := Value.lengthsFit_iff.mp fits
    rw [Value.binary]
    cases v with
    | node tag children =>
      rw [Wire.ofValue_node]
      refine shortest_wire nofun (by rwa [List.length_map]) fun c hc => ?_
      obtain ⟨child, hchild, rfl⟩ := List.mem_map.mp hc
      exact ih child hchild (below child hchild)
    | bytes data => exact shortest_leaf here
    | nil => exact shortest_wire nofun (by decide) nofun
    | _ => exact shortest_leaf trivial

/-- What is spelled has no list that is too long. -/
theorem lengthsFit_of_spelled {v : Value} {bytes : List UInt8}
    (h : (Wire.ofValue v).Spelled bytes) : v.LengthsFit := by
  induction v using Value.of_children generalizing bytes with
  | step v ih =>
    rw [Value.lengthsFit_iff]
    cases v with
    | node tag children =>
      rw [Wire.ofValue_node] at h
      cases h with
      | intro _ _ below =>
        obtain ⟨count, items, hcount, hitems, _⟩ := counted_iff.mp below
        have few := hcount.2.2
        rw [List.length_map] at few
        refine ⟨few, fun c hc => ?_⟩
        obtain ⟨front, hfront, _⟩ := hitems.length_le (List.mem_map_of_mem hc)
        exact ih c hc hfront
    | bytes data =>
      cases h with
      | intro _ payload _ =>
        cases payload with
        | some payload =>
          obtain ⟨kind, front, back, _, content, _⟩ := payload
          cases content with
          | raw measured =>
            obtain ⟨count, items, hcount, _, _⟩ := counted_iff.mp measured
            exact ⟨hcount.2.2, nofun⟩
    | _ => exact ⟨Nat.two_pow_pos 64, nofun⟩

theorem shortest_value {v : Value} (well_formed : v.WellFormed) (fits : v.LengthsFit) :
    Shortest Value.Spelled v v.binary := by
  have h := shortest_ofValue fits
  exact ⟨⟨well_formed, h.spelled⟩, fun other hother => h.least other hother.2⟩

theorem shortest_text {s : String} (short : s.toUTF8.size < 2 ^ 64) :
    Shortest Text s (varint s.toUTF8.data.toList.length ++ s.toUTF8.data.toList) := by
  have h : Shortest Measured s.toUTF8.data.toList _ := shortest_measured short
  exact ⟨h.spelled, h.least⟩

theorem shortest_call {call : Call} (well_formed : call.result.WellFormed)
    (short : call.name.toUTF8.size < 2 ^ 64) (fits : call.result.LengthsFit) :
    Shortest Call.Spelled call call.binary := by
  have hname := shortest_text short
  have hresult := shortest_value well_formed fits
  refine ⟨⟨_, _, hname.spelled, hresult.spelled, rfl⟩, fun other h => ?_⟩
  obtain ⟨front, back, hfront, hback, both⟩ := h
  have := hname.least front hfront
  have := hresult.least back hback
  simp only [Call.binary, both, List.length_append] at *
  omega

theorem shortest_root {root : Root} (well_formed : root.WellFormed) (fits : root.LengthsFit) :
    Shortest Root.Spelled root root.binary := by
  have calls : ∀ call ∈ root.calls, Shortest Call.Spelled call call.binary := by
    intro call hcall
    obtain ⟨short, result⟩ := fits.2 call hcall
    exact shortest_call (well_formed call hcall) short result
  have h := shortest_counted fits.1 (shortest_sequence calls)
  exact ⟨h.spelled, h.least⟩

end Binary

end CellQuery
