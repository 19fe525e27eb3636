import CellQuery.Eval.Operator

/-! # Slices of byte strings

    `LEN`, `INDEX` and `SLICE` each check their ranges in a way of their own.  On byte strings
    the ranges are the same, and positions in a slice are those of the whole, shifted.

    * `Bytes.slice_ok` and `Bytes.slice_out` tell when there is a slice, and `Bytes.byteAt_ok`
      and `Bytes.byteAt_out` when there is a byte.
    * `Bytes.Part` is what the three operators say of a slice, in terms of the whole.
    * `Bytes.slices_agree` puts it together, from the length that `LEN` yields. -/

namespace CellQuery

namespace Bytes

/-! ## The operators on byte strings -/

section operators
variable (ε : Type) (data : List UInt8)

/-- `LEN` of a byte string. -/
def lengthOf : Outcome (EvalError ε) Value :=
  compute .len [.bytes data]

/-- `INDEX` of a byte string and a position. -/
def byteAt (i : UInt64) : Outcome (EvalError ε) Value :=
  compute .index [.bytes data, .uint i]

/-- `SLICE` of a byte string and two bounds. -/
def sliceOf (s e : UInt64) : Outcome (EvalError ε) Value :=
  compute .slice [.bytes data, .uint s, .uint e]

end operators

/-- The bytes from one position up to another. -/
def cut (data : List UInt8) (s e : UInt64) : List UInt8 :=
  (data.take e.toNat).drop s.toNat

variable {ε : Type} {data : List UInt8} {i s e : UInt64}

/-- Refused, because one of the numbers is not below some limit. -/
def OutOfRange (tag : Tag) (numbers : List UInt64) (x : Outcome (EvalError ε) Value) : Prop :=
  ∃ n ∈ numbers, ∃ limit, limit ≤ n.toNat ∧ x = .error (.outOfRange tag n limit)

/-! ## One operator at a time -/

theorem lengthOf_eq : lengthOf ε data = .ok (.uint (UInt64.ofNat data.length)) :=
  rfl

/-- There is a byte at the position, or the position is refused. -/
theorem byteAt_eq : byteAt ε data i =
    data[i.toNat]?.elim (.error (.outOfRange .index i data.length)) fun b =>
      .ok (.uint (UInt64.ofNat b.toNat)) := by
  -- The number of operands and the type of the position are in order.
  simp only [byteAt, compute, index, Operands.two, Operands.uint, Value.asUInt?, Bind.bind,
    Outcome.bind]
  cases data[i.toNat]? <;> rfl

theorem byteAt_ok {b : UInt8} (h : data[i.toNat]? = some b) :
    byteAt ε data i = .ok (.uint (UInt64.ofNat b.toNat)) := by
  rw [byteAt_eq, h, Option.elim_some]

theorem byteAt_out (h : data.length ≤ i.toNat) : OutOfRange .index [i] (byteAt ε data i) := by
  refine ⟨i, List.mem_singleton_self i, data.length, h, ?_⟩
  rw [byteAt_eq, List.getElem?_eq_none h, Option.elim_none]

/-- The two bounds are checked in turn, and then their order. -/
theorem sliceOf_eq : sliceOf ε data s e =
    (bound s data.length).bind fun first => (bound e data.length).bind fun last =>
      if last < first then .error (.outOfRange .slice s last)
      else (Outcome.ofOption .sliceBounds (between? data first last)).bind fun part =>
        .ok (.bytes part) :=
  rfl

theorem bound_ok {n : UInt64} {limit : Nat} (h : n.toNat ≤ limit) :
    bound (ε := ε) n limit = .ok n.toNat :=
  if_pos h

theorem bound_out {n : UInt64} {limit : Nat} (h : limit < n.toNat) :
    bound (ε := ε) n limit = .error (.outOfRange .slice n limit) :=
  if_neg (Nat.not_le.mpr h)

theorem slice_ok (ordered : s ≤ e) (within : e.toNat ≤ data.length) :
    sliceOf ε data s e = .ok (.bytes (cut data s e)) := by
  have hse : s.toNat ≤ e.toNat := ordered
  have hcut : between? data s.toNat e.toNat = some (cut data s e) :=
    if_pos ⟨hse, within⟩
  rw [sliceOf_eq, bound_ok (Nat.le_trans hse within), bound_ok within]
  simp only [Outcome.bind, if_neg (Nat.not_lt.mpr hse), hcut, Outcome.ofOption]

theorem slice_out (h : ¬(s ≤ e ∧ e.toNat ≤ data.length)) :
    OutOfRange .slice [s, e] (sliceOf ε data s e) := by
  rw [sliceOf_eq]
  by_cases first : s.toNat ≤ data.length
  · rw [bound_ok first]
    by_cases last : e.toNat ≤ data.length
    · -- Both bounds are within the data, so it is their order that is wrong.
      have hes : e.toNat < s.toNat := Nat.not_le.mp fun hse => h ⟨hse, last⟩
      rw [bound_ok last]
      refine ⟨s, by simp, e.toNat, Nat.le_of_lt hes, ?_⟩
      simp only [Outcome.bind, if_pos hes]
    · rw [bound_out (Nat.not_le.mp last)]
      exact ⟨e, by simp, data.length, Nat.le_of_not_le last, rfl⟩
  · rw [bound_out (Nat.not_le.mp first)]
    exact ⟨s, by simp, data.length, Nat.le_of_not_le first, rfl⟩

/-! ## Positions in a slice -/

section positions
variable {k l : UInt64}

theorem toNat_width (ordered : s ≤ e) : (e - s).toNat = e.toNat - s.toNat :=
  UInt64.toNat_sub_of_le e s ordered

/-- A position in a slice, shifted, does not wrap around: it is no further than the end. -/
theorem toNat_shift (ordered : s ≤ e) (within : k ≤ e - s) :
    (s + k).toNat = s.toNat + k.toNat ∧ s.toNat + k.toNat ≤ e.toNat := by
  have hk : k.toNat ≤ (e - s).toNat := within
  have hse : s.toNat ≤ e.toNat := ordered
  -- The end is a number of 64 bits, so the sum is one too.
  have he := e.toNat_lt
  rw [toNat_width ordered] at hk
  rw [UInt64.toNat_add]
  omega

theorem shift_le_shift (ordered : s ≤ e) (hkl : k ≤ l) (within : l ≤ e - s) : s + k ≤ s + l := by
  have hkl' : k.toNat ≤ l.toNat := hkl
  have hk := (toNat_shift ordered (UInt64.le_trans hkl within)).1
  have hl := (toNat_shift ordered within).1
  rw [UInt64.le_iff_toNat_le, hk, hl]
  omega

end positions

/-- What the operators say of a slice of a byte string. -/
structure Part (ε : Type) (data : List UInt8) (s e : UInt64) (part : List UInt8) : Prop where
  /-- It is as long as its bounds are apart. -/
  length : lengthOf ε part = .ok (.uint (e - s))
  /-- A byte of it is the byte of the whole at the shifted position. -/
  index_ok : ∀ i, i < e - s →
    (∃ b, byteAt ε part i = .ok (.uint b)) ∧ byteAt ε part i = byteAt ε data (s + i)
  /-- It has no other bytes. -/
  index_out : ∀ i, ¬i < e - s → OutOfRange .index [i] (byteAt ε part i)
  /-- A slice of it is the slice of the whole between the shifted bounds. -/
  slice_ok : ∀ s' e', s' ≤ e' ∧ e' ≤ e - s →
    (∃ inner, sliceOf ε part s' e' = .ok (.bytes inner)) ∧
      sliceOf ε part s' e' = sliceOf ε data (s + s') (s + e')
  /-- It has no other slices. -/
  slice_out : ∀ s' e', ¬(s' ≤ e' ∧ e' ≤ e - s) → OutOfRange .slice [s', e'] (sliceOf ε part s' e')
  /-- It is made of the two slices up to a position between its bounds and from there on. -/
  split : ∀ m, s ≤ m ∧ m ≤ e → ∃ left right, sliceOf ε data s m = .ok (.bytes left) ∧
    sliceOf ε data m e = .ok (.bytes right) ∧ left ++ right = part

theorem length_cut (ordered : s ≤ e) (within : e.toNat ≤ data.length) :
    (cut data s e).length = (e - s).toNat := by
  rw [toNat_width ordered, cut, List.length_drop, List.length_take, Nat.min_eq_left within]

theorem getElem?_cut (ordered : s ≤ e) (inside : i < e - s) :
    (cut data s e)[i.toNat]? = data[(s + i).toNat]? := by
  have hi : i.toNat < (e - s).toNat := inside
  rw [toNat_width ordered] at hi
  rw [(toNat_shift ordered (UInt64.le_of_lt inside)).1, cut, List.getElem?_drop,
    List.getElem?_take_of_lt (by omega)]

theorem cut_cut {s' e' : UInt64} (ordered : s ≤ e) (ordered' : s' ≤ e') (within : e' ≤ e - s) :
    cut (cut data s e) s' e' = cut data (s + s') (s + e') := by
  have hs' := (toNat_shift ordered (UInt64.le_trans ordered' within)).1
  obtain ⟨he', hle⟩ := toNat_shift ordered within
  unfold cut
  rw [hs', he', List.take_drop, List.take_take, Nat.min_eq_left hle, List.drop_drop]

theorem cut_append {m : UInt64} (hsm : s ≤ m) (hme : m ≤ e) (within : e.toNat ≤ data.length) :
    cut data s m ++ cut data m e = cut data s e := by
  have hsm' : s.toNat ≤ m.toNat := hsm
  have hme' : m.toNat ≤ e.toNat := hme
  -- The left part stops within the whole, where the right part begins.
  have hleft : data.take m.toNat = (data.take e.toNat).take m.toNat := by
    rw [List.take_take, Nat.min_eq_left hme']
  have hlength : s.toNat ≤ ((data.take e.toNat).take m.toNat).length := by
    rw [← hleft, List.length_take]
    omega
  unfold cut
  rw [hleft, ← List.drop_append_of_le_length hlength, List.take_append_drop]

theorem part_cut (ordered : s ≤ e) (within : e.toNat ≤ data.length) :
    Part ε data s e (cut data s e) := by
  have hlength := length_cut ordered within
  constructor
  case length => rw [lengthOf_eq, hlength, UInt64.ofNat_toNat]
  case index_ok =>
    intro i inside
    have hlt : i.toNat < (cut data s e).length := by
      rw [hlength]
      exact inside
    have hbyte := List.getElem?_eq_getElem hlt
    have hwhole := (getElem?_cut ordered inside).symm.trans hbyte
    exact ⟨⟨_, byteAt_ok hbyte⟩, (byteAt_ok hbyte).trans (byteAt_ok hwhole).symm⟩
  case index_out =>
    intro i outside
    apply byteAt_out
    rw [hlength]
    exact Nat.not_lt.mp outside
  case slice_ok =>
    rintro s' e' ⟨ordered', within'⟩
    have hin : e'.toNat ≤ (cut data s e).length := by
      rw [hlength]
      exact within'
    have hout : (s + e').toNat ≤ data.length := by
      obtain ⟨he', hle⟩ := toNat_shift ordered within'
      omega
    have hinner := slice_ok (ε := ε) ordered' hin
    refine ⟨⟨_, hinner⟩, ?_⟩
    rw [hinner, slice_ok (shift_le_shift ordered ordered' within') hout,
      cut_cut ordered ordered' within']
  case slice_out =>
    intro s' e' outside
    apply slice_out
    rw [hlength]
    exact outside
  case split =>
    rintro m ⟨hsm, hme⟩
    have hm : m.toNat ≤ data.length := Nat.le_trans hme within
    exact ⟨_, _, slice_ok hsm hm, slice_ok hme within, cut_append hsm hme within⟩

/-- On a byte string whose length is a number of 64 bits, `SLICE`, `INDEX` and `LEN` agree.  There
    is a slice exactly if its bounds are in order and no further than the length, and from the
    first position up to the length it is the whole.  The bytes and the slices of a slice are
    those of the whole at the shifted positions, and there are no others. -/
theorem slices_agree (data : List UInt8) (fits : data.length < UInt64.size) :
    ∃ n, lengthOf ε data = .ok (.uint n) ∧ n.toNat = data.length ∧
      sliceOf ε data 0 n = .ok (.bytes data) ∧
      ∀ s e,
        (s ≤ e ∧ e ≤ n → ∃ part, sliceOf ε data s e = .ok (.bytes part) ∧ Part ε data s e part) ∧
        (¬(s ≤ e ∧ e ≤ n) → OutOfRange .slice [s, e] (sliceOf ε data s e)) := by
  have hn : (UInt64.ofNat data.length).toNat = data.length := UInt64.toNat_ofNat_of_lt' fits
  refine ⟨UInt64.ofNat data.length, lengthOf_eq, hn, ?_, fun s e => ⟨?_, ?_⟩⟩
  · have hwhole : cut data 0 (UInt64.ofNat data.length) = data := by
      rw [cut, hn, List.take_length]
      rfl
    rw [slice_ok (UInt64.le_iff_toNat_le.mpr (Nat.zero_le _)) (Nat.le_of_eq hn), hwhole]
  · rintro ⟨ordered, below⟩
    have within : e.toNat ≤ data.length := hn ▸ UInt64.le_iff_toNat_le.mp below
    exact ⟨_, slice_ok ordered within, part_cut ordered within⟩
  · intro outside
    apply slice_out
    rwa [UInt64.le_iff_toNat_le (a := e), hn] at outside

/-- Five bytes, a slice of three of them, and a bound that is as far out as it can be. -/
theorem slices_agree_middle :
    let data : List UInt8 := [7, 8, 9, 10, 11]
    let far : UInt64 := 18446744073709551615
    data.length < UInt64.size ∧
      sliceOf Empty data 1 4 = .ok (.bytes [8, 9, 10]) ∧
      byteAt Empty [8, 9, 10] 2 = byteAt Empty data 3 ∧
      OutOfRange .index [3] (byteAt Empty [8, 9, 10] 3) ∧
      sliceOf Empty [8, 9, 10] 1 3 = sliceOf Empty data 2 4 ∧
      OutOfRange .slice [1, far] (sliceOf Empty data 1 far) := by
  intro data far
  have fits : data.length < UInt64.size := by decide
  obtain ⟨n, _, hn, _, hslices⟩ := slices_agree (ε := Empty) data fits
  obtain rfl : n = 5 := UInt64.toNat_inj.mp hn
  have hslice : sliceOf Empty data 1 4 = .ok (.bytes [8, 9, 10]) := rfl
  obtain ⟨part, hpart, hagrees⟩ := (hslices 1 4).1 (by decide)
  cases hslice.symm.trans hpart
  have hindex := (hagrees.index_ok 2 (by decide)).2
  have hinner := (hagrees.slice_ok 1 3 (by decide)).2
  exact ⟨fits, hslice, hindex, hagrees.index_out 3 (by decide), hinner,
    (hslices 1 far).2 (by decide)⟩

end Bytes

end CellQuery
