import CellQuery.Tag

/-! # Tags by number and by name

    The table of tags is sorted by wire number and holds every tag.  So the
    bisection finds a tag exactly if there is one with the number: the positions
    that it has given up hold smaller numbers on the left and larger ones on
    the right.  No two tags share a name either. -/

namespace CellQuery.Tag

/-! ## The table -/

theorem mem_all (tag : Tag) : tag ∈ all := by
  cases tag <;> simp [all]

theorem all_sorted : all.Pairwise fun a b => a.number < b.number := by
  decide

/-- A tag stands somewhere in the table. -/
theorem exists_position (tag : Tag) : ∃ i : Nat, table[i]? = some tag := by
  obtain ⟨i, h, hi⟩ := List.getElem_of_mem (mem_all tag)
  exact ⟨i, by simp [table, h, hi]⟩

/-- Positions are ordered as the numbers are. -/
theorem number_lt_of_position_lt {i j : Nat} {a b : Tag} (ha : table[i]? = some a)
    (hb : table[j]? = some b) (h : i < j) : a.number < b.number := by
  simp only [table, List.getElem?_toArray] at ha hb
  obtain ⟨hi, rfl⟩ := List.getElem?_eq_some_iff.mp ha
  obtain ⟨hj, rfl⟩ := List.getElem?_eq_some_iff.mp hb
  exact List.pairwise_iff_getElem.mp all_sorted i j hi hj h

theorem number_injective {a b : Tag} (h : a.number = b.number) : a = b := by
  obtain ⟨i, hi⟩ := exists_position a
  obtain ⟨j, hj⟩ := exists_position b
  rcases Nat.lt_trichotomy i j with hij | rfl | hij
  · have := number_lt_of_position_lt hi hj hij
    exact (Int32.lt_irrefl (h ▸ this)).elim
  · exact Option.some.inj (hi.symm.trans hj)
  · have := number_lt_of_position_lt hj hi hij
    exact (Int32.lt_irrefl (h ▸ this)).elim

/-! ## The bisection -/

theorem number_of_search {target : Int32} {low high : Nat} {tag : Tag}
    (h : search target low high = some tag) : tag.number = target := by
  fun_induction search target low high with
  | case1 => simp at h
  | case2 low high _ middle found _ hit => exact Option.some.inj h ▸ hit
  | case3 low high _ middle found _ _ _ ih => exact ih h
  | case4 low high _ middle found _ _ _ ih => exact ih h
  | case5 => simp at h

/-- Every tag with the number stands between the two positions. -/
def Brackets (target : Int32) (low high : Nat) : Prop :=
  ∀ i tag, table[i]? = some tag → tag.number = target → low ≤ i ∧ i < high

/-- The tag in the middle is smaller: what is sought stands to the right of it. -/
theorem Brackets.right {target : Int32} {low middle high : Nat} {tag : Tag}
    (h : Brackets target low high) (at_middle : table[middle]? = some tag)
    (smaller : tag.number < target) : Brackets target (middle + 1) high := by
  intro i found hi hit
  refine ⟨?_, (h i found hi hit).2⟩
  -- Up to the middle all numbers are smaller than the one that is sought.
  rcases Nat.lt_trichotomy i middle with lt | rfl | gt
  · have := number_lt_of_position_lt hi at_middle lt
    exact (Int32.lt_irrefl (Int32.lt_trans smaller (hit ▸ this))).elim
  · rw [Option.some.inj (hi.symm.trans at_middle)] at hit
    exact (Int32.lt_irrefl (hit ▸ smaller)).elim
  · exact gt

/-- The tag in the middle is larger: what is sought stands to the left of it. -/
theorem Brackets.left {target : Int32} {low middle high : Nat} {tag : Tag}
    (h : Brackets target low high) (at_middle : table[middle]? = some tag)
    (larger : target < tag.number) : Brackets target low middle := by
  intro i found hi hit
  refine ⟨(h i found hi hit).1, ?_⟩
  rcases Nat.lt_trichotomy i middle with lt | rfl | gt
  · exact lt
  · rw [Option.some.inj (hi.symm.trans at_middle)] at hit
    exact (Int32.lt_irrefl (hit ▸ larger)).elim
  · have := number_lt_of_position_lt at_middle hi gt
    exact (Int32.lt_irrefl (Int32.lt_trans larger (hit ▸ this))).elim

theorem search_of_brackets {target : Int32} {low high : Nat} {tag : Tag}
    (brackets : Brackets target low high) (within : high ≤ table.size)
    (h : tag.number = target) : search target low high = some tag := by
  fun_induction search target low high with
  | case1 low high _ middle none_there =>
    -- The middle lies within the table.
    have := Array.getElem?_eq_none_iff.mp none_there
    omega
  | case2 low high _ middle found _ hit => rw [number_injective (hit.trans h.symm)]
  | case3 low high _ middle found there _ smaller ih =>
    exact ih (brackets.right there smaller) within
  | case4 low high _ middle found there ne not_smaller ih =>
    have larger : target < found.number :=
      Int32.lt_of_le_of_ne (Int32.not_lt.mp not_smaller) (Ne.symm ne)
    exact ih (brackets.left there larger) (by omega)
  | case5 low high empty =>
    -- No position is left, yet the tag has one.
    obtain ⟨i, hi⟩ := exists_position tag
    have := brackets i tag hi h
    omega

/-! ## Numbers and integers -/

/-- The tag of a number is the one that has the number. -/
theorem ofNumber?_eq_some {number : Int32} {tag : Tag} :
    ofNumber? number = some tag ↔ tag.number = number := by
  refine ⟨number_of_search, search_of_brackets ?_ (Nat.le_refl _)⟩
  intro i found hi _
  obtain ⟨hlt, _⟩ := Array.getElem?_eq_some_iff.mp hi
  exact ⟨Nat.zero_le i, hlt⟩

theorem narrow?_eq_some {n : Int} {number : Int32} :
    narrow? n = some number ↔ number.toInt = n := by
  unfold narrow?
  constructor
  · intro h
    split at h
    next fits =>
      rw [← Option.some.inj h, Int32.toInt_ofInt_of_le fits.1 (by omega)]
    next => simp at h
  · rintro rfl
    have low := number.le_toInt
    have high := number.toInt_lt
    rw [if_pos (by omega), Int32.ofInt_toInt]

/-- The tag of an integer is the one whose number it is: nothing wraps around. -/
theorem ofInteger?_eq_some {n : Int} {tag : Tag} :
    ofInteger? n = some tag ↔ tag.number.toInt = n := by
  rw [ofInteger?, Option.bind_eq_some_iff]
  constructor
  · rintro ⟨number, hn, htag⟩
    rw [← narrow?_eq_some.mp hn, ofNumber?_eq_some.mp htag]
  · intro h
    exact ⟨tag.number, narrow?_eq_some.mpr h, ofNumber?_eq_some.mpr rfl⟩

/-! ## Names -/

/-- The tag of a name is the one that has the name. -/
theorem ofName?_eq_some {name : String} {tag : Tag} : ofName? name = some tag ↔ tag.name = name := by
  constructor
  · intro h
    simpa using List.find?_some h
  · rintro rfl
    cases tag <;> decide +kernel

end CellQuery.Tag
