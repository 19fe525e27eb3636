import CellQuery.Json.Decode
import CellQuery.Proofs.Json.Spacing
import Mathlib.Data.List.Forall2

/-! # Documents that hold data

    A reader goes down the tree of a document with a limit on nested containers.
    `Holds read d a` says that the limit is all that stands between the document and
    the data: the reader finds `a` if the document is no deeper than the limit
    allows, and otherwise refuses the text.  Readers that are put together of such
    readers are such readers. -/

namespace CellQuery.Json

variable {α β : Type}

/-! ## Results within the limit -/

/-- The result `a`, if so many containers may be nested. -/
def within (depth room : Nat) (a : α) : Except DecodeError α :=
  if depth ≤ room then .ok a else .error .malformed

theorem within_zero (room : Nat) (a : α) : within 0 room a = .ok a :=
  if_pos (Nat.zero_le room)

theorem map_within (f : α → β) (depth room : Nat) (a : α) :
    (within depth room a).map f = within depth room (f a) := by
  unfold within
  split <;> rfl

/-- Two results one after the other have to be within the limit both. -/
theorem within_bind {f : α → Except DecodeError β} {m n room : Nat} {a : α} {b : β}
    (h : f a = within n room b) : (within m room a >>= f) = within (max m n) room b := by
  by_cases hm : m ≤ room
  · have hfirst : within m room a = .ok a := if_pos hm
    have hmax : max m n ≤ room ↔ n ≤ room := by omega
    have hbind : (within m room a >>= f) = f a := by rw [hfirst]; rfl
    rw [hbind, h]
    simp only [within, hmax]
  · -- The first result is out of the limit already, so the second does not count.
    have hfirst : within m room a = .error .malformed := if_neg hm
    have hmax : ¬max m n ≤ room := by omega
    rw [hfirst, within, if_neg hmax]
    rfl

/-- What cannot go wrong needs nothing of the limit. -/
theorem within_bind_ok {f : α → Except DecodeError β} {depth room : Nat} {a : α} {b : β}
    (h : f a = .ok b) : (within depth room a >>= f) = within depth room b := by
  have hmax := within_bind (m := depth) (h.trans (within_zero room b).symm)
  rwa [Nat.max_zero] at hmax

/-- A container that is entered takes one off the limit. -/
theorem enter_bind {f : Nat → Except DecodeError α} {depth : Nat} {a : α}
    (h : ∀ room, f room = within depth room a) (room : Nat) :
    (enter room >>= f) = within (depth + 1) room a := by
  cases room with
  | zero => rfl
  | succ room =>
    have hroom : depth + 1 ≤ room + 1 ↔ depth ≤ room := by omega
    have hbind : (enter (room + 1) >>= f) = f room := rfl
    rw [hbind, h room]
    simp only [within, hroom]

/-- A field that has not been given before. -/
theorem once_within (depth room : Nat) (a : α) :
    once none (within depth room a) = within depth room (some a) :=
  map_within some depth room a

/-! ## Readers -/

/-- The reader finds `a` in the document, unless that is too deep. -/
def Holds (read : Nat → Json → Except DecodeError α) (d : Doc) (a : α) : Prop :=
  ∀ room, read room d.tree = within d.depth room a

theorem each_cons (f : Json → Except DecodeError α) (j : Json) (js : List Json) :
    each f (j :: js) = (f j >>= fun a => (each f js).map (a :: ·)) := by
  rw [each]
  cases f j with
  | error e => rfl
  | ok a => cases each f js <;> rfl

section items
variable {read : Nat → Json → Except DecodeError α} {items : List α}

/-- A list of documents is read within the limit that the deepest of them needs. -/
theorem each_within {docs : List Doc}
    (h : List.Forall₂ (fun a d => Holds read d a) items docs) (room : Nat) :
    each (read room) (docs.map Doc.tree) =
      within ((docs.map Doc.depth).foldr max 0) room items := by
  induction h with
  | nil => exact (within_zero room []).symm
  | cons ha _ hitems =>
    rw [List.map_cons, List.map_cons, List.foldr_cons, each_cons, ha room, hitems]
    exact within_bind (map_within ..)

theorem holds_arrayOf {doc : α → Doc} (h : ∀ a ∈ items, Holds read (doc a) a) :
    Holds (fun room => arrayOf room read) (.array (items.map doc)) items := by
  intro room
  have hitems : List.Forall₂ (fun a d => Holds read d a) items (items.map doc) := by
    rw [List.forall₂_map_right_iff]
    exact List.forall₂_same.mpr h
  rw [Doc.tree_array, Doc.depth_array]
  exact enter_bind (each_within hitems) room

end items

/-! ## Fields of records -/

section fields
variable {add : α → Key → Json → Except DecodeError α} {draft : α} (room : Nat)

theorem addFields_nil : addFields add draft [] = within 0 room draft :=
  (within_zero room draft).symm

/-- Fields that are read one after the other have to be within the limit all. -/
theorem addFields_cons {next last : α} {key : Key} {value : Json} {m n : Nat}
    {fields : List (Key × Json)} (h : add draft key value = within m room next)
    (hrest : addFields add next fields = within n room last) :
    addFields add draft ((key, value) :: fields) = within (max m n) room last := by
  have hbind : addFields add draft ((key, value) :: fields) =
      (add draft key value >>= fun draft => addFields add draft fields) := by
    rw [addFields]
    cases add draft key value <;> rfl
  rw [hbind, h]
  exact within_bind hrest

end fields

/-- A record is read from an object whose fields are. -/
theorem record_object {add : Nat → α → Key → Json → Except DecodeError α} {draft last : α}
    {depth : Nat} {fields : List (Key × Json)} (names : List String)
    (h : ∀ room, addFields (add room) draft fields = within depth room last) (room : Nat) :
    record names room draft add (.object fields) = within (depth + 1) room last := by
  rw [record, fields?]
  exact enter_bind h room

/-! ## Texts -/

/-- A whole text is read as what its document holds, if it is not nested too deep. -/
theorem decode_of_spaced {read : Nat → Json → Except DecodeError α} {text : String} {d : Doc}
    {a : α} (spaced : Spaced d.words text.toList) (hread : Holds read d a) :
    decode read text =
      if nesting text.toList ≤ maxNesting then .ok a else .error .malformed := by
  have htext := Doc.presents_of_spaced spaced
  have hroom := hread maxNesting
  rw [decode, Doc.ofText_of_lexes htext.lexes, htext.nests.nesting_eq]
  simp only [hroom, List.isEmpty_nil, if_true]
  exact bind_pure _

end CellQuery.Json
