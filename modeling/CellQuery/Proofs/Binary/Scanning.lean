import Mathlib.Control.Monad.Basic
import CellQuery.Proofs.Binary.Shortest

/-! # Reading is a scan

    A reader looks at no byte before it has taken all the bytes in front of it,
    and it never looks back.  So what it does is settled by the bytes that it
    takes:

    * unless the bytes ended too early, no further bytes change the result;
    * if a spelling is cut anywhere, the bytes end too early.

    Wire values are read within a depth that is the number of bytes given, and
    further bytes raise that depth.  So the relation below is between two
    readers: what the first does on its input, the second does on a longer one. -/

namespace CellQuery.Binary

/-- The result of a reader if more bytes follow what it was given. -/
def followed {α : Type} (more : List UInt8) :
    Except ReadError (α × List UInt8) → Except ReadError (α × List UInt8)
  | .error e => .error e
  | .ok (a, rest) => .ok (a, rest ++ more)

/-- Unless the bytes end too early for `r`, further bytes are left alone by `s`,
    which else does what `r` does. -/
def Extends {α : Type} (r s : Reader α) : Prop :=
  ∀ bytes more, r bytes ≠ .error .unexpectedEnd → s (bytes ++ more) = followed more (r bytes)

/-! ## Combinators -/

namespace Extends
variable {α β : Type}

theorem pure (a : α) : Extends (Pure.pure a : Reader α) (Pure.pure a) := by
  intro bytes more _
  rfl

theorem fail (e : ReadError) : Extends (Reader.fail e : Reader α) (Reader.fail e) := by
  intro bytes more _
  rfl

/-- A reader for which the bytes always end too early promises nothing. -/
theorem ended (s : Reader α) : Extends (Reader.fail .unexpectedEnd) s := by
  intro bytes more settled
  exact absurd rfl settled

theorem bind {r s : Reader α} {f g : α → Reader β} (hr : Extends r s)
    (hf : ∀ a, Extends (f a) (g a)) : Extends (r >>= f) (s >>= g) := by
  intro bytes more settled
  change Reader.bind r f bytes ≠ _ at settled
  show Reader.bind s g (bytes ++ more) = followed more (Reader.bind r f bytes)
  unfold Reader.bind at settled ⊢
  cases first : r bytes with
  | error e =>
    have kept := hr bytes more (by simpa [first] using settled)
    rw [kept, first]
    rfl
  | ok done =>
    obtain ⟨a, rest⟩ := done
    rw [first] at settled
    have kept := hr bytes more (by simp [first])
    -- The second reader goes on where the first has stopped.
    rw [kept, first]
    exact hf a rest more settled

theorem map {r s : Reader α} (h : Extends r s) (f : α → β) :
    Extends (r >>= fun a => Pure.pure (f a)) (s >>= fun a => Pure.pure (f a)) :=
  h.bind fun a => pure (f a)

theorem ite {c : Prop} [Decidable c] {r r' s s' : Reader α} (hr : Extends r r')
    (hs : Extends s s') : Extends (if c then r else s) (if c then r' else s') := by
  by_cases h : c
  · rw [if_pos h, if_pos h]
    exact hr
  · rw [if_neg h, if_neg h]
    exact hs

theorem byte : Extends Reader.byte Reader.byte := by
  intro bytes more settled
  cases bytes with
  | nil => exact absurd rfl settled
  | cons b rest => rfl

theorem take (n : Nat) : Extends (Reader.take n) (Reader.take n) := by
  intro bytes more settled
  unfold Reader.take at settled ⊢
  by_cases enough : n ≤ bytes.length
  · have still : n ≤ (bytes ++ more).length := by
      rw [List.length_append]
      omega
    rw [if_pos enough, if_pos still, List.take_append_of_le_length enough,
      List.drop_append_of_le_length enough]
    rfl
  · rw [if_neg enough] at settled
    exact absurd rfl settled

theorem times {r s : Reader α} (h : Extends r s) (n : Nat) : Extends (r.times n) (s.times n) := by
  induction n with
  | zero => exact pure []
  | succ n ih => exact h.bind fun a => ih.map fun as => a :: as

end Extends

/-! ## Numbers, tags and payloads -/

theorem extends_groups (last left : Nat) :
    Extends (readGroups last left) (readGroups last left) := by
  induction left with
  | zero => exact .fail .badVarint
  | succ left ih =>
    unfold readGroups
    exact Extends.byte.bind fun b =>
      .ite (.ite (.fail .badVarint) (.pure b.toNat)) (ih.map fun high => b.toNat - 128 + 128 * high)

theorem extends_varint (width : Width) : Extends (readVarint width) (readVarint width) :=
  extends_groups width.last width.bytes

theorem extends_tag : Extends readTag readTag := by
  unfold readTag
  refine (extends_varint .word).bind fun n => ?_
  cases found : Tag.ofInteger? (unzigzag n) with
  | some tag =>
    simp only [found]
    exact .pure tag
  | none =>
    simp only [found]
    exact .fail (.unknownTag (.number (unzigzag n)))

theorem extends_bool : Extends readBool readBool := by
  unfold readBool
  exact Extends.byte.bind fun b => .ite (.pure false) (.ite (.pure true) (.fail .badBool))

theorem extends_primitive : Extends readPrimitive readPrimitive := by
  unfold readPrimitive
  refine (extends_varint .word).bind fun kind => ?_
  match kind with
  | 0 => exact extends_bool.map Primitive.truth
  | 1 => exact (extends_varint .long).map fun n => Primitive.number (UInt64.ofNat n)
  | 2 => exact (extends_varint .long).bind fun n => (Extends.take n).map Primitive.raw
  | n + 3 => exact .fail (.unknownPayload (n + 3))

theorem extends_primitiveOption : Extends readPrimitiveOption readPrimitiveOption := by
  unfold readPrimitiveOption
  exact Extends.byte.bind fun mark =>
    .ite (.pure none) (.ite (extends_primitive.map some) (.fail .badOption))

/-! ## Wire values, values and roots -/

/-- Within a greater depth at least the same wire values are read. -/
theorem extends_wireWithin {depth deeper : Nat} (h : depth ≤ deeper) :
    Extends (readWireWithin depth) (readWireWithin deeper) := by
  induction depth generalizing deeper with
  | zero => exact .ended _
  | succ depth ih =>
    obtain ⟨deeper, rfl⟩ : ∃ n, deeper = n + 1 := ⟨deeper - 1, by omega⟩
    unfold readWireWithin
    exact extends_tag.bind fun tag => extends_primitiveOption.bind fun primitive =>
      (extends_varint .long).bind fun count => ((ih (by omega)).times count).map fun children =>
        (⟨tag, primitive, children⟩ : Wire)

theorem extends_wire : Extends readWire readWire := by
  intro bytes more settled
  have deeper : bytes.length ≤ (bytes ++ more).length := by
    rw [List.length_append]
    omega
  exact extends_wireWithin deeper bytes more settled

theorem extends_value : Extends readValue readValue := by
  unfold readValue
  refine extends_wire.bind fun w => ?_
  cases w.toValue with
  | ok v => exact .pure v
  | error e => exact .fail (.shape e)

theorem extends_text : Extends readText readText := by
  unfold readText
  refine (extends_varint .long).bind fun n => (Extends.take n).bind fun data => ?_
  cases String.fromUTF8? ⟨data.toArray⟩ with
  | some s => exact .pure s
  | none => exact .fail .badText

theorem extends_call : Extends readCall readCall := by
  unfold readCall
  exact extends_text.bind fun name => extends_value.map fun result => (⟨name, result⟩ : Call)

theorem extends_root : Extends readRoot readRoot := by
  unfold readRoot
  exact (extends_varint .long).bind fun count =>
    (extends_call.times count).map Root.mk

/-! ## Decoders -/

/-- A decoder scans the bytes that are written for the things that can be. -/
structure Scans {α : Type} (writable : α → Prop) (write : α → List UInt8)
    (decode : List UInt8 → Except ReadError α) : Prop where
  /-- Wherever what is written is cut, the bytes end too early. -/
  cut : ∀ a, writable a → ∀ front back, write a = front ++ back → back ≠ [] →
    decode front = .error .unexpectedEnd
  /-- Whatever is found before the bytes end is found whatever follows them. -/
  settled : ∀ bytes more, decode bytes ≠ .error .unexpectedEnd →
    decode (bytes ++ more) = decode bytes

theorem Extends.run_append {α : Type} {r : Reader α} (h : Extends r r) {bytes : List UInt8}
    (settled : r.run bytes ≠ .error .unexpectedEnd) (more : List UInt8) :
    r.run (bytes ++ more) = r.run bytes := by
  have kept := h bytes more fun ended => settled (by rw [Reader.run, ended])
  unfold Reader.run
  rw [kept]
  cases r bytes with
  | error e => rfl
  | ok done => rfl

/-- Had the reader stopped within the front, it would have left the back. -/
theorem Extends.run_cut {α : Type} {r : Reader α} (h : Extends r r) {a : α}
    {front back : List UInt8} (whole : r (front ++ back) = .ok (a, [])) (cut : back ≠ []) :
    r.run front = .error .unexpectedEnd := by
  by_cases ended : r front = .error .unexpectedEnd
  · rw [Reader.run, ended]
  · have kept := h front back ended
    rw [whole] at kept
    cases stopped : r front with
    | error e =>
      rw [stopped] at kept
      cases kept
    | ok done =>
      rw [stopped] at kept
      obtain ⟨_, nothing⟩ := Prod.mk.inj (Except.ok.inj kept)
      exact absurd (List.append_eq_nil_iff.mp nothing.symm).2 cut

theorem scans_of_reads {α : Type} {writable : α → Prop} {format : Format α}
    {write : α → List UInt8} {read : Reader α} (scan : Extends read read)
    (reads : Reads read format) (spelled : ∀ a, writable a → format a (write a)) :
    Scans writable write read.run := by
  refine ⟨?_, fun bytes more settled => scan.run_append settled more⟩
  intro a ha front back both cut
  have whole := reads.read_spelled (spelled a ha) []
  rw [List.append_nil, both] at whole
  exact scan.run_cut whole cut

/-- Decoding values and roots is a scan from left to right. -/
theorem value_and_root_scanned :
    Scans (fun v => v.WellFormed ∧ v.LengthsFit) Value.binary Value.decodeBinary ∧
      Scans (fun root => root.WellFormed ∧ root.LengthsFit)
        Root.binary Root.decodeBinary :=
  ⟨scans_of_reads extends_value reads_value fun _ h => (shortest_value h.1 h.2).spelled,
    scans_of_reads extends_root reads_root fun _ h => (shortest_root h.1 h.2).spelled⟩

/-- Cuts inside a text and inside a number; a wrong shape with anything behind it. -/
theorem value_and_root_scanned_midway :
    let root : Root := ⟨[⟨"é", .uint 300⟩]⟩
    root.binary = [1, 2, 195, 169, 0, 1, 1, 172, 2, 0] ∧
      Root.decodeBinary [1, 2, 195] = .error .unexpectedEnd ∧
      Root.decodeBinary [1, 2, 195, 169, 0, 1, 1, 172] = .error .unexpectedEnd ∧
      ∀ more, Value.decodeBinary ([0, 0, 0] ++ more) =
        .error (.shape (.missingPayload .uint64 .number)) := by
  intro root
  have written : root.binary = [1, 2, 195, 169, 0, 1, 1, 172, 2, 0] := by decide +kernel
  have writable : root.WellFormed ∧ root.LengthsFit := by
    constructor
    · simp [Root.WellFormed, Value.WellFormed, root]
    · unfold Root.LengthsFit Value.LengthsFit
      decide
  have cut := value_and_root_scanned.2.cut root writable
  have wrong : Value.decodeBinary [0, 0, 0] =
      .error (.shape (.missingPayload .uint64 .number)) := by decide +kernel
  refine ⟨written, cut _ [169, 0, 1, 1, 172, 2, 0] written (by simp),
    cut _ [2, 0] written (by simp), fun more => ?_⟩
  have settled := value_and_root_scanned.1.settled [0, 0, 0] more (by simp [wrong])
  rw [settled, wrong]

end CellQuery.Binary
