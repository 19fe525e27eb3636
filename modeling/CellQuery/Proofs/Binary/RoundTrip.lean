import CellQuery.Proofs.Binary.Shortest

/-! # Round trips of the binary format

    What is written is read back, and nothing more is consumed.  Conversely,
    whatever is read, in however long a spelling, is read back from the bytes
    that are written for it, and these are no more than were consumed. -/

namespace CellQuery

open Binary

namespace Binary

/-- A writer and a reader go together, on the things that can be written. -/
structure RoundTrip {α : Type} (writable : α → Prop) (format : Format α)
    (write : α → List UInt8) (read : Reader α) : Prop where
  /-- What is written is in the format. -/
  spelled_write : ∀ a, writable a → format a (write a)
  /-- What is read is in the format, and all that is in the format is read. -/
  read_iff : ∀ input a rest,
    read input = .ok (a, rest) ↔ ∃ front, format a front ∧ input = front ++ rest
  /-- What is in the format can be written. -/
  writable_of_spelled : ∀ a bytes, format a bytes → writable a
  /-- What is written is read back, and what follows it is left. -/
  read_write : ∀ a, writable a → ∀ rest, read (write a ++ rest) = .ok (a, rest)
  /-- What is read is written with no more bytes than were consumed, and read back. -/
  write_read : ∀ input a rest, read input = .ok (a, rest) →
    ∃ front, input = front ++ rest ∧ (write a).length ≤ front.length ∧
      ∀ more, read (write a ++ more) = .ok (a, more)

/-- A reader of a format goes with a writer of shortest spellings. -/
theorem roundTrip_of_shortest {α : Type} {writable : α → Prop} {format : Format α}
    {write : α → List UInt8} {read : Reader α} (reads : Reads read format)
    (shortest : ∀ a, writable a → Shortest format a (write a))
    (spelled : ∀ a bytes, format a bytes → writable a) :
    RoundTrip writable format write read := by
  have back : ∀ a, writable a → ∀ rest, read (write a ++ rest) = .ok (a, rest) := by
    intro a ha rest
    exact reads.read_spelled (shortest a ha).spelled rest
  refine ⟨fun a ha => (shortest a ha).spelled, reads, spelled, back, ?_⟩
  intro input a rest h
  obtain ⟨front, hfront, both⟩ := (reads input a rest).mp h
  have ha := spelled a front hfront
  exact ⟨front, both, (shortest a ha).least front hfront, back a ha⟩

/-- Every expression of a root that is spelled can be written. -/
theorem writable_of_root {root : Root} {bytes : List UInt8} (h : root.Spelled bytes) :
    root.WellFormed ∧ root.LengthsFit := by
  obtain ⟨count, items, hcount, hitems, _⟩ := counted_iff.mp h
  have calls : ∀ call ∈ root.calls, call.result.WellFormed ∧
      call.name.toUTF8.size < 2 ^ 64 ∧ call.result.LengthsFit := by
    intro call hcall
    obtain ⟨bytes, ⟨front, back, hname, hresult, _⟩, _⟩ := hitems.length_le hcall
    obtain ⟨length, _, hlength, _, _⟩ := counted_iff.mp hname
    exact ⟨hresult.1, hlength.2.2, lengthsFit_of_spelled hresult.2⟩
  have well_formed : root.WellFormed := fun call hcall => (calls call hcall).1
  exact ⟨well_formed, hcount.2.2, fun call hcall => (calls call hcall).2⟩

/-- Values and roots survive the binary format, and the bytes that are written
    for them are the shortest of those that are read as them. -/
theorem value_and_root_round_trip :
    RoundTrip (fun v => v.WellFormed ∧ v.LengthsFit) Value.Spelled Value.binary readValue ∧
      RoundTrip (fun root => root.WellFormed ∧ root.LengthsFit)
        Root.Spelled Root.binary readRoot := by
  constructor
  · refine roundTrip_of_shortest reads_value (fun v hv => shortest_value hv.1 hv.2) ?_
    intro v bytes h
    exact ⟨h.1, lengthsFit_of_spelled h.2⟩
  · refine roundTrip_of_shortest reads_root (fun root h => shortest_root h.1 h.2) ?_
    intro root bytes h
    exact writable_of_root h

/-- Three numbers of this value are longer than they need to be. -/
theorem value_and_root_round_trip_overlong :
    let v : Value := .node .equal [.arg 0, .uint 300]
    let root : Root := ⟨[⟨"é", v⟩, ⟨"", .bytes [1, 2]⟩]⟩
    let input : List UInt8 :=
      [0x9c, 0x81, 0, 0, 0x82, 0, 32, 1, 1, 0, 0, 0, 1, 1, 0xac, 0x82, 0, 0, 7]
    readValue input = .ok (v, [7]) ∧
      (∃ front, input = front ++ [7] ∧ v.binary.length ≤ front.length ∧
        ∀ more, readValue (v.binary ++ more) = .ok (v, more)) ∧
      ∀ rest, readRoot (root.binary ++ rest) = .ok (root, rest) := by
  intro v root input
  have read : readValue input = .ok (v, [7]) := by
    have h : (readValue input).toOption = some (v, [7]) := by decide +kernel
    cases result : readValue input with
    | error e => rw [result] at h; cases h
    | ok done => rw [result] at h; exact congrArg Except.ok (Option.some.inj h)
  have again := value_and_root_round_trip.1.write_read input v [7] read
  have well_formed : root.WellFormed := by
    simp [Root.WellFormed, Value.WellFormed, Value.AllWellFormed, root, v, Tag.isLeaf,
      Tag.hasPayload]
  have fits : root.LengthsFit := by
    unfold Root.LengthsFit Value.LengthsFit
    decide
  exact ⟨read, again, value_and_root_round_trip.2.read_write root ⟨well_formed, fits⟩⟩

end Binary

end CellQuery
