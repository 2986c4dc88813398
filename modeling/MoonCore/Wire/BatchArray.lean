import MoonCore.ForMathlib.MsgPackFormats
import MoonCore.Wire.BatchFrame

/-!
# The array of a batch

`wire::batch` puts an array together from values that are encoded already. `MsgPack.read` reads
every MessagePack value, so that `msgpackArray_values` says what anyone who reads MessagePack
finds in one.
-/

namespace MoonCore

open MsgPack (read readArrayHeader)

/-- **A hand-built array is one MessagePack value.** For parts each of which is one value, it is
the array of these values in order, with nothing after it, under the shortest header of its
length. -/
theorem msgpackArray_values {parts : List Bytes} {values : List MsgPack.Value}
    (hparts : List.Forall₂ (fun part value => Reader.exactly read part = some value) parts values)
    (h : parts.length < 2 ^ 32) :
    Reader.exactly read (msgpackArray parts) = some (.array values) ∧
      ∃ header, msgpackArray parts = header ++ parts.flatten ∧
        Reader.exactly readArrayHeader header = some parts.length ∧
        header.length = headerLength parts.length ∧
        ∀ other, Reader.exactly readArrayHeader other = some parts.length →
          header.length ≤ other.length := by
  have h256 : parts.length < 256 ^ 4 := h
  rw [Batcher.msgpackArray_eq]
  refine ⟨MsgPack.exactly_array hparts h256, MsgPack.arrayHeader parts.length, rfl, ?_, ?_, ?_⟩
  · exact (MsgPack.reads_arrayHeader h256).exactly
  · exact MsgPack.length_arrayHeader parts.length
  · exact fun other hother => MsgPack.length_arrayHeader_le hother

/-- A number, `nil`, an array of two numbers, a map with one entry, a binary and an extension. -/
def sixParts : List Bytes :=
  [[0xcd, 0x01, 0x00], [0xc0], [0x92, 0x07, 0xff], [0x81, 0xc3, 0x05], [0xc4, 0x02, 0xaa, 0xbb],
    [0xd4, 0x03, 0x2a]]

/-- One value of each kind. -/
def sixValues : List MsgPack.Value :=
  [.integer 256, .nil, .array [.integer 7, .integer (-1)], .map [(.boolean true, .integer 5)],
    .binary [0xaa, 0xbb], .ext 3 [0x2a]]

theorem msgpackArray_values_six :
    Reader.exactly read (msgpackArray sixParts) = some (.array sixValues) ∧
      ∃ header, msgpackArray sixParts = header ++ sixParts.flatten ∧
        Reader.exactly readArrayHeader header = some 6 ∧ header.length = headerLength 6 ∧
        ∀ other, Reader.exactly readArrayHeader other = some 6 → header.length ≤ other.length := by
  have hparts : List.Forall₂ (fun part value => Reader.exactly read part = some value)
      sixParts sixValues :=
    .cons rfl (.cons rfl (.cons rfl (.cons rfl (.cons rfl (.cons rfl .nil)))))
  exact msgpackArray_values hparts (by decide)

end MoonCore
