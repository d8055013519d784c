import BinaryLayout.Bits.Window
import BinaryLayout.Table.Basic

/-!
# Reading an encoded table

A reader declares how many columns it knows. The header tells it how far entries are
apart and where its columns start and end, and it takes the entries to begin behind as
many slots as it knows. Cells that lie outside the bytes have no value.
-/

namespace BinaryLayout.Table

/-- What a header says. -/
structure Header where
  /-- Bits from one entry to the next. -/
  stride : Nat
  /-- Where every column starts, and behind the last one where it ends. -/
  bounds : List Nat
  deriving DecidableEq

namespace Header

/-- The 16-bit slot at an index. -/
def slot (bytes : List UInt8) (index : Nat) : Nat :=
  Bytes.ofLittleEndian ((bytes.drop (2 * index)).take 2)

/-- Read the header of a table with the declared number of columns. -/
def parse (bytes : List UInt8) (columns : Nat) : Except BitsError Header :=
  let needed := headerLength columns
  if needed ≤ bytes.length then
    .ok ⟨slot bytes 0, (List.range (columns + 1)).map fun column => slot bytes (column + 1)⟩
  else if addressSpace ≤ needed then .error .overflow
  else .error (.truncated needed bytes.length)

/-- Number of columns. -/
def columns (header : Header) : Nat :=
  header.bounds.length - 1

/-- Where a column starts within an entry. -/
def offset (header : Header) (column : Nat) : Nat :=
  header.bounds[column]?.getD 0

/-- Width of a column: none when its end stands before its start. -/
def width (header : Header) (column : Nat) : Nat :=
  header.offset (column + 1) - header.offset column

/-- Bytes before the first entry. -/
def payloadOffset (header : Header) : Nat :=
  (header.bounds.length + 1) * 2

/-- Number of whole entries for which a table has room. -/
def capacity (header : Header) (table : List UInt8) : Nat :=
  (table.length - header.payloadOffset) * 8 / header.stride

/-- The lowest 64 bits of a cell; none where the cell lies outside. A cell that ends
    within the bytes needs no check. -/
def read (header : Header) (table : List UInt8) (entry column : Nat) :
    Except BitsError (Option UInt64) := do
  let width := header.width column
  let start := header.offset column + entry * header.stride
  let payload := table.drop header.payloadOffset
  if header.columns ≤ column then return none
  else if table.length < header.payloadOffset then
    let _ ← checked .overflow start
    return none
  else if (start + width + 7) / 8 ≤ payload.length then
    return Window.read? payload start width
  else
    let _ ← checked .overflow (start + width)
    return none

end Header
end BinaryLayout.Table
