import BinaryLayout.Bits.Bytes

/-!
# Tables of variable-width cells

All cells of a column share one width, that of the widest of them. An encoded table
is a header of 16-bit slots followed by the bits of the entries, row after row:

    [stride, offset 0, offset 1, …, offset (n - 1), stride]

The bits of column `f` in row `e` start at `offset f + e * stride` behind the header
and end where the next column starts.
-/

namespace BinaryLayout.Table

/-- One cell: a number, or digits that are stored as they stand. -/
inductive Cell where
  | number (value : UInt64)
  | digits (sequence : List UInt8)
  deriving DecidableEq

namespace Cell

/-- The least number of bits that hold a cell. -/
def required : Cell → Nat
  | number value => Bits.required value
  | digits sequence => sequence.length

/-- The bits of a cell in a column of a given width. -/
def bits (width : Nat) : Cell → Except BitsError (List Bool)
  | number value => Bits.expand value (some width)
  | digits sequence =>
      if width < sequence.length then .error (.fieldOverflow sequence.length 0 width)
      else (Bits.ofDigits sequence).map (Bits.extend · width)

end Cell

/-- Widen the columns to hold one more row, which must have a cell for each. -/
def widen (widths : List Nat) (row : List Cell) : Except BitsError (List Nat) :=
  if row.length = widths.length then
    .ok (List.zipWith (fun width cell => max width cell.required) widths row)
  else .error (.fieldCount widths.length row.length)

/-- The width of every column: that of its widest cell. -/
def columnWidths (rows : List (List Cell)) (columns : Nat) : Except BitsError (List Nat) :=
  rows.foldlM widen (List.replicate columns 0)

/-- Bytes of the header of a table. -/
def headerLength (columns : Nat) : Nat :=
  (columns + 2) * 2

/-- Bits of one entry. -/
def stride (widths : List Nat) : Nat :=
  widths.foldr (· + ·) 0

/-- Bytes of an encoded table. -/
def encodedLength (widths : List Nat) (rows : Nat) : Nat :=
  headerLength widths.length + (stride widths * rows + 7) / 8

/-- Where every column starts, and behind the last one where the entry ends. -/
def bounds (start : Nat) : List Nat → List Nat
  | [] => [start]
  | width :: rest => start :: bounds (start + width) rest

/-- The slots of the header. Each of them counts at most a whole entry, so they fit
    16 bits as soon as the stride does. -/
def headerSlots (widths : List Nat) : Except BitsError (List Nat) :=
  if stride widths < UInt16.size then .ok (stride widths :: bounds 0 widths)
  else .error (.strideOverflow (stride widths))

/-- The bits of one row. -/
def rowBits (widths : List Nat) (row : List Cell) : Except BitsError (List Bool) :=
  return ((← (widths.zip row).mapM fun (width, cell) => cell.bits width)).flatten

/-- Header and entries of a table. -/
def encode (rows : List (List Cell)) (columns : Nat) : Except BitsError (List UInt8) := do
  let widths ← columnWidths rows columns
  let slots ← headerSlots widths
  let entries ← rows.mapM (rowBits widths)
  return slots.flatMap (Bytes.littleEndian 2) ++ Bytes.pack entries.flatten

/-- Two columns of two bits: four header slots, then both entries in one byte. -/
example :
    encode [[.number 1, .number 2], [.number 3, .number 0]] 2 =
      .ok [4, 0, 0, 0, 2, 0, 4, 0, 0b00111001] := by rfl

end BinaryLayout.Table
