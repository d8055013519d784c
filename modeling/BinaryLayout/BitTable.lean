import BinaryLayout.Blob
import BinaryLayout.Identifier
import BinaryLayout.Table.Basic

/-!
# Bit field arrays

A bit field array is a table whose columns have names. Its rows hold small unsigned
integers and blobs; how wide a column is follows from the rows. Rows are given in
field order or as named pairs in any order.
-/

namespace BinaryLayout

/-- A declared list of column names. -/
structure BitTableType where
  name : String
  fields : List String
  deriving DecidableEq

namespace BitTableType

/-- The alignment of every bit field array. -/
def align : Nat := 4

/-- Check field names one after another behind those already checked. -/
def checkAll (checked : List String) : List String → Except LayoutError (List String)
  | [] => .ok checked
  | field :: rest => do
      Identifier.validate field
      if field = Identifier.entryBits then .error (.identifier field .reserved)
      else if checked.contains field then refuse (.duplicateName field)
      else checkAll (checked ++ [field]) rest

/-- Declare a bit field array. -/
def declare (name : String) (fields : List String) : Except LayoutError BitTableType := do
  Identifier.validate name
  if fields.isEmpty then refuse .noFields
  else return ⟨name, ← checkAll [] fields⟩

/-- Position of a column. -/
def index? (type : BitTableType) (field : String) : Option Nat :=
  type.fields.findIdx? (· = field)

end BitTableType

/-- One value of a row. -/
inductive TableItem where
  | int (value : Int64)
  | blob (content : Blob)
  deriving DecidableEq

namespace TableItem

/-- The bound below which integers must stay. -/
def limit : Int := 2147483648

/-- The value can be stored. -/
def check : TableItem → Except LayoutError Unit
  | int value =>
      if 0 ≤ value.toInt ∧ value.toInt < limit then .ok ()
      else .error (.valueRange (toString value.toInt) "bit field array entry")
  | blob _ => .ok ()

/-- The cell that stores the value. -/
def cell : TableItem → Table.Cell
  | int value => .number value.toUInt64
  | blob content => .digits (Bits.toDigits content.bits)

end TableItem

/-- A bit field array and its rows. -/
structure BitTable where
  type : BitTableType
  rows : List (List TableItem)
  deriving DecidableEq

namespace BitTable

/-- Declare a bit field array without rows. -/
def declare (name : String) (fields : List String) : Except LayoutError BitTable :=
  return ⟨← BitTableType.declare name fields, []⟩

/-- Append a row given in field order. -/
def push (table : BitTable) (row : List TableItem) : Except LayoutError BitTable := do
  let expected := table.type.fields.length
  if row.length ≠ expected then refuse (.fieldCount expected row.length)
  else
    row.forM TableItem.check
    return ⟨table.type, table.rows ++ [row]⟩

/-- Put named values into the slots of a row, refusing unknown and repeated names. -/
def fill (type : BitTableType) (slots : List (Option TableItem)) :
    List (String × TableItem) → Except LayoutError (List (Option TableItem))
  | [] => .ok slots
  | (field, item) :: rest =>
      match type.index? field with
      | none => refuse (.unknownField type.name field)
      | some index =>
          match slots[index]? with
          | some none => fill type (slots.set index (some item)) rest
          | _ => refuse (.duplicateName field)

/-- Append a row given as named values in any order. -/
def pushNamed (table : BitTable) (row : List (String × TableItem)) :
    Except LayoutError BitTable := do
  let expected := table.type.fields.length
  if row.length ≠ expected then refuse (.fieldCount expected row.length)
  else
    let slots ← fill table.type (List.replicate expected none) row
    table.push (slots.filterMap id)

/-- Append rows until one is refused. -/
def pushAll (table : BitTable) (rows : List (List TableItem)) : Except LayoutError BitTable :=
  rows.foldlM push table

/-- The value of a column in a row. -/
def get? (table : BitTable) (field : String) (row : Nat) : Option TableItem := do
  let column ← table.type.index? field
  (← table.rows[row]?)[column]?

/-- The cells that store the rows. -/
def cells (table : BitTable) : List (List Table.Cell) :=
  table.rows.map (·.map TableItem.cell)

/-- The width of every column. -/
def columnWidths (table : BitTable) : Except LayoutError (List Nat) :=
  (Table.columnWidths table.cells table.type.fields.length).mapError
    (LayoutError.ofBits table.type.name)

/-- Bytes of the encoded table. -/
def encodedLength (table : BitTable) : Except LayoutError Nat := do
  checked .overflow (Table.encodedLength (← table.columnWidths) table.rows.length)

/-- The encoded table. -/
def bytes (table : BitTable) : Except LayoutError (List UInt8) :=
  (Table.encode table.cells table.type.fields.length).mapError
    (LayoutError.ofBits table.type.name)

end BitTable
end BinaryLayout
