import BinaryLayout.Proofs.TableReading
import BinaryLayout.Proofs.Words
import BinaryLayout.Value.Basic

/-!
# A reader of packed values

A reader goes through a buffer by a plan. The plan says what is known before a value is
read: kinds, widths, offsets of members and numbers of elements, but no data and not
which references are null. References of a struct resolve against the struct, those of a
reference table against the table, and every other part is read where it stands. What a
reader should find is told by the value itself.
-/

namespace BinaryLayout

/-- Bytes in a row, if the buffer has them all. -/
def bytes? (buffer : List UInt8) (position count : Nat) : Option (List UInt8) :=
  let found := (buffer.drop position).take count
  if found.length = count then some found else none

/-- The number that stored bytes of an enumeration denote. -/
def EnumStorage.load (storage : EnumStorage) (bytes : List UInt8) : Int :=
  match storage with
  | int kind => kind.load bytes
  | char => Bytes.ofLittleEndian bytes

/-- What a reader knows of a value. -/
inductive Plan where
  /-- There is nothing to read. -/
  | nothing
  | int (kind : IntKind)
  | char
  | enum (storage : EnumStorage)
  /-- Bytes that are taken as they are. -/
  | bytes (count : Nat)
  | ref (target : Plan) (width : RefWidth)
  /-- Items at multiples of the stride, then bytes without items. -/
  | array (stride : Nat) (items : List Plan) (unused : Nat)
  /-- Targets of references that stand one behind the other, then bytes without any. -/
  | refTable (width : RefWidth) (targets : List Plan) (unused : Nat)
  | bitField (type : BitFieldType)
  | bitTable (columns rows : Nat)
  /-- Members at offsets from the start of the struct. -/
  | struct (members : List (Nat × Plan))

/-- What is found in a buffer. -/
inductive Reading where
  | nothing
  | number (value : Int)
  | byte (value : UInt8)
  | bytes (values : List UInt8)
  | null
  | ref (target : Reading)
  /-- Items or targets in order, and the bytes behind the last one. -/
  | array (items : List Reading) (unused : List UInt8)
  | fields (values : List Int)
  | table (rows : List (List Table.CellReading))
  | struct (members : List Reading)

/-- Read a reference that counts from a base. A stored zero is a null reference. -/
def follow (buffer : List UInt8) (width : RefWidth) (base position : Nat)
    (target : Nat → Option Reading) : Option Reading :=
  (bytes? buffer position width.bytes).bind fun bytes =>
    let stored := width.kind.load bytes
    if stored = 0 then some .null
    else (base + stored).toNat?.bind fun start => (target start).map .ref

namespace Plan

mutual

/-- Read by a plan at a position; a reference counts from the base. -/
def read (buffer : List UInt8) : Plan → (base position : Nat) → Option Reading
  | nothing, _, _ => some .nothing
  | int kind, _, position =>
      (bytes? buffer position kind.bytes).map fun bytes => .number (kind.load bytes)
  | char, _, position => buffer[position]?.map .byte
  | enum storage, _, position =>
      (bytes? buffer position storage.bytes).map fun bytes => .number (storage.load bytes)
  | bytes count, _, position => (bytes? buffer position count).map .bytes
  | ref target width, base, position =>
      follow buffer width base position fun start => read buffer target start start
  | array stride items unused, _, position => do
      let found ← readItems buffer stride items position
      return .array found (← bytes? buffer (position + stride * items.length) unused)
  | refTable width targets unused, _, position => do
      let found ← readTargets buffer width targets position position
      return .array found (← bytes? buffer (position + width.bytes * targets.length) unused)
  | bitField type, _, position =>
      (bytes? buffer position type.bytes).map fun bytes => .fields (type.decode bytes)
  | bitTable columns rows, _, position =>
      (Table.read (buffer.drop position) columns rows).map .table
  | struct members, _, position => (readMembers buffer members position).map .struct

/-- Read items from a position on. -/
def readItems (buffer : List UInt8) (stride : Nat) : List Plan → (position : Nat) →
    Option (List Reading)
  | [], _ => some []
  | item :: rest, position => do
      let first ← read buffer item position position
      return first :: (← readItems buffer stride rest (position + stride))

/-- Read references of one table from a position on. -/
def readTargets (buffer : List UInt8) (width : RefWidth) : List Plan → (base position : Nat) →
    Option (List Reading)
  | [], _, _ => some []
  | target :: rest, base, position => do
      let first ← follow buffer width base position fun start => read buffer target start start
      return first :: (← readTargets buffer width rest base (position + width.bytes))

/-- Read the members of the struct at a base. -/
def readMembers (buffer : List UInt8) : List (Nat × Plan) → (base : Nat) →
    Option (List Reading)
  | [], _ => some []
  | (offset, plan) :: rest, base => do
      let first ← read buffer plan base (base + offset)
      return first :: (← readMembers buffer rest base)

end

end Plan

namespace Value

/-- Number of elements for which an array has room but no value. -/
def spare (fixed : Option Nat) (count : Nat) : Nat :=
  fixed.getD count - count

mutual

/-- What a reader is told about a value. -/
def plan : Value → Plan
  | int integer => .int integer.kind
  | char _ => .char
  | null => .nothing
  | ref target width => .ref target.plan width
  | nullRef _ width => .ref .nothing width
  | array element fixed _ items =>
      let width := element.width?.getD 0
      .array width (plans items) (width * spare fixed items.length)
  | text content => .bytes (content.fixed.getD content.bytes.length)
  | blob fixed _ content => .bytes (fixed.getD content.bytes.length)
  | refTable _ fixed width items =>
      .refTable width (plans items) (width.bytes * spare fixed items.length)
  | bitField field => .bitField field.type
  | bitTable table => .bitTable table.type.fields.length table.rows.length
  | enum chosen => .enum chosen.enumeration.storage
  | struct ⟨_, members, _, _, _, _⟩ => .struct (memberPlans members)

/-- The plans of items. -/
def plans : List Value → List Plan
  | [] => []
  | item :: rest => item.plan :: plans rest

/-- The plans of members, each at its offset. -/
def memberPlans : List (Member Value) → List (Nat × Plan)
  | [] => []
  | ⟨_, offset, value, _⟩ :: rest => (offset, value.plan) :: memberPlans rest

end

mutual

/-- What is found where a value is stored. -/
def reading : Value → Reading
  | int integer => .number integer.value
  | char byte => .byte byte
  | null => .nothing
  | ref target _ => .ref target.reading
  | nullRef .. => .null
  | array element fixed _ items =>
      let width := element.width?.getD 0
      .array (readings items) (List.replicate (width * spare fixed items.length) 0)
  | text content =>
      .bytes (content.bytes ++ List.replicate (spare content.fixed content.bytes.length) 0)
  | blob fixed _ content =>
      .bytes (content.bytes ++ List.replicate (spare fixed content.bytes.length) 0)
  | refTable _ fixed width items =>
      .array (targetReadings items) (List.replicate (width.bytes * spare fixed items.length) 0)
  | bitField field => .fields (field.entries.map (·.value.number))
  | bitTable table => .table table.reading
  | enum chosen => .number chosen.value.toInt
  | struct ⟨_, members, _, _, _, _⟩ => .struct (memberReadings members)

/-- What is found where items are stored. -/
def readings : List Value → List Reading
  | [] => []
  | item :: rest => item.reading :: readings rest

/-- What is found where references to items are stored. -/
def targetReadings : List Value → List Reading
  | [] => []
  | item :: rest => (if item.isNull then .null else .ref item.reading) :: targetReadings rest

/-- What is found where members are stored. -/
def memberReadings : List (Member Value) → List Reading
  | [] => []
  | ⟨_, _, value, _⟩ :: rest => value.reading :: memberReadings rest

end

end Value
end BinaryLayout
