import BinaryLayout.Enumeration
import BinaryLayout.Word.Fields

/-!
# Bit fields

A bit field is a word whose fields have names and kinds. The kind says how the stored
bits are read: as they stand, zig-zag numbered, or as a member of an enumeration.
Fields are added one at a time; a value that does not fit its width, a name that is
taken or cannot be declared, and a width that the word has no room for are refused.
-/

namespace BinaryLayout

/-- How the bits of a field are read. -/
inductive FieldKind where
  | unsigned
  | signed
  | enum (enumeration : Enumeration)
  deriving DecidableEq

namespace FieldKind

/-- The stored bits are a zig-zag number. -/
def isZigZag : FieldKind → Bool
  | unsigned => false
  | signed => true
  | enum enumeration => enumeration.hasNegative

end FieldKind

/-- One declared field. -/
structure FieldType where
  name : String
  kind : FieldKind
  width : UInt32
  deriving DecidableEq

/-- A declared word of named fields, lowest field first. -/
structure BitFieldType where
  name : String
  total : WordWidth
  fields : List FieldType
  deriving DecidableEq

namespace BitFieldType

/-- The word that a bit field takes unless told otherwise. -/
def defaultBits : UInt32 := 32

/-- Declare a bit field without fields. -/
def declare (name : String) (bits : UInt32) : Except LayoutError BitFieldType := do
  Identifier.validate name
  let word ← (WordFields.ofBits bits).mapError (LayoutError.ofBits name)
  return ⟨name, word.total, []⟩

/-- The widths alone. -/
def word (type : BitFieldType) : WordFields :=
  ⟨type.total, type.fields.map (·.width)⟩

/-- Declare one more field above the others. -/
def push (type : BitFieldType) (name : String) (kind : FieldKind) (width : UInt32) :
    Except LayoutError BitFieldType := do
  if type.fields.any (·.name = name) then refuse (.duplicateMember type.name name)
  else
    Identifier.validate name
    let _ ← (type.word.push width).mapError (LayoutError.ofBits type.name)
    return ⟨type.name, type.total, type.fields ++ [⟨name, kind, width⟩]⟩

/-- Position of a field. -/
def index? (type : BitFieldType) (name : String) : Option Nat :=
  type.fields.findIdx? (·.name = name)

/-- Bytes of the stored word. -/
def bytes (type : BitFieldType) : Nat :=
  type.total.bytes

/-- The key that tells bit fields apart: name, widths of the fields, word. -/
def uniqueName (type : BitFieldType) : String :=
  let widths := String.intercalate "," (type.fields.map fun field => toString field.width.toNat)
  s!"{type.name}({widths}){type.total.bits}"

end BitFieldType

/-- The value of one field. -/
inductive FieldValue where
  | unsigned (value : UInt64)
  | signed (value : Int64)
  | member (chosen : EnumMember)
  deriving DecidableEq

namespace FieldValue

/-- How the value is read back. -/
def kind : FieldValue → FieldKind
  | unsigned _ => .unsigned
  | signed _ => .signed
  | member m => .enum m.enumeration

/-- The bits that store the value, as a word. -/
def stored : FieldValue → UInt64
  | unsigned value => value
  | signed value => ZigZag.encode value
  | member m => m.bitValue

end FieldValue

/-- A field together with its value. -/
structure FieldEntry where
  name : String
  width : UInt32
  value : FieldValue
  deriving DecidableEq

/-- A bit field and the value of each of its fields. -/
structure BitField where
  name : String
  total : WordWidth
  entries : List FieldEntry
  deriving DecidableEq

namespace BitField

/-- The declaration that the values satisfy. -/
def type (field : BitField) : BitFieldType :=
  ⟨field.name, field.total,
    field.entries.map fun entry => ⟨entry.name, entry.value.kind, entry.width⟩⟩

/-- Declare a bit field that has no fields yet. -/
def declare (name : String) (bits : UInt32) : Except LayoutError BitField := do
  let type ← BitFieldType.declare name bits
  return ⟨type.name, type.total, []⟩

/-- Add a field that the declaration admits. -/
def push (field : BitField) (name : String) (width : UInt32) (value : FieldValue) :
    Except LayoutError BitField := do
  let _ ← field.type.push name value.kind width
  return ⟨field.name, field.total, field.entries ++ [⟨name, width, value⟩]⟩

/-- Add a field whose value must fit the width. The value is judged first. -/
def pushFitting (field : BitField) (name : String) (width : UInt32) (value : FieldValue) :
    Except LayoutError BitField :=
  if Bits.fits value.stored width.toNat then field.push name width value
  else .error (.bitField field.name (.valueOverflow value.stored width.toNat))

/-- Add an unsigned number. -/
def add (field : BitField) (name : String) (value : UInt64) (width : UInt32) :
    Except LayoutError BitField :=
  field.pushFitting name width (.unsigned value)

/-- Add a single bit. -/
def addFlag (field : BitField) (name : String) (isSet : Bool) : Except LayoutError BitField :=
  field.add name (if isSet then 1 else 0) 1

/-- Add a signed number, stored zig-zag numbered. -/
def addSigned (field : BitField) (name : String) (value : Int64) (width : UInt32) :
    Except LayoutError BitField :=
  field.pushFitting name width (.signed value)

/-- Add a member of an enumeration in as many bits as any of its members needs. -/
def addMember (field : BitField) (name : String) (member : EnumMember) :
    Except LayoutError BitField :=
  field.push name (UInt32.ofNat member.enumeration.requiredBits) (.member member)

/-- The value of a field. -/
def get? (field : BitField) (name : String) : Option FieldValue :=
  (field.entries.find? (·.name = name)).map (·.value)

/-- The word that stores all fields. -/
def word (field : BitField) : Except LayoutError UInt64 :=
  (field.type.word.pack (field.entries.map (·.value.stored))).mapError
    (LayoutError.ofBits field.name)

/-- The bytes of that word. -/
def bytes (field : BitField) : Except LayoutError (List UInt8) :=
  field.word.map field.type.word.bytes

end BitField
end BinaryLayout
