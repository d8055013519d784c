import BinaryLayout.Bits.ZigZag
import BinaryLayout.Identifier
import BinaryLayout.Integer

/-!
# Enumerations

An enumeration is a named list of named literals that share one storage: an integer
kind or a single character byte. Member names are distinct and every literal lies in
the range of the storage. A bit field stores members zig-zag numbered as soon as one
of them is negative.
-/

namespace BinaryLayout

/-- How the members of an enumeration are stored. -/
inductive EnumStorage where
  | int (kind : IntKind)
  | char
  deriving DecidableEq

namespace EnumStorage

/-- The declared name. -/
def name : EnumStorage → String
  | int kind => kind.name
  | char => "char"

/-- Bytes of a stored member. -/
def bytes : EnumStorage → Nat
  | int kind => kind.bytes
  | char => 1

/-- A literal can be stored. -/
def contains (storage : EnumStorage) (value : Int) : Bool :=
  match storage with
  | int kind => kind.contains value
  | char => 0 ≤ value && value ≤ 255

/-- The bytes of a literal. -/
def store (storage : EnumStorage) (value : Int) : List UInt8 :=
  match storage with
  | int kind => kind.store value
  | char => Bytes.littleEndian 1 (value % 256).toNat

end EnumStorage

/-- A declared list of literals. -/
structure Enumeration where
  name : String
  storage : EnumStorage
  /-- Names and literals in declaration order. -/
  members : List (String × Int64)
  deriving DecidableEq

namespace Enumeration

/-- Check members one after another behind those already checked. -/
def checkAll (storage : EnumStorage) (checked : List (String × Int64)) :
    List (String × Int64) → Except LayoutError (List (String × Int64))
  | [] => .ok checked
  | (name, value) :: rest => do
      Identifier.validate name
      if checked.any (·.1 = name) then refuse (.duplicateName name)
      else if !storage.contains value.toInt then
        .error (.valueRange (toString value.toInt) storage.name)
      else checkAll storage (checked ++ [(name, value)]) rest

/-- Declare an enumeration. The name is judged before the members. -/
def declare (name : String) (storage : EnumStorage) (members : List (String × Int64)) :
    Except LayoutError Enumeration := do
  Identifier.validate name
  if members.isEmpty then refuse (.emptyEnum name)
  else return ⟨name, storage, ← checkAll storage [] members⟩

/-- Position of a member. -/
def index? (enumeration : Enumeration) (name : String) : Option Nat :=
  enumeration.members.findIdx? (·.1 = name)

/-- Literal of a member. -/
def value? (enumeration : Enumeration) (name : String) : Option Int64 :=
  (enumeration.members.find? (·.1 = name)).map (·.2)

/-- Some member is below zero. -/
def hasNegative (enumeration : Enumeration) : Bool :=
  enumeration.members.any (·.2 < 0)

/-- Bytes of a stored member. -/
def width (enumeration : Enumeration) : Nat :=
  enumeration.storage.bytes

/-- What a bit field stores for a literal. -/
def bitValue (enumeration : Enumeration) (value : Int64) : UInt64 :=
  if enumeration.hasNegative then ZigZag.encode value else value.toUInt64

/-- Bits that hold any member in a bit field. -/
def requiredBits (enumeration : Enumeration) : Nat :=
  (enumeration.members.map fun member => Bits.required (enumeration.bitValue member.2)).foldl max 0

end Enumeration

/-- One member of an enumeration. -/
structure EnumMember where
  enumeration : Enumeration
  name : String
  value : Int64
  declared : (name, value) ∈ enumeration.members
  deriving DecidableEq

namespace EnumMember

/-- The stored bytes. -/
def bytes (member : EnumMember) : List UInt8 :=
  member.enumeration.storage.store member.value.toInt

/-- What a bit field stores for the member. -/
def bitValue (member : EnumMember) : UInt64 :=
  member.enumeration.bitValue member.value

end EnumMember

namespace Enumeration

/-- Every member in declaration order. -/
def all (enumeration : Enumeration) : List EnumMember :=
  enumeration.members.attach.map fun member =>
    ⟨enumeration, member.val.1, member.val.2, member.property⟩

/-- Look a member up by name. -/
def get (enumeration : Enumeration) (name : String) : Except LayoutError EnumMember :=
  match found : enumeration.members.find? (·.1 = name) with
  | some member =>
      .ok ⟨enumeration, member.1, member.2, List.mem_of_find?_eq_some found⟩
  | none => refuse (.unknownEnumMember enumeration.name name)

end Enumeration
end BinaryLayout
