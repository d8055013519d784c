import BinaryLayout.Bits.Bytes
import BinaryLayout.Error
import BinaryLayout.Word.Width

/-!
# Integers of a declared kind

An integer kind is a width with or without a sign. A stored integer belongs to the
range of its kind, so its bytes always exist: two's complement, least significant
byte first. Offsets of references are stored as integers too.
-/

namespace BinaryLayout

/-- A fixed-width integer type. -/
structure IntKind where
  isSigned : Bool
  width : WordWidth
  deriving DecidableEq

namespace IntKind

def int8 : IntKind := ⟨true, .w8⟩
def int16 : IntKind := ⟨true, .w16⟩
def int32 : IntKind := ⟨true, .w32⟩
def int64 : IntKind := ⟨true, .w64⟩
def uint8 : IntKind := ⟨false, .w8⟩
def uint16 : IntKind := ⟨false, .w16⟩
def uint32 : IntKind := ⟨false, .w32⟩
def uint64 : IntKind := ⟨false, .w64⟩

/-- Every kind, signed ones first. -/
def all : List IntKind :=
  [int8, int16, int32, int64, uint8, uint16, uint32, uint64]

/-- Bytes of a stored integer. -/
def bytes (kind : IntKind) : Nat :=
  kind.width.bytes

/-- The declared name. -/
def name (kind : IntKind) : String :=
  (if kind.isSigned then "int" else "uint") ++ toString kind.width.bits ++ "_t"

/-- The least value. -/
def min (kind : IntKind) : Int :=
  if kind.isSigned then -(kind.width.count / 2) else 0

/-- The greatest value. -/
def max (kind : IntKind) : Int :=
  if kind.isSigned then kind.width.count / 2 - 1 else kind.width.count - 1

/-- A value lies in the range of the kind. -/
def contains (kind : IntKind) (value : Int) : Bool :=
  kind.min ≤ value && value ≤ kind.max

/-- The two's complement bytes of any number, higher bits dropped. -/
def store (kind : IntKind) (value : Int) : List UInt8 :=
  Bytes.littleEndian kind.bytes (value % kind.width.count).toNat

/-- The bytes of a value in the range of the kind. -/
def encode (kind : IntKind) (value : Int) : Except LayoutError (List UInt8) :=
  if kind.contains value then .ok (kind.store value)
  else .error (.valueRange (toString value) kind.name)

end IntKind

/-- An integer in the range of its kind. -/
structure Integer where
  kind : IntKind
  value : Int
  inRange : kind.contains value = true
  deriving DecidableEq

namespace Integer

/-- Admit a number to a kind. -/
def ofInt (kind : IntKind) (value : Int) : Except LayoutError Integer :=
  if inRange : kind.contains value = true then .ok ⟨kind, value, inRange⟩
  else .error (.valueRange (toString value) kind.name)

/-- The stored bytes. -/
def bytes (integer : Integer) : List UInt8 :=
  integer.kind.store integer.value

end Integer

/-- The width of a stored byte offset. -/
inductive RefWidth where
  | w8
  | w16
  | w32
  deriving DecidableEq

namespace RefWidth

/-- Offsets of 8 bits have no sign, wider ones have one. -/
def kind : RefWidth → IntKind
  | w8 => .uint8
  | w16 => .int16
  | w32 => .int32

/-- Bits of a stored offset. -/
def bits (width : RefWidth) : Nat :=
  width.kind.width.bits

/-- Bytes of a stored offset. -/
def bytes (width : RefWidth) : Nat :=
  width.kind.bytes

/-- The width as it appears in names of reference tables; the usual one is silent. -/
def label : RefWidth → String
  | w8 => "8"
  | w16 => "16"
  | w32 => ""

end RefWidth
end BinaryLayout
