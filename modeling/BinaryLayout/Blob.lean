import BinaryLayout.Bits.Bytes
import BinaryLayout.Error

/-!
# Blobs and texts

A blob is a bit sequence of any length; its bytes are that sequence packed. A text is
a string together with the array that stores it: its bytes are UTF-8, closed by a
zero byte unless the text does without.
-/

namespace BinaryLayout

/-- A bit sequence, least significant bit first. -/
structure Blob where
  bits : List Bool
  deriving DecidableEq

namespace Blob

/-- The alignment of a blob that asks for none. -/
def defaultAlign : Nat := 4

/-- Read a blob from digits, which must all be bits. -/
def ofDigits (digits : List UInt8) : Except LayoutError Blob :=
  match Bits.ofDigits digits with
  | .ok bits => .ok ⟨bits⟩
  | .error (.notABit digit) => .error (.valueRange (toString digit.toNat) "bit")
  | .error cause => .error (.bitField "blob" cause)

/-- Eight bits for every byte. -/
def ofBytes (bytes : List UInt8) : Blob :=
  ⟨Bytes.unpack bytes⟩

/-- The packed bytes. -/
def bytes (blob : Blob) : List UInt8 :=
  Bytes.pack blob.bits

end Blob

/-- Refuse more elements than a fixed size holds. -/
def checkCapacity (length : Nat) (fixed : Option Nat) : Except LayoutError Unit :=
  match fixed with
  | some fixed => if fixed < length then refuse (.arrayTooLong length fixed) else .ok ()
  | none => .ok ()

/-- A string stored as an array of characters. -/
structure TextArray where
  fixed : Option Nat
  align : Nat
  text : String
  terminated : Bool
  deriving DecidableEq

namespace TextArray

/-- The UTF-8 bytes of the string, and the closing zero byte if there is one. -/
def bytes (array : TextArray) : List UInt8 :=
  array.text.toUTF8.data.toList ++ if array.terminated then [0] else []

/-- A closed text of variable length. -/
def ofString (text : String) : TextArray :=
  ⟨none, 1, text, true⟩

/-- A text in a fixed or variable array, which must have room for all its bytes. -/
def build (text : String) (fixed : Option Nat) (terminated : Bool) :
    Except LayoutError TextArray := do
  let array : TextArray := ⟨fixed, 1, text, terminated⟩
  checkCapacity array.bytes.length fixed
  return array

end TextArray
end BinaryLayout
