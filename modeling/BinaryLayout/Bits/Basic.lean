import BinaryLayout.Bits.Error

/-!
# Bit sequences and the numbers they denote

A bit sequence is a `List Bool`, least significant bit first. `ofNat` and `toNat`
pass between numbers and sequences of a chosen length; the other definitions ask
how many bits a 64-bit word needs and whether it has them.
-/

namespace BinaryLayout.Bits

/-- The number a sequence denotes, its first bit being worth one. -/
def toNat : List Bool → Nat
  | [] => 0
  | bit :: rest => bit.toNat + 2 * toNat rest

/-- The lowest `width` bits of a number. -/
def ofNat (width value : Nat) : List Bool :=
  (List.range width).map value.testBit

@[simp] theorem length_ofNat (width value : Nat) : (ofNat width value).length = width := by
  simp [ofNat]

/-- The first bit is the parity, and the others are those of the half. -/
theorem ofNat_succ (width value : Nat) :
    ofNat (width + 1) value = value.testBit 0 :: ofNat width (value / 2) := by
  simp [ofNat, List.range_succ_eq_map, Nat.testBit_succ]

/-- The lowest `width` bits of a word; positions past the word hold zeros. -/
def ofWord (width : Nat) (value : UInt64) : List Bool :=
  ofNat width value.toNat

/-- The word denoted by the first 64 bits of a sequence. -/
def toWord (bits : List Bool) : UInt64 :=
  UInt64.ofNat (toNat (bits.take 64))

/-- The word whose lowest `width` bits are set; from 64 on it is all ones. -/
def lowMask (width : Nat) : UInt64 :=
  if 64 ≤ width then UInt64.ofNat (UInt64.size - 1) else UInt64.ofNat (1 <<< width - 1)

/-- The least number of bits that hold a word. Zero needs none. -/
def required (value : UInt64) : Nat :=
  if value = 0 then 0 else value.toNat.log2 + 1

/-- A word fits a width when the bits it requires do. -/
def fits (value : UInt64) (width : Nat) : Bool :=
  required value ≤ width

/-- The bits of a word: without a width only up to its highest set bit, with one
    extended by zeros, and refused when the word requires more. -/
def expand (value : UInt64) : Option Nat → Except BitsError (List Bool)
  | none => .ok (ofWord (required value) value)
  | some width =>
      if fits value width then .ok (ofWord width value)
      else .error (.valueOverflow value width)

/-- Read one digit of a bit sequence that comes from outside. -/
def ofDigit (digit : UInt8) : Except BitsError Bool :=
  if digit = 0 then .ok false
  else if digit = 1 then .ok true
  else .error (.notABit digit)

/-- Read a whole sequence of digits. The first one that is no bit refuses it. -/
def ofDigits (digits : List UInt8) : Except BitsError (List Bool) :=
  digits.mapM ofDigit

/-- The bits before the first digit that is none. -/
def leading (digits : List UInt8) : List Bool :=
  (digits.takeWhile fun digit => digit = 0 || digit = 1).map (· = 1)

/-- The digits of a bit sequence, each 0 or 1. -/
def toDigits (bits : List Bool) : List UInt8 :=
  bits.map fun bit => if bit then 1 else 0

/-- Extend a sequence with zero bits up to a length. -/
def extend (bits : List Bool) (length : Nat) : List Bool :=
  bits ++ List.replicate (length - bits.length) false

@[simp] theorem length_extend (bits : List Bool) (length : Nat) :
    (extend bits length).length = max bits.length length := by
  simp only [extend, List.length_append, List.length_replicate]
  omega

end BinaryLayout.Bits
