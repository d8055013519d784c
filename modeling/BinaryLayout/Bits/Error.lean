import BinaryLayout.Overflow

/-!
# Faults of bit-level operations

Every refusal of the bit layer is a cause with the numbers that explain it. The
wording of all of them stands in `BitsError.message` and nowhere else.
-/

namespace BinaryLayout

/-- What a bit-level operation refuses. -/
inductive BitsError where
  /-- No machine word has this many bits. -/
  | wordWidth (bits : UInt32)
  /-- The value needs more bits than it is given. -/
  | valueOverflow (value : UInt64) (width : Nat)
  /-- The requested bits do not fit beside the ones already used. -/
  | fieldOverflow (requested used total : Nat)
  /-- A bit sequence holds a digit other than 0 and 1. -/
  | notABit (digit : UInt8)
  /-- A row or a word is given the wrong number of values. -/
  | fieldCount (expected found : Nat)
  /-- One table entry needs more bits than a header slot can count. -/
  | strideOverflow (stride : Nat)
  /-- A header is cut short. -/
  | truncated (needed available : Nat)
  /-- A number leaves its machine word. This is no refusal: the program stops. -/
  | overflow
  deriving DecidableEq

namespace BitsError

/-- The sentence that reports a refusal. -/
def message : BitsError → String
  | wordWidth bits => s!"word width must be one of 8, 16, 32 or 64 bits, got {bits.toNat}"
  | valueOverflow value width => s!"value {value.toNat} does not fit in {width} bits"
  | fieldOverflow requested used total =>
      s!"field of {requested} bits does not fit: {used} of {total} bits already used"
  | notABit digit => s!"bit sequences may only hold 0 or 1, found {digit.toNat}"
  | fieldCount expected found => s!"expected {expected} field values, received {found}"
  | strideOverflow stride =>
      s!"entry stride of {stride} bits does not fit a 16-bit header slot"
  | truncated needed available => s!"need {needed} bytes but only {available} are available"
  | overflow => "arithmetic overflow"

end BitsError
end BinaryLayout
