/-!
# Zig-zag numbering of signed words

Signed words are numbered 0, -1, 1, -2, 2, … so that small magnitudes need few
bits. Both directions work on 64-bit words and lose nothing at either end.
-/

namespace BinaryLayout.ZigZag

/-- The number of a signed word: twice its magnitude, less one below zero. -/
def encode (value : Int64) : UInt64 :=
  ((value <<< 1) ^^^ (value >>> 63)).toUInt64

/-- The signed word with a given number. -/
def decode (number : UInt64) : Int64 :=
  (number >>> 1).toInt64 ^^^ -(number &&& 1).toInt64

/-- Small magnitudes come first, and the least word comes last. -/
example : [0, -1, 1, -2, 2, Int64.minValue].map encode = [0, 1, 2, 3, 4, 0xffffffffffffffff] := by
  decide

end BinaryLayout.ZigZag
