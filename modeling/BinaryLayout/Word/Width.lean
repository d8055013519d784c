/-!
# Widths of machine words

Words have 8, 16, 32 or 64 bits. No other width exists, so a width is one of four
names and not a number to be checked again.
-/

namespace BinaryLayout

/-- The width of a machine word. -/
inductive WordWidth where
  | w8
  | w16
  | w32
  | w64
  deriving DecidableEq

namespace WordWidth

/-- Number of bits. -/
def bits : WordWidth → Nat
  | w8 => 8
  | w16 => 16
  | w32 => 32
  | w64 => 64

/-- Number of bytes. -/
def bytes (width : WordWidth) : Nat :=
  width.bits / 8

/-- Number of different words. -/
def count : WordWidth → Nat
  | w8 => 256
  | w16 => 65536
  | w32 => 4294967296
  | w64 => 18446744073709551616

/-- The width with a given number of bits, if there is one. -/
def ofBits? (bits : Nat) : Option WordWidth :=
  if bits = 8 then some w8
  else if bits = 16 then some w16
  else if bits = 32 then some w32
  else if bits = 64 then some w64
  else none

end WordWidth
end BinaryLayout
