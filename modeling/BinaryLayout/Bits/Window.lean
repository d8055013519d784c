import BinaryLayout.Bits.Bytes

/-!
# Bit windows over bytes

A window is a range of bit positions in a byte sequence. Reading one yields a
word, writing one replaces exactly its bits. A window that leaves the bytes has no
answer, except the empty window, which touches nothing wherever it lies.
-/

namespace BinaryLayout.Window

/-- Every position of the window lies in the bytes. -/
def inside (bytes : List UInt8) (offset width : Nat) : Bool :=
  width = 0 || offset + width ≤ 8 * bytes.length

/-- Replace the elements from a position on by those of a patch. -/
def overwrite (target : List Bool) (offset : Nat) (patch : List Bool) : List Bool :=
  target.take offset ++ patch ++ target.drop (offset + patch.length)

/-- Read at most 64 bits as a word. Nine bytes hold every such window, so no
    others are looked at. -/
def read? (bytes : List UInt8) (offset width : Nat) : Option UInt64 :=
  let width := min width 64
  if inside bytes offset width then
    let near := (bytes.drop (offset / 8)).take 9
    some (Bits.toWord (((Bytes.unpack near).drop (offset % 8)).take width))
  else none

/-- Write the lowest bits of a word. A window wider than a word is filled up with
    zeros. -/
def write? (bytes : List UInt8) (offset width : Nat) (value : UInt64) : Option (List UInt8) :=
  if inside bytes offset width then
    some (Bytes.pack (overwrite (Bytes.unpack bytes) offset (Bits.ofWord width value)))
  else none

end BinaryLayout.Window
