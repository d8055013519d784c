import BinaryLayout.Bits.Bytes

/-!
# A growing bit buffer

The buffer keeps its contents and, apart from them, the bits that its last byte and
refused sequences have left behind the end. A refused sequence does not change the
contents, but what was written before the refusal stays in the storage: a later
sequence that is shorter than its width uncovers it.
-/

namespace BinaryLayout

/-- Bits appended so far, and the rest of the bytes that store them. -/
structure BitBuffer where
  /-- The bits appended, in order. -/
  contents : List Bool
  /-- The stored bits behind the contents. -/
  beyond : List Bool
  deriving DecidableEq

namespace BitBuffer

/-- The buffer that stores nothing. -/
def empty : BitBuffer := ⟨[], []⟩

/-- Number of bits appended. -/
def length (buffer : BitBuffer) : Nat :=
  buffer.contents.length

/-- The storage, the last byte completed with whatever stands behind the end. -/
def bytes (buffer : BitBuffer) : List UInt8 :=
  Bytes.pack (buffer.contents ++ buffer.beyond)

/-- The stored bits behind the end once there is room for `width` more, in whole
    bytes. -/
def room (buffer : BitBuffer) (width : Nat) : List Bool :=
  let total := (buffer.length + width + 7) / 8 * 8
  Bits.extend buffer.beyond (total - buffer.length)

/-- Append the lowest `width` bits of a word that fits them. -/
def push (buffer : BitBuffer) (value : UInt64) (width : Nat) : Except BitsError BitBuffer := do
  if Bits.fits value width then
    let _ ← checked .overflow (buffer.length + width)
    return ⟨buffer.contents ++ Bits.ofWord width value, (buffer.room width).drop width⟩
  else .error (.valueOverflow value width)

/-- Append a sequence of digits and leave the rest of `width` as the storage has it.
    The buffer is returned in every case: a digit that is no bit ends the writing,
    and the bits before it stay behind the end. -/
def pushDigits (buffer : BitBuffer) (digits : List UInt8) (width : Nat) :
    Except BitsError Unit × BitBuffer :=
  if width < digits.length then
    (.error (.fieldOverflow digits.length 0 width), buffer)
  else if addressSpace ≤ buffer.length + width then (.error .overflow, buffer)
  else
    let stored := buffer.room width
    match Bits.ofDigits digits with
    | .ok bits =>
        let patched := bits ++ stored.drop bits.length
        (.ok (), ⟨buffer.contents ++ patched.take width, patched.drop width⟩)
    | .error refusal =>
        let written := Bits.leading digits
        (.error refusal, ⟨buffer.contents, written ++ stored.drop written.length⟩)

/-- Read a window of the contents as a word; none past their end. What ends within the
    contents needs no check. -/
def get (buffer : BitBuffer) (position width : Nat) : Except BitsError (Option UInt64) := do
  if position + width ≤ buffer.length then
    return some (Bits.toWord ((buffer.contents.drop position).take width))
  else
    let _ ← checked .overflow (position + width)
    return none

end BitBuffer
end BinaryLayout
