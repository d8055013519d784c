import BinaryLayout.Bits.Bytes

/-!
# Blocks of packed bytes

A packed value is two runs of bytes: one stored where the value sits, and one that
its references point into. Every run remembers whether its last byte holds packed
bits. Zero bytes appended behind a run end that.
-/

namespace BinaryLayout

/-- Bytes in a row. -/
structure Run where
  bytes : List UInt8
  /-- The last byte was written as packed bits. -/
  endsInBits : Bool
  deriving DecidableEq

namespace Run

/-- No bytes. -/
def empty : Run := ⟨[], false⟩

/-- Runs one behind the other. The last one that has bytes decides how they end. -/
def join (runs : List Run) : Run :=
  ⟨runs.flatMap (·.bytes),
    runs.foldl (fun ends run => if run.bytes.isEmpty then ends else run.endsInBits) false⟩

/-- Fill a run up with zero bytes. -/
def fill (run : Run) (length : Nat) : Run :=
  if run.bytes.length < length then
    ⟨run.bytes ++ List.replicate (length - run.bytes.length) 0, false⟩
  else run

end Run

/-- The bytes of a value in place, and those its references point into. -/
structure Blocks where
  inPlace : Run
  referred : Run
  deriving DecidableEq

namespace Blocks

/-- A value that refers to nothing. -/
def ofBytes (bytes : List UInt8) : Blocks :=
  ⟨⟨bytes, false⟩, .empty⟩

/-- Packed bits that refer to nothing. -/
def ofBits (bytes : List UInt8) : Blocks :=
  ⟨⟨bytes, true⟩, .empty⟩

/-- Both blocks, the referred bytes behind those in place. -/
def bytes (blocks : Blocks) : List UInt8 :=
  blocks.inPlace.bytes ++ blocks.referred.bytes

/-- The last byte of both blocks together holds packed bits. -/
def endsInBits (blocks : Blocks) : Bool :=
  if blocks.referred.bytes.isEmpty then blocks.inPlace.endsInBits else blocks.referred.endsInBits

/-- Both blocks as one in place. -/
def combine (blocks : Blocks) : Blocks :=
  ⟨⟨blocks.bytes, blocks.endsInBits⟩, .empty⟩

/-- The blocks of parts stored one behind the other. -/
def join (parts : List Blocks) : Blocks :=
  ⟨.join (parts.map (·.inPlace)), .join (parts.map (·.referred))⟩

/-- Fill the bytes in place up with zeros. -/
def fill (blocks : Blocks) (length : Nat) : Blocks :=
  ⟨blocks.inPlace.fill length, blocks.referred⟩

end Blocks
end BinaryLayout
