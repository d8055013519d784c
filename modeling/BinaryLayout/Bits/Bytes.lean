import BinaryLayout.Bits.Basic

/-!
# Bytes as groups of eight bits

Bit 0 of a sequence is the lowest bit of the first byte. A sequence that does not
fill its last byte is completed with zeros. Numbers are stored least significant
byte first.
-/

namespace BinaryLayout.Bytes

/-- The eight bits of a byte. -/
def bits (byte : UInt8) : List Bool :=
  Bits.ofNat 8 byte.toNat

@[simp] theorem length_bits (byte : UInt8) : (bits byte).length = 8 := by
  simp [bits]

/-- The byte whose lowest bits are given; bits past the eighth are dropped. -/
def ofBits (group : List Bool) : UInt8 :=
  UInt8.ofNat (Bits.toNat (group.take 8))

/-- Eight bits for every byte. -/
def unpack (bytes : List UInt8) : List Bool :=
  bytes.flatMap bits

@[simp] theorem length_unpack (bytes : List UInt8) : (unpack bytes).length = 8 * bytes.length := by
  induction bytes with
  | nil => rfl
  | cons byte rest ih =>
    simp only [unpack, List.flatMap_cons, List.length_append, length_bits, List.length_cons] at *
    omega

/-- The first `count` groups of eight bits, one byte each. -/
def packGroups : (count : Nat) → List Bool → List UInt8
  | 0, _ => []
  | count + 1, sequence => ofBits sequence :: packGroups count (sequence.drop 8)

/-- Pack a bit sequence into as few bytes as hold it. -/
def pack (sequence : List Bool) : List UInt8 :=
  packGroups ((sequence.length + 7) / 8) sequence

@[simp] theorem length_packGroups (count : Nat) (sequence : List Bool) :
    (packGroups count sequence).length = count := by
  induction count generalizing sequence with
  | zero => rfl
  | succ count ih => simp [packGroups, ih]

@[simp] theorem length_pack (sequence : List Bool) :
    (pack sequence).length = (sequence.length + 7) / 8 :=
  length_packGroups ..

/-- Pack a sequence of digits, refusing one that is no bit. -/
def packDigits (digits : List UInt8) : Except BitsError (List UInt8) :=
  (Bits.ofDigits digits).map pack

/-- The lowest `count` bytes of a number, least significant first. -/
def littleEndian : (count : Nat) → Nat → List UInt8
  | 0, _ => []
  | count + 1, value => UInt8.ofNat (value % 256) :: littleEndian count (value / 256)

@[simp] theorem length_littleEndian (count value : Nat) :
    (littleEndian count value).length = count := by
  induction count generalizing value with
  | zero => rfl
  | succ count ih => simp [littleEndian, ih]

/-- The number whose bytes are given, least significant first. -/
def ofLittleEndian : List UInt8 → Nat
  | [] => 0
  | byte :: rest => byte.toNat + 256 * ofLittleEndian rest

/-- The ninth bit opens a second byte, which zeros complete. -/
example : pack [true, true, false, false, true, false, true, false, true] = [0x53, 0x01] := by
  decide

end BinaryLayout.Bytes
