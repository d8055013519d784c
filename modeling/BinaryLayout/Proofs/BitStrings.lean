import BinaryLayout.Bits.Window
import BinaryLayout.Integer
import Mathlib.Tactic.Positivity

/-!
# Bits, bytes and numbers

Bit sequences, bytes and numbers turn into each other without loss: what is packed is
unpacked, up to the zeros that complete the last byte, and what is stored is loaded.
-/

namespace BinaryLayout

namespace Bits

/-- A sequence denotes a number below the power of two of its length. -/
theorem toNat_lt (bits : List Bool) : toNat bits < 2 ^ bits.length := by
  induction bits with
  | nil => simp [toNat]
  | cons bit rest ih =>
    have := bit.toNat_lt
    simp only [toNat, List.length_cons, Nat.pow_succ]
    omega

/-- Reading back the lowest bits of a number loses exactly the higher ones. -/
theorem toNat_ofNat (width value : Nat) : toNat (ofNat width value) = value % 2 ^ width := by
  induction width generalizing value with
  | zero => simp [ofNat, toNat, Nat.mod_one]
  | succ width ih =>
    have parity : (value.testBit 0).toNat = value % 2 := by
      rcases Nat.mod_two_eq_zero_or_one value with even | odd <;> simp [*]
    rw [ofNat_succ, toNat, ih, parity, Nat.pow_succ, Nat.mul_comm (2 ^ width), Nat.mod_mul]

/-- The number of a sequence has its bits. -/
theorem ofNat_toNat (bits : List Bool) : ofNat bits.length (toNat bits) = bits := by
  induction bits with
  | nil => rfl
  | cons bit rest ih =>
    have half : (bit.toNat + 2 * toNat rest) / 2 = toNat rest := by
      have := bit.toNat_lt
      omega
    have parity : (bit.toNat + 2 * toNat rest).testBit 0 = bit := by
      cases bit <;> simp [Nat.testBit_zero, Nat.add_mod]
    rw [List.length_cons, ofNat_succ, toNat, half, ih, parity]

/-- Zeros behind a sequence do not change its number. -/
theorem toNat_append_zeros (bits : List Bool) (count : Nat) :
    toNat (bits ++ List.replicate count false) = toNat bits := by
  induction bits with
  | nil => induction count with
    | zero => rfl
    | succ count ih => simpa [List.replicate_succ, toNat] using ih
  | cons bit rest ih => simp [toNat, ih]

/-- The first bits of a number's bits are the bits in a smaller width. -/
theorem take_ofNat (count width value : Nat) :
    (ofNat width value).take count = ofNat (min count width) value := by
  simp [ofNat, ← List.map_take, List.take_range]

/-- A word requires as many bits as the power of two that it is below. -/
theorem required_le_iff {value : UInt64} {width : Nat} :
    required value ≤ width ↔ value.toNat < 2 ^ width := by
  by_cases zero : value = 0
  · simp [required, zero]
  · have positive : value.toNat ≠ 0 := fun same => zero (UInt64.toNat_inj.mp same)
    rw [required, if_neg zero, Nat.add_one_le_iff, Nat.log2_lt positive]

/-- A word fits a width when it is below the power of two. -/
theorem fits_iff {value : UInt64} {width : Nat} :
    fits value width = true ↔ value.toNat < 2 ^ width := by
  rw [fits, decide_eq_true_eq, required_le_iff]

/-- The mask of at most a word is all ones. -/
theorem toNat_lowMask {width : Nat} (room : width ≤ 64) :
    (lowMask width).toNat = 2 ^ width - 1 := by
  have positive : 0 < 2 ^ width := Nat.two_pow_pos width
  have small : 2 ^ width ≤ 2 ^ 64 := Nat.pow_le_pow_right (by omega) room
  unfold lowMask
  split
  · obtain rfl : width = 64 := by omega
    rfl
  · rw [Nat.one_shiftLeft, UInt64.toNat_ofNat', Nat.mod_eq_of_lt (by omega)]

/-- A word that fits is read back from its bits. -/
theorem toWord_ofWord {value : UInt64} {width : Nat} (room : fits value width = true) :
    toWord (ofWord width value) = value := by
  have small : value.toNat < 2 ^ min 64 width := by
    rcases Nat.le_total 64 width with wide | narrow
    · rw [Nat.min_eq_left wide]
      exact value.toNat_lt
    · rw [Nat.min_eq_right narrow]
      exact fits_iff.mp room
  rw [toWord, ofWord, take_ofNat, toNat_ofNat, Nat.mod_eq_of_lt small, UInt64.ofNat_toNat]

/-- Zeros behind a sequence do not change its word. -/
theorem toWord_extend (bits : List Bool) (length : Nat) :
    toWord (extend bits length) = toWord bits := by
  have firsts : (extend bits length).take 64 =
      bits.take 64 ++ List.replicate (min (64 - bits.length) (length - bits.length)) false := by
    rw [extend, List.take_append, List.take_replicate]
  rw [toWord, firsts, toNat_append_zeros]
  rfl

end Bits

namespace Bytes

/-- A byte has the bits of which it is made, zeros behind them. -/
theorem bits_ofBits (group : List Bool) : bits (ofBits group) = Bits.extend (group.take 8) 8 := by
  have length : (Bits.extend (group.take 8) 8).length = 8 := by simp
  have small : Bits.toNat (group.take 8) < 256 := by
    have below := Bits.toNat_lt (Bits.extend (group.take 8) 8)
    rwa [length, Bits.extend, Bits.toNat_append_zeros] at below
  have same := Bits.ofNat_toNat (Bits.extend (group.take 8) 8)
  rw [length, Bits.extend, Bits.toNat_append_zeros] at same
  rw [bits, ofBits, UInt8.toNat_ofNat', Nat.mod_eq_of_lt (by simpa using small), same]
  rfl

@[simp] theorem unpack_nil : unpack [] = [] := rfl

@[simp] theorem unpack_cons (byte : UInt8) (rest : List UInt8) :
    unpack (byte :: rest) = bits byte ++ unpack rest := rfl

@[simp] theorem unpack_append (first second : List UInt8) :
    unpack (first ++ second) = unpack first ++ unpack second := by
  simp [unpack]

/-- Packed groups are unpacked with zeros up to the last whole byte. -/
theorem unpack_packGroups {count : Nat} {sequence : List Bool}
    (room : sequence.length ≤ 8 * count) :
    unpack (packGroups count sequence) = Bits.extend sequence (8 * count) := by
  induction count generalizing sequence with
  | zero =>
    obtain rfl : sequence = [] := List.length_eq_zero_iff.mp (by omega)
    rfl
  | succ count ih =>
    have behind : unpack (packGroups count (sequence.drop 8)) =
        Bits.extend (sequence.drop 8) (8 * count) := ih (by simp; omega)
    rw [packGroups, unpack_cons, bits_ofBits, behind]
    rcases Nat.le_total 8 sequence.length with long | short
    · have full : 8 - (sequence.take 8).length = 0 := by simp; omega
      have rest : 8 * count - (sequence.drop 8).length = 8 * (count + 1) - sequence.length := by
        simp
        omega
      simp only [Bits.extend, full, rest, List.replicate_zero, List.append_nil]
      rw [← List.append_assoc, List.take_append_drop]
    · have zeros : 8 * (count + 1) - sequence.length = (8 - sequence.length) + 8 * count := by
        omega
      simp only [Bits.extend, List.take_of_length_le short, List.drop_of_length_le short, zeros,
        List.length_nil, Nat.sub_zero, List.nil_append, List.append_assoc,
        List.replicate_append_replicate]

/-- A packed sequence is unpacked with zeros behind it. -/
theorem unpack_pack (sequence : List Bool) :
    unpack (pack sequence) = Bits.extend sequence (8 * ((sequence.length + 7) / 8)) :=
  unpack_packGroups (by omega)

/-- A sequence that fills its bytes is unpacked as it was packed. -/
theorem unpack_pack_of_dvd {sequence : List Bool} (whole : 8 ∣ sequence.length) :
    unpack (pack sequence) = sequence := by
  have full : 8 * ((sequence.length + 7) / 8) - sequence.length = 0 := by omega
  rw [unpack_pack, Bits.extend, full, List.replicate_zero, List.append_nil]

/-- A byte is made of its bits. -/
theorem ofBits_bits (byte : UInt8) : ofBits (bits byte) = byte := by
  have small : byte.toNat < 2 ^ 8 := byte.toNat_lt
  rw [ofBits, bits, List.take_of_length_le (by simp), Bits.toNat_ofNat, Nat.mod_eq_of_lt small,
    UInt8.ofNat_toNat]

/-- Bytes are packed from their bits. -/
theorem pack_unpack (bytes : List UInt8) : pack (unpack bytes) = bytes := by
  induction bytes with
  | nil => rfl
  | cons byte rest ih =>
    have groups : ((unpack (byte :: rest)).length + 7) / 8 = rest.length + 1 := by
      rw [length_unpack, List.length_cons]
      omega
    have others : ((unpack rest).length + 7) / 8 = rest.length := by
      rw [length_unpack]
      omega
    rw [pack, others] at ih
    rw [pack, groups, packGroups, unpack_cons, List.drop_left' (length_bits byte), ih]
    have here : ofBits (bits byte ++ unpack rest) = ofBits (bits byte) := by
      rw [ofBits, List.take_left' (length_bits byte), ofBits,
        List.take_of_length_le (length_bits byte).le]
    rw [here, ofBits_bits]

/-- Dropping bytes drops their bits. -/
theorem unpack_drop (bytes : List UInt8) (count : Nat) :
    unpack (bytes.drop count) = (unpack bytes).drop (8 * count) := by
  induction bytes generalizing count with
  | nil => simp
  | cons byte rest ih =>
    cases count with
    | zero => rfl
    | succ count =>
      rw [List.drop_succ_cons, ih, unpack_cons, Nat.mul_succ, Nat.add_comm, ← List.drop_drop]
      simp

/-- Taking bytes takes their bits. -/
theorem unpack_take (bytes : List UInt8) (count : Nat) :
    unpack (bytes.take count) = (unpack bytes).take (8 * count) := by
  induction bytes generalizing count with
  | nil => simp
  | cons byte rest ih =>
    cases count with
    | zero => simp
    | succ count =>
      have firsts : (bits byte).take (8 * (count + 1)) = bits byte :=
        List.take_of_length_le (by rw [length_bits]; omega)
      have behind : 8 * (count + 1) - 8 = 8 * count := by omega
      rw [List.take_succ_cons, unpack_cons, ih, unpack_cons, List.take_append, firsts, length_bits,
        behind]

/-- The number of stored bytes is the stored number, higher bytes dropped. -/
theorem ofLittleEndian_littleEndian (count value : Nat) :
    ofLittleEndian (littleEndian count value) = value % 256 ^ count := by
  induction count generalizing value with
  | zero => simp [littleEndian, ofLittleEndian, Nat.mod_one]
  | succ count ih =>
    have byte : (UInt8.ofNat (value % 256)).toNat = value % 256 := by simp
    rw [littleEndian, ofLittleEndian, ih, byte, Nat.pow_succ, Nat.mul_comm (256 ^ count),
      Nat.mod_mul]

end Bytes

/-- A window that lies in the bytes is read as the word of its first 64 bits. -/
theorem Window.read?_eq {bytes : List UInt8} {offset width : Nat}
    (room : offset + width ≤ 8 * bytes.length) :
    read? bytes offset width = some (Bits.toWord (((Bytes.unpack bytes).drop offset).take width)) := by
  have lies : inside bytes offset (min width 64) = true := by
    simp only [inside, Bool.or_eq_true, decide_eq_true_eq]
    omega
  have near : ((Bytes.unpack ((bytes.drop (offset / 8)).take 9)).drop (offset % 8)).take
      (min width 64) = ((Bytes.unpack bytes).drop offset).take (min width 64) := by
    rw [Bytes.unpack_take, Bytes.unpack_drop, List.drop_take, List.drop_drop, List.take_take]
    congr 1
    · omega
    · congr 1
      omega
  simp only [read?, lies, if_true, near, Bits.toWord, List.take_take]
  congr 4
  omega

namespace IntKind

/-- The number that stored bytes denote, in two's complement where the kind has a sign. -/
def load (kind : IntKind) (bytes : List UInt8) : Int :=
  let stored := Bytes.ofLittleEndian bytes
  if kind.isSigned ∧ kind.width.count / 2 ≤ stored then stored - kind.width.count
  else stored

/-- A number in the range of a kind is loaded as it was stored. -/
theorem load_store {kind : IntKind} {value : Int} (inRange : kind.contains value = true) :
    kind.load (kind.store value) = value := by
  have bytes : 256 ^ kind.bytes = kind.width.count := by
    obtain ⟨isSigned, width⟩ := kind
    cases width <;> simp [IntKind.bytes, WordWidth.bytes, WordWidth.bits, WordWidth.count]
  have stored : Bytes.ofLittleEndian (kind.store value) = (value % kind.width.count).toNat := by
    have positive : (0 : Int) < kind.width.count := by cases kind.width <;> decide
    have below := Int.emod_lt_of_pos value positive
    have above := Int.emod_nonneg value positive.ne'
    rw [store, Bytes.ofLittleEndian_littleEndian, bytes, Nat.mod_eq_of_lt (by omega)]
  obtain ⟨isSigned, width⟩ := kind
  cases isSigned <;> cases width <;>
    simp [load, stored, contains, IntKind.min, IntKind.max, WordWidth.count] at inRange ⊢ <;>
    omega

end IntKind

end BinaryLayout
