import BinaryLayout.Proofs.Words

/-!
# Signed words in the order of their magnitudes

A signed word is numbered by shifting it and turning its bits over. As an unbounded integer this
number is twice the magnitude of the word, less one below zero, and it never leaves the 64 bits.
So every number belongs to exactly one word, numbers come in the order of magnitudes, and the
words whose numbers fit a width are those that have so many bits in two's complement.
-/

namespace BinaryLayout.ZigZag

section Encoding

variable {value other : Int64}

theorem toBitVec_encode (value : Int64) :
    (encode value).toBitVec = value.toBitVec <<< 1 ^^^ value.toBitVec.sshiftRight 63 := by
  simp [encode]

/-- From zero on, the number of a word is the word doubled: its highest bit is not set, so no bit
    is shifted out. -/
theorem toNat_encode_of_nonneg (nonneg : 0 ≤ value.toInt) :
    ((encode value).toNat : Int) = 2 * value.toInt := by
  have unsigned : value.toBitVec.msb = false := by
    rw [BitVec.msb_eq_toInt, Int64.toInt_toBitVec]
    exact decide_eq_false (Int.not_lt.mpr nonneg)
  have bits : (encode value).toBitVec = value.toBitVec <<< 1 := by
    rw [toBitVec_encode, sshiftRight_63, unsigned]
    exact BitVec.xor_zero
  have word : value.toInt = value.toBitVec.toNat := by
    rw [← Int64.toInt_toBitVec, BitVec.toInt_eq_msb_cond, unsigned]
    rfl
  have below := value.toInt_lt
  rw [← UInt64.toNat_toBitVec, bits, BitVec.toNat_shiftLeft, Nat.shiftLeft_eq]
  omega

/-- Below zero, all bits of the doubled word are turned over. Its highest bit is shifted out, and
    the least word gets the greatest number. -/
theorem toNat_encode_of_neg (negative : value.toInt < 0) :
    ((encode value).toNat : Int) = -2 * value.toInt - 1 := by
  have signed : value.toBitVec.msb = true := by
    rw [BitVec.msb_eq_toInt, Int64.toInt_toBitVec]
    exact decide_eq_true negative
  have bits : (encode value).toBitVec = ~~~(value.toBitVec <<< 1) := by
    rw [toBitVec_encode, sshiftRight_63, signed, if_pos rfl, BitVec.xor_allOnes]
  have word : value.toInt = value.toBitVec.toNat - 2 ^ 64 := by
    rw [← Int64.toInt_toBitVec, BitVec.toInt_eq_msb_cond, signed]
    rfl
  have above := value.le_toInt
  rw [← UInt64.toNat_toBitVec, bits, BitVec.toNat_not, BitVec.toNat_shiftLeft, Nat.shiftLeft_eq]
  omega

/-- Numbers grow with the magnitude, and of two words of one magnitude the negative one comes
    first. -/
theorem encode_lt_iff : encode value < encode other ↔
    value.toInt.natAbs < other.toInt.natAbs ∨
      value.toInt.natAbs = other.toInt.natAbs ∧ value < other := by
  rw [UInt64.lt_iff_toNat_lt, Int64.lt_iff_toInt_lt]
  rcases Int.lt_or_le value.toInt 0 with negative | nonneg <;>
    rcases Int.lt_or_le other.toInt 0 with otherNegative | otherNonneg
  · have first := toNat_encode_of_neg negative
    have second := toNat_encode_of_neg otherNegative
    omega
  · have first := toNat_encode_of_neg negative
    have second := toNat_encode_of_nonneg otherNonneg
    omega
  · have first := toNat_encode_of_nonneg nonneg
    have second := toNat_encode_of_neg otherNegative
    omega
  · have first := toNat_encode_of_nonneg nonneg
    have second := toNat_encode_of_nonneg otherNonneg
    omega

/-- A number fits a width when its word has that many bits in two's complement. -/
theorem fits_encode_iff {width : Nat} : Bits.fits (encode value) (width + 1) = true ↔
    -2 ^ width ≤ value.toInt ∧ value.toInt < 2 ^ width := by
  rw [Bits.fits_iff, Nat.pow_succ]
  have power : ((2 ^ width : Nat) : Int) = 2 ^ width := by norm_cast
  rw [← power]
  rcases Int.lt_or_le value.toInt 0 with negative | nonneg
  · have number := toNat_encode_of_neg negative
    omega
  · have number := toNat_encode_of_nonneg nonneg
    omega

end Encoding

section Decoding

variable {number : UInt64}

theorem toBitVec_decode (number : UInt64) :
    (decode number).toBitVec = number.toBitVec >>> 1 ^^^ -(number.toBitVec &&& 1#64) := by
  simp [decode]

/-- An even number belongs to its half. -/
theorem toInt_decode_of_even (even : number.toNat % 2 = 0) :
    (decode number).toInt = number.toNat / 2 := by
  have lowest : number.toBitVec &&& 1#64 = 0#64 := by
    apply BitVec.eq_of_toNat_eq
    rw [BitVec.toNat_and]
    exact (Nat.and_one_is_mod _).trans even
  have bits : (decode number).toBitVec = number.toBitVec >>> 1 := by
    rw [toBitVec_decode, lowest]
    exact BitVec.xor_zero
  have below := number.toNat_lt
  rw [← Int64.toInt_toBitVec, bits, BitVec.toInt_eq_toNat_cond, BitVec.toNat_ushiftRight,
    UInt64.toNat_toBitVec, Nat.shiftRight_eq_div_pow]
  omega

/-- An odd number belongs to its half, rounded up, below zero. -/
theorem toInt_decode_of_odd (odd : number.toNat % 2 = 1) :
    (decode number).toInt = -(number.toNat / 2) - 1 := by
  have lowest : number.toBitVec &&& 1#64 = 1#64 := by
    apply BitVec.eq_of_toNat_eq
    rw [BitVec.toNat_and]
    exact (Nat.and_one_is_mod _).trans odd
  have bits : (decode number).toBitVec = ~~~(number.toBitVec >>> 1) := by
    rw [toBitVec_decode, lowest, ← BitVec.xor_allOnes]
    rfl
  have below := number.toNat_lt
  rw [← Int64.toInt_toBitVec, bits, BitVec.toInt_eq_toNat_cond, BitVec.toNat_not,
    BitVec.toNat_ushiftRight, UInt64.toNat_toBitVec, Nat.shiftRight_eq_div_pow]
  omega

/-- Every number is the number of the word that belongs to it. -/
theorem encode_decode (number : UInt64) : encode (decode number) = number := by
  rw [← UInt64.toNat_inj]
  rcases Nat.mod_two_eq_zero_or_one number.toNat with even | odd
  · have word := toInt_decode_of_even even
    have again := @toNat_encode_of_nonneg (decode number) (by omega)
    omega
  · have word := toInt_decode_of_odd odd
    have again := @toNat_encode_of_neg (decode number) (by omega)
    omega

end Decoding

/-- Signed words and numbers belong to each other one to one. The number of a word is twice its
    magnitude, less one below zero, which leaves the 64 bits at neither end. So numbers come in the
    order of magnitudes, and those that fit a width belong to the words which have that many bits
    in two's complement. -/
theorem encode_orders :
    (∀ value, decode (encode value) = value) ∧ (∀ number, encode (decode number) = number) ∧
      (∀ value : Int64, ((encode value).toNat : Int) =
        if 0 ≤ value.toInt then 2 * value.toInt else 2 * value.toInt.natAbs - 1) ∧
      (∀ value other : Int64, encode value < encode other ↔
        value.toInt.natAbs < other.toInt.natAbs ∨
          value.toInt.natAbs = other.toInt.natAbs ∧ value < other) ∧
      ∀ (value : Int64) (width : Nat), Bits.fits (encode value) (width + 1) = true ↔
        -2 ^ width ≤ value.toInt ∧ value.toInt < 2 ^ width := by
  refine ⟨decode_encode, encode_decode, fun value => ?_, fun _ _ => encode_lt_iff,
    fun _ _ => fits_encode_iff⟩
  by_cases nonneg : 0 ≤ value.toInt
  · rw [if_pos nonneg, toNat_encode_of_nonneg nonneg]
  · have number := toNat_encode_of_neg (Int.lt_of_not_ge nonneg)
    rw [if_neg nonneg, number]
    omega

end BinaryLayout.ZigZag
