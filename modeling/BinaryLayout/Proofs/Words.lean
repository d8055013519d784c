import BinaryLayout.BitField
import BinaryLayout.Proofs.BitStrings
import BinaryLayout.Proofs.Success

/-!
# Reading bit fields back

Fields whose widths add up to no more than their word do not overlap, so shifting and
masking finds what was combined.
-/

namespace BinaryLayout

namespace ZigZag

/-- Shifting out all but the sign bit repeats that bit. -/
theorem sshiftRight_63 (bits : BitVec 64) :
    bits.sshiftRight 63 = if bits.msb then BitVec.allOnes 64 else 0#64 := by
  apply BitVec.eq_of_getLsbD_eq
  intro index inside
  have last : bits[63] = bits.msb := by simp [BitVec.msb_eq_getLsbD_last]
  rw [BitVec.getLsbD_sshiftRight]
  cases index with
  | zero => cases sign : bits.msb <;> simp [last, sign]
  | succ index =>
    have past : ¬ 63 + (index + 1) < 64 := by omega
    have before : ¬ 64 ≤ index + 1 := by omega
    cases sign : bits.msb <;> simp [-BitVec.reduceAllOnes, past, before, inside]

/-- A number is told by its bits: the lowest one is the sign, and the others are the bits
    of the magnitude, all of them turned over below zero. -/
theorem decode_encode_bits (bits : BitVec 64) :
    (bits <<< 1 ^^^ bits.sshiftRight 63) >>> 1 ^^^
      -((bits <<< 1 ^^^ bits.sshiftRight 63) &&& 1#64) = bits := by
  have lowest : (bits <<< 1 ^^^ bits.sshiftRight 63) &&& 1#64 =
      if bits.msb then 1#64 else 0#64 := by
    apply BitVec.eq_of_getLsbD_eq
    intro index inside
    cases sign : bits.msb <;> cases index <;> simp [sshiftRight_63, sign]
  have mask : -(if bits.msb then 1#64 else 0#64) =
      if bits.msb then BitVec.allOnes 64 else 0#64 := by
    cases bits.msb <;> rfl
  rw [lowest, mask, sshiftRight_63]
  apply BitVec.eq_of_getLsbD_eq
  intro index inside
  have last : bits[63] = bits.msb := by simp [BitVec.msb_eq_getLsbD_last]
  rcases Nat.lt_or_ge index 63 with below | top
  · have next : 1 + index < 64 := by omega
    cases sign : bits.msb <;> simp [-BitVec.reduceAllOnes, next, inside]
  · obtain rfl : index = 63 := by omega
    cases sign : bits.msb <;> simp [last, sign]

/-- Numbering loses nothing. -/
theorem decode_encode (value : Int64) : decode (encode value) = value := by
  apply Int64.toBitVec.inj
  simpa [decode, encode] using decode_encode_bits value.toBitVec

end ZigZag

namespace WordWidth

/-- No word has more than 64 bits. -/
theorem bits_le (total : WordWidth) : total.bits ≤ 64 := by
  cases total <;> decide

/-- The width that has a number of bits has that number of bits. -/
theorem bits_of_ofBits? {bits : Nat} {total : WordWidth} (found : ofBits? bits = some total) :
    total.bits = bits := by
  grind [ofBits?, WordWidth.bits]

end WordWidth

namespace WordFields

/-- The number that values make when each stands directly above the ones before. -/
def stack : List (UInt64 × UInt32) → Nat
  | [] => 0
  | (value, width) :: rest => value.toNat + 2 ^ width.toNat * stack rest

/-- The bits that fields take together. -/
def room (pairs : List (UInt64 × UInt32)) : Nat :=
  sum (pairs.map (·.2))

@[simp] theorem room_nil : room [] = 0 := rfl

@[simp] theorem room_cons (value : UInt64) (width : UInt32) (rest : List (UInt64 × UInt32)) :
    room ((value, width) :: rest) = width.toNat + room rest := rfl

/-- Every value fits its field. -/
def Fit (pairs : List (UInt64 × UInt32)) : Prop :=
  ∀ pair ∈ pairs, pair.1.toNat < 2 ^ pair.2.toNat

/-- Values that fit make a number that fits. -/
theorem stack_lt {pairs : List (UInt64 × UInt32)} (fit : Fit pairs) :
    stack pairs < 2 ^ room pairs := by
  induction pairs with
  | nil => simp [stack, room]
  | cons pair rest ih =>
    obtain ⟨value, width⟩ := pair
    have here : value.toNat < 2 ^ width.toNat := fit (value, width) (by simp)
    have behind := ih fun tested present => fit tested (by simp [present])
    have whole : 2 ^ width.toNat * (stack rest + 1) ≤ 2 ^ width.toNat * 2 ^ room rest :=
      Nat.mul_le_mul_left _ behind
    simp only [stack, room_cons, Nat.pow_add, Nat.mul_add] at *
    omega

/-- A shift within the word is a word. -/
theorem toNat_ofNat_shift {shift : Nat} (lies : shift ≤ 64) : (UInt64.ofNat shift).toNat = shift := by
  rw [UInt64.toNat_ofNat', Nat.mod_eq_of_lt (by omega)]

/-- A value that fits is shifted without loss while its field lies in the word. -/
theorem toNat_shift {value : UInt64} {width shift : Nat} (fit : value.toNat < 2 ^ width)
    (lies : shift + width ≤ 64) :
    (value <<< UInt64.ofNat shift).toNat = 2 ^ shift * value.toNat := by
  rw [UInt64.toNat_shiftLeft, toNat_ofNat_shift (by omega), Nat.shiftLeft_eq]
  rcases Nat.eq_zero_or_pos width with rfl | positive
  · obtain rfl : value = 0 := UInt64.toNat_inj.mp (by simpa using fit)
    simp
  · have small : value.toNat * 2 ^ shift < 2 ^ 64 :=
      calc value.toNat * 2 ^ shift < 2 ^ width * 2 ^ shift := by gcongr
        _ = 2 ^ (shift + width) := by rw [Nat.pow_add, Nat.mul_comm]
        _ ≤ 2 ^ 64 := Nat.pow_le_pow_right (by omega) lies
    rw [Nat.mod_eq_of_lt (by omega : shift < 64), Nat.mod_eq_of_lt small, Nat.mul_comm]

/-- Combined fields make the number of their values, moved up by the shift. -/
theorem combine_eq_ok {pairs : List (UInt64 × UInt32)} {shift : Nat} {word : UInt64}
    (combined : combine pairs shift = .ok word) (lies : shift + room pairs ≤ 64) :
    Fit pairs ∧ word.toNat = 2 ^ shift * stack pairs := by
  induction pairs generalizing shift word with
  | nil =>
    obtain rfl := Except.ok.inj combined
    exact ⟨by simp [Fit], by simp [stack]⟩
  | cons pair rest ih =>
    obtain ⟨value, width⟩ := pair
    simp only [combine] at combined
    split at combined
    · rename_i fits
      obtain ⟨above, later, rfl⟩ := map_eq_ok.mp combined
      have fit := Bits.fits_iff.mp fits
      rw [room_cons] at lies
      obtain ⟨others, behind⟩ := ih later (by omega)
      constructor
      · exact List.forall_mem_cons.mpr ⟨fit, others⟩
      · have here := toNat_shift fit (show shift + width.toNat ≤ 64 by omega)
        have below : 2 ^ shift * value.toNat < 2 ^ (shift + width.toNat) := by
          rw [Nat.pow_add]
          gcongr
        rw [UInt64.toNat_or, here, behind, Nat.or_comm,
          ← Nat.two_pow_add_eq_or_of_lt below, stack, Nat.pow_add, Nat.mul_add, Nat.mul_assoc]
        omega
    · simp at combined

/-- Values that fit are combined. -/
theorem exists_combine {pairs : List (UInt64 × UInt32)}
    (fit : ∀ pair ∈ pairs, Bits.fits pair.1 pair.2.toNat = true) (shift : Nat) :
    ∃ word, combine pairs shift = .ok word := by
  induction pairs generalizing shift with
  | nil => exact ⟨0, rfl⟩
  | cons pair rest ih =>
    rw [List.forall_mem_cons] at fit
    obtain ⟨above, combined⟩ := ih fit.2 (shift + pair.2.toNat)
    exact ⟨_, by rw [combine, if_pos fit.1, combined, Except.map]⟩

/-- A field that lies in the word is read as the bits of its width above its shift. -/
theorem toNat_field (word : UInt64) {width shift : Nat} (lies : shift + width ≤ 64) :
    (word >>> UInt64.ofNat shift &&& Bits.lowMask width).toNat =
      word.toNat / 2 ^ shift % 2 ^ width := by
  rw [UInt64.toNat_and, UInt64.toNat_shiftRight, toNat_ofNat_shift (by omega),
    Bits.toNat_lowMask (by omega), Nat.and_two_pow_sub_one_eq_mod, Nat.shiftRight_eq_div_pow]
  rcases Nat.eq_zero_or_pos width with rfl | positive
  · simp [Nat.mod_one]
  · rw [Nat.mod_eq_of_lt (by omega : shift < 64)]

/-- Splitting finds the values of a number that stands at the shift. -/
theorem split_eq {pairs : List (UInt64 × UInt32)} {shift : Nat} {word : UInt64}
    (fit : Fit pairs) (lies : shift + room pairs ≤ 64)
    (stands : word.toNat / 2 ^ shift % 2 ^ room pairs = stack pairs) :
    split word (pairs.map (·.2)) shift = pairs.map (·.1) := by
  induction pairs generalizing shift with
  | nil => rfl
  | cons pair rest ih =>
    obtain ⟨value, width⟩ := pair
    have here : value.toNat < 2 ^ width.toNat := fit (value, width) (by simp)
    simp only [room_cons, stack] at lies stands
    have lowest : word.toNat / 2 ^ shift % 2 ^ width.toNat = value.toNat := by
      rw [← Nat.mod_mul_right_mod _ _ (2 ^ room rest), ← Nat.pow_add, stands,
        Nat.add_mul_mod_self_left, Nat.mod_eq_of_lt here]
    have first : word >>> UInt64.ofNat shift &&& Bits.lowMask width.toNat = value := by
      apply UInt64.toNat_inj.mp
      rw [toNat_field word (by omega), lowest]
    have above : word.toNat / 2 ^ (shift + width.toNat) % 2 ^ room rest = stack rest := by
      rw [Nat.pow_add, ← Nat.div_div_eq_div_mul, ← Nat.mod_mul_right_div_self, ← Nat.pow_add,
        stands, Nat.add_mul_div_left _ _ (Nat.two_pow_pos _), Nat.div_eq_of_lt here, Nat.zero_add]
    have others := @ih (shift + width.toNat) (fun tested present => fit tested (by simp [present]))
      (by omega) above
    simp only [List.map_cons, split, first, others]

end WordFields

/-- No word requires more than 64 bits. -/
theorem Bits.required_le (value : UInt64) : required value ≤ 64 :=
  required_le_iff.mpr value.toNat_lt

/-- A member of an enumeration fits the bits that any of its members needs. -/
theorem EnumMember.required_le (member : EnumMember) :
    Bits.required member.bitValue ≤ member.enumeration.requiredBits ∧
      member.enumeration.requiredBits ≤ 64 := by
  have bound (numbers : List Nat) (start : Nat) :
      (∀ number ∈ start :: numbers, number ≤ numbers.foldl max start) ∧
        ((∀ number ∈ start :: numbers, number ≤ 64) → numbers.foldl max start ≤ 64) := by
    induction numbers generalizing start with
    | nil => simp
    | cons first rest ih =>
      obtain ⟨above, below⟩ := ih (max start first)
      simp only [List.forall_mem_cons, List.foldl_cons] at above below ⊢
      exact ⟨⟨by omega, by omega, above.2⟩, fun small => below ⟨by omega, small.2.2⟩⟩
  obtain ⟨above, below⟩ := bound (member.enumeration.members.map fun declared =>
    Bits.required (member.enumeration.bitValue declared.2)) 0
  refine ⟨above _ (List.mem_cons_of_mem _ (List.mem_map.mpr ⟨_, member.declared, rfl⟩)), ?_⟩
  refine below (List.forall_mem_cons.mpr ⟨Nat.zero_le _, fun number present => ?_⟩)
  obtain ⟨declared, -, rfl⟩ := List.mem_map.mp present
  exact Bits.required_le _

/-- A member of an enumeration fits the field that is made for it. -/
theorem EnumMember.fits_required (member : EnumMember) :
    Bits.fits (FieldValue.member member).stored
      (UInt32.ofNat member.enumeration.requiredBits).toNat = true := by
  obtain ⟨room, small⟩ := member.required_le
  have width : (UInt32.ofNat member.enumeration.requiredBits).toNat =
      member.enumeration.requiredBits := by
    rw [UInt32.toNat_ofNat', Nat.mod_eq_of_lt (by omega)]
  simpa [Bits.fits, FieldValue.stored, width] using room

/-- The number that stored bits denote. -/
def FieldKind.decode (number : UInt64) : FieldKind → Int
  | unsigned => number.toNat
  | signed => (ZigZag.decode number).toInt
  | enum enumeration =>
      if enumeration.hasNegative then (ZigZag.decode number).toInt else number.toInt64.toInt

/-- The number that a field value denotes. -/
def FieldValue.number : FieldValue → Int
  | unsigned value => value.toNat
  | signed value => value.toInt
  | member chosen => chosen.value.toInt

/-- Stored bits denote the number of the value. -/
theorem FieldValue.decode_stored (value : FieldValue) :
    value.kind.decode value.stored = value.number := by
  cases value with
  | unsigned value => rfl
  | signed value => simp [kind, FieldKind.decode, stored, number, ZigZag.decode_encode]
  | member chosen =>
    cases signed : chosen.enumeration.hasNegative <;>
      simp [kind, FieldKind.decode, stored, number, EnumMember.bitValue, Enumeration.bitValue,
        signed, ZigZag.decode_encode]

/-- The numbers of the fields, read off the stored bytes by shifting and masking. -/
def BitFieldType.decode (type : BitFieldType) (bytes : List UInt8) : List Int :=
  List.zipWith (fun field number => field.kind.decode number) type.fields
    (type.word.unpack (UInt64.ofNat (Bytes.ofLittleEndian bytes)))

namespace BitField

variable {field : BitField}

/-- The values of a bit field beside the widths of its fields. -/
def pairs (field : BitField) : List (UInt64 × UInt32) :=
  field.entries.map fun entry => (entry.value.stored, entry.width)

theorem widths_type (field : BitField) :
    field.type.word.widths = field.pairs.map (·.2) := by
  simp [type, BitFieldType.word, pairs]

/-- What is packed into a bit field is read back from its bytes. -/
theorem decode_bytes {bytes : List UInt8} (room : field.type.word.used ≤ field.total.bits)
    (packed : field.bytes = .ok bytes) :
    field.type.decode bytes = field.entries.map (·.value.number) := by
  obtain ⟨word, combined, rfl⟩ := map_eq_ok.mp packed
  have combined := mapError_eq_ok.mp combined
  simp only [WordFields.pack] at combined
  split at combined
  · have zipped : (field.entries.map (·.value.stored)).zip field.type.word.widths =
        field.pairs := by
      simp [type, BitFieldType.word, pairs, List.zip_map']
    have sum : WordFields.room field.pairs = field.type.word.used := by
      rw [WordFields.room, ← widths_type, WordFields.used]
    have atMost : field.total.bits ≤ 64 := field.total.bits_le
    rw [zipped] at combined
    obtain ⟨fit, number⟩ := WordFields.combine_eq_ok combined (by omega)
    have number : word.toNat = WordFields.stack field.pairs := by simpa using number
    have below : word.toNat < 256 ^ field.total.bytes :=
      calc word.toNat < 2 ^ WordFields.room field.pairs := number ▸ WordFields.stack_lt fit
        _ ≤ 2 ^ field.total.bits := Nat.pow_le_pow_right (by omega) (by omega)
        _ = 256 ^ field.total.bytes := by cases field.total <;> rfl
    have loaded : UInt64.ofNat (Bytes.ofLittleEndian (field.type.word.bytes word)) = word := by
      rw [WordFields.bytes, Bytes.ofLittleEndian_littleEndian,
        Nat.mod_eq_of_lt (show word.toNat < 256 ^ field.type.word.total.bytes from below),
        UInt64.ofNat_toNat]
    have found : WordFields.split word (field.pairs.map (·.2)) 0 = field.pairs.map (·.1) :=
      WordFields.split_eq fit (by omega)
        (by simpa [number] using Nat.mod_eq_of_lt (WordFields.stack_lt fit))
    rw [BitFieldType.decode, loaded, WordFields.unpack, widths_type, found]
    simp [type, pairs, List.zipWith_map, List.zipWith_self, FieldValue.decode_stored]
  · simp at combined

end BitField
end BinaryLayout
