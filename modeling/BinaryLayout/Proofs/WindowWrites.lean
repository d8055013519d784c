import BinaryLayout.Proofs.Buffers
import BinaryLayout.Proofs.CheckedReading

/-!
# Writing into a window

A word is written into a window as a machine does it: the word is masked, and for every position
of the window one bit of one byte is set or cleared. Each of these steps changes its own bit and
no other, so the window ends up with the lowest bits of the word and everything around it as it
was. What is read from the window is the word, cut to the window, and what is read elsewhere is
what was read before.
-/

namespace BinaryLayout

namespace Bytes

/-- The bit at a position of a byte sequence. There is none where the byte is missing. -/
def bit? (bytes : List UInt8) (position : Nat) : Option Bool :=
  bytes[position / 8]?.map fun byte => byte.toNat.testBit (position % 8)

variable {bytes : List UInt8} {position : Nat}

theorem getElem?_unpack : (unpack bytes)[position]? = bit? bytes position :=
  unpack_getElem? bytes position

/-- Byte sequences are told apart by their bits. -/
theorem eq_of_bit? {first second : List UInt8}
    (same : ∀ position, bit? first position = bit? second position) : first = second := by
  have bits : unpack first = unpack second := by
    apply List.ext_getElem?
    intro position
    rw [getElem?_unpack, getElem?_unpack, same]
  calc first = pack (unpack first) := (pack_unpack first).symm
    _ = pack (unpack second) := by rw [bits]
    _ = second := pack_unpack second

end Bytes

namespace Window

/-- A byte with one of its bits set or cleared. -/
def assign (byte : UInt8) (shift : Nat) (bit : Bool) : UInt8 :=
  if bit then byte ||| 1 <<< UInt8.ofNat shift else byte &&& ~~~(1 <<< UInt8.ofNat shift)

/-- Set or clear the bit at a position. There is no answer where the byte is missing. -/
def assign? (bytes : List UInt8) (position : Nat) (bit : Bool) : Option (List UInt8) :=
  bytes[position / 8]?.map fun byte => bytes.set (position / 8) (assign byte (position % 8) bit)

/-- The lowest bits of a word written one by one, the lowest first. Zeros stand for those that
    the word does not have. -/
def scatter? (bytes : List UInt8) (offset : Nat) (value : UInt64) :
    (count : Nat) → Option (List UInt8)
  | 0 => some bytes
  | count + 1 => do
      let written ← scatter? bytes offset value count
      let position ← address? (offset + count)
      assign? written position (count < 64 && (value >>> UInt64.ofNat count) &&& 1 = 1)

/-- A window written step by step, from the word cut to its width. -/
def store? (bytes : List UInt8) (offset width : Nat) (value : UInt64) : Option (List UInt8) :=
  scatter? bytes offset (value &&& Bits.lowMask width) width

/-- A window read step by step, as far as a word has bits. -/
def load? (bytes : List UInt8) (offset width : Nat) : Option UInt64 :=
  collect? bytes offset (min width 64)

/-- What bytes hold once a word has been written into one of their windows. -/
structure WritesWithin (bytes : List UInt8) (offset width : Nat) (value : UInt64)
    (written : List UInt8) : Prop where
  /-- Step by step the same bytes are written, as far as positions are numbers of the machine. -/
  stored : offset + width ≤ addressSpace → store? bytes offset width value = some written
  length : written.length = bytes.length
  low : ∀ index < min width 64,
    Bytes.bit? written (offset + index) = some (value.toNat.testBit index)
  high : ∀ index, 64 ≤ index → index < width → Bytes.bit? written (offset + index) = some false
  others : ∀ position, position < offset ∨ offset + width ≤ position →
    Bytes.bit? written position = Bytes.bit? bytes position
  /-- The window is read back as the word, cut to its width. -/
  back : ∃ word, read? written offset width = some word ∧ word.toNat = value.toNat % 2 ^ width
  /-- A window that shares no bit with it is read as before. -/
  apart : ∀ start count,
    (∀ index < min count 64, start + index < offset ∨ offset + width ≤ start + index) →
      read? written start count = read? bytes start count
  /-- Step by step the same words are read. -/
  loaded : ∀ start count, start + min count 64 ≤ addressSpace →
    load? written start count = read? written start count

section Steps

variable {bytes : List UInt8}

/-- The mask of a bit has that bit alone. -/
theorem toBitVec_mask {shift : Nat} (inByte : shift < 8) :
    (1 <<< UInt8.ofNat shift : UInt8).toBitVec = BitVec.twoPow 8 shift := by
  have amount : (BitVec.ofNat 8 shift % 8).toNat = shift := by
    simp [BitVec.toNat_umod]
    omega
  rw [UInt8.toBitVec_shiftLeft, BitVec.twoPow_eq, BitVec.shiftLeft_eq', UInt8.toBitVec_ofNat',
    amount]
  rfl

/-- A byte keeps every bit but the one that is assigned. -/
theorem testBit_assign (byte : UInt8) {shift : Nat} (inByte : shift < 8) (bit : Bool)
    (index : Nat) : (assign byte shift bit).toNat.testBit index =
      if index = shift then bit else byte.toNat.testBit index := by
  have bits (byte : UInt8) : byte.toNat.testBit index = byte.toBitVec.getLsbD index :=
    BitVec.testBit_toNat _
  rw [bits, bits]
  by_cases low : index < 8
  · by_cases same : index = shift
    · subst same
      cases bit <;> simp [assign, toBitVec_mask inByte, low]
    · cases bit <;> simp [assign, toBitVec_mask inByte, low, same]
  · have past : index ≠ shift := by omega
    rw [if_neg past, BitVec.getLsbD_of_ge _ _ (by omega), BitVec.getLsbD_of_ge _ _ (by omega)]

/-- An assignment changes exactly the bit at its position. The cases are another byte, and
    another bit of the same byte. -/
theorem assign?_exact {position : Nat} (stored : position < 8 * bytes.length) (bit : Bool) :
    ∃ next, assign? bytes position bit = some next ∧ next.length = bytes.length ∧
      ∀ tested, Bytes.bit? next tested =
        if tested = position then some bit else Bytes.bit? bytes tested := by
  have inside : position / 8 < bytes.length := by omega
  have found : bytes[position / 8]? = some bytes[position / 8] := List.getElem?_eq_getElem inside
  refine ⟨_, by rw [assign?, found, Option.map_some], by simp, fun tested => ?_⟩
  by_cases sameByte : position / 8 = tested / 8
  · have sameBit : tested % 8 = position % 8 ↔ tested = position := by omega
    rw [Bytes.bit?, ← sameByte, List.getElem?_set_self inside, Option.map_some,
      testBit_assign _ (Nat.mod_lt _ (by decide)), Bytes.bit?, ← sameByte, found, Option.map_some]
    simp only [sameBit]
    split <;> rfl
  · have distinct : tested ≠ position := by
      rintro rfl
      exact sameByte rfl
    rw [Bytes.bit?, List.getElem?_set_ne sameByte, if_neg distinct, Bytes.bit?]

/-- The bits of a word below a width are those of the word cut to that width. -/
theorem testBit_masked (value : UInt64) {width index : Nat} (below : index < width) :
    (value &&& Bits.lowMask width).toNat.testBit index = value.toNat.testBit index := by
  have mask : (Bits.lowMask width).toNat = 2 ^ min width 64 - 1 := by
    rcases Nat.le_total width 64 with narrow | wide
    · rw [Nat.min_eq_left narrow, Bits.toNat_lowMask narrow]
    · rw [Nat.min_eq_right wide, Bits.lowMask, if_pos wide]
      rfl
  rw [UInt64.toNat_and, Nat.testBit_and, mask, Nat.testBit_two_pow_sub_one]
  by_cases inWord : index < 64
  · rw [decide_eq_true (Nat.lt_min.mpr ⟨below, inWord⟩), Bool.and_true]
  · rw [Bits.testBit_past value (Nat.le_of_not_lt inWord), Bool.false_and]

/-- Shifted out and masked, a bit of a word is all that is left of it. -/
theorem shifted_and_one (value : UInt64) {index : Nat} (inWord : index < 64) :
    (value >>> UInt64.ofNat index) &&& 1 = if value.toNat.testBit index then 1 else 0 := by
  have amount : (UInt64.ofNat index).toNat % 64 = index := by
    rw [UInt64.toNat_ofNat', Nat.mod_mod_of_dvd _ (by decide)]
    exact Nat.mod_eq_of_lt inWord
  have lone : ((value >>> UInt64.ofNat index) &&& 1).toNat = (value.toNat.testBit index).toNat := by
    rw [UInt64.toNat_and, UInt64.toNat_shiftRight, amount, Nat.shiftRight_eq_div_pow,
      Nat.toNat_testBit]
    exact Nat.and_one_is_mod _
  rw [← UInt64.toNat_inj, lone]
  cases value.toNat.testBit index <;> rfl

/-- The bit that a step assigns is the bit of the word, and past the word it is a zero. -/
theorem assigned_eq_testBit (value : UInt64) (index : Nat) :
    (decide (index < 64) && decide ((value >>> UInt64.ofNat index) &&& 1 = 1)) =
      value.toNat.testBit index := by
  by_cases inWord : index < 64
  · rw [shifted_and_one value inWord, decide_eq_true inWord, Bool.true_and]
    cases value.toNat.testBit index <;> rfl
  · rw [Bits.testBit_past value (Nat.le_of_not_lt inWord), decide_eq_false inWord, Bool.false_and]

/-- Bits written one by one stand in their places, and all others are kept.

    The induction is on their count. The bit that comes last is assigned to bytes in which the
    bits before it stand already, and these are among those that its assignment keeps. -/
theorem scatter?_exact {offset count : Nat} {value : UInt64}
    (room : offset + count ≤ 8 * bytes.length) (small : offset + count ≤ addressSpace) :
    ∃ written, scatter? bytes offset value count = some written ∧
      written.length = bytes.length ∧ ∀ tested, Bytes.bit? written tested =
        if offset ≤ tested ∧ tested < offset + count then
          some (value.toNat.testBit (tested - offset))
        else Bytes.bit? bytes tested := by
  induction count with
  | zero =>
    refine ⟨bytes, rfl, rfl, fun tested => ?_⟩
    rw [if_neg (by omega)]
  | succ count ih =>
    obtain ⟨written, before, length, bits⟩ := ih (by omega) (by omega)
    obtain ⟨next, last, same, changed⟩ := @assign?_exact written (offset + count)
      (by rw [length]; omega) (value.toNat.testBit count)
    refine ⟨next, ?_, same.trans length, fun tested => ?_⟩
    · rw [scatter?, before, address?_eq (by omega), assigned_eq_testBit]
      exact last
    · rw [changed, bits]
      by_cases here : tested = offset + count
      · rw [if_pos here, if_pos (by omega), here, Nat.add_sub_cancel_left]
      · have reached : offset ≤ tested ∧ tested < offset + (count + 1) ↔
            offset ≤ tested ∧ tested < offset + count := by omega
        simp only [if_neg here, reached]

/-- Writing bits keeps the number of bytes. -/
theorem length_scatter? {offset count : Nat} {value : UInt64} {written : List UInt8}
    (found : scatter? bytes offset value count = some written) :
    written.length = bytes.length := by
  induction count generalizing written with
  | zero =>
    obtain rfl : bytes = written := Option.some.inj found
    rfl
  | succ count ih =>
    simp only [scatter?, Option.bind_eq_bind, Option.bind_eq_some_iff] at found
    obtain ⟨earlier, before, position, -, last⟩ := found
    obtain ⟨byte, -, rfl⟩ := Option.map_eq_some_iff.mp last
    rw [List.length_set, ih before]

/-- A window that leaves the bytes is not written: the byte of its last bit is missing. -/
theorem store?_outside {offset width : Nat} (value : UInt64) (positive : 0 < width)
    (outside : 8 * bytes.length < offset + width) : store? bytes offset width value = none := by
  obtain ⟨count, rfl⟩ := Nat.exists_eq_succ_of_ne_zero positive.ne'
  rw [store?, Option.eq_none_iff_forall_ne_some]
  intro written found
  simp only [scatter?, Option.bind_eq_bind, Option.bind_eq_some_iff] at found
  obtain ⟨earlier, before, position, addressed, last⟩ := found
  obtain ⟨byte, present, -⟩ := Option.map_eq_some_iff.mp last
  obtain ⟨-, rfl⟩ := address?_eq_some.mp addressed
  have within : (offset + count) / 8 < earlier.length :=
    (List.getElem?_eq_some_iff.mp present).choose
  rw [length_scatter? before] at within
  omega

/-- A window that leaves the bytes is not read either. -/
theorem collect?_outside {offset count : Nat} (positive : 0 < count)
    (outside : 8 * bytes.length < offset + count) : collect? bytes offset count = none := by
  obtain ⟨count, rfl⟩ := Nat.exists_eq_succ_of_ne_zero positive.ne'
  rw [Option.eq_none_iff_forall_ne_some]
  intro word found
  simp only [collect?, placed?, Option.bind_eq_bind, Option.bind_eq_some_iff] at found
  obtain ⟨low, -, position, addressed, bit, last, -⟩ := found
  obtain ⟨byte, present, -⟩ := Option.map_eq_some_iff.mp last
  obtain ⟨-, rfl⟩ := address?_eq_some.mp addressed
  have within : (offset + count) / 8 < bytes.length :=
    (List.getElem?_eq_some_iff.mp present).choose
  omega

end Steps

section Windows

variable {bytes written : List UInt8} {offset width : Nat} {value : UInt64}

/-- Where a patch lies it is found, and everywhere else the sequence is. -/
theorem getElem?_overwrite {target patch : List Bool}
    (room : offset + patch.length ≤ target.length) (position : Nat) :
    (overwrite target offset patch)[position]? =
      if offset ≤ position ∧ position < offset + patch.length then patch[position - offset]?
      else target[position]? := by
  have front : (target.take offset).length = offset := by
    rw [List.length_take]
    omega
  rw [overwrite, List.append_assoc, List.getElem?_append, front]
  rcases Nat.lt_or_ge position offset with before | behind
  · rw [if_pos before, if_neg (by omega), List.getElem?_take_of_lt before]
  · rw [if_neg (by omega), List.getElem?_append]
    by_cases own : position < offset + patch.length
    · rw [if_pos (by omega), if_pos ⟨behind, own⟩]
    · rw [if_neg (by omega), if_neg (by omega), List.getElem?_drop]
      congr 1
      omega

/-- A window in the bytes is written. It then holds the lowest bits of the word, and all other
    bits are kept. -/
theorem write?_exact (room : offset + width ≤ 8 * bytes.length) (value : UInt64) :
    ∃ written, write? bytes offset width value = some written ∧
      written.length = bytes.length ∧ ∀ tested, Bytes.bit? written tested =
        if offset ≤ tested ∧ tested < offset + width then
          some (value.toNat.testBit (tested - offset))
        else Bytes.bit? bytes tested := by
  have lies : inside bytes offset width = true := by
    simp only [inside, Bool.or_eq_true, decide_eq_true_eq]
    omega
  have patch : (Bits.ofWord width value).length = width := Bits.length_ofNat ..
  have bits : (Bytes.unpack bytes).length = 8 * bytes.length := Bytes.length_unpack bytes
  have length : (overwrite (Bytes.unpack bytes) offset (Bits.ofWord width value)).length =
      8 * bytes.length := by
    rw [length_overwrite (by rw [patch, bits]; exact room), bits]
  refine ⟨_, if_pos lies, ?_, fun tested => ?_⟩
  · rw [Bytes.length_pack, length]
    omega
  · rw [← Bytes.getElem?_unpack, Bytes.unpack_pack_of_dvd (length ▸ Nat.dvd_mul_right ..),
      getElem?_overwrite (by rw [patch, bits]; exact room), patch, Bytes.getElem?_unpack]
    split
    · rename_i own
      rw [Bits.ofWord, Bits.ofNat, List.getElem?_map, List.getElem?_range (by omega)]
      rfl
    · rfl

/-- Step by step a window is written as at once, and not at all if it leaves the bytes. -/
theorem store?_eq (small : offset + width ≤ addressSpace) :
    store? bytes offset width value = write? bytes offset width value := by
  by_cases room : offset + width ≤ 8 * bytes.length
  · obtain ⟨stored, found, -, bits⟩ :=
      @scatter?_exact bytes offset width (value &&& Bits.lowMask width) room small
    obtain ⟨written, wrote, -, same⟩ := write?_exact room value
    rw [store?, found, wrote, Option.some.injEq]
    apply Bytes.eq_of_bit?
    intro tested
    rw [bits, same]
    split
    · rw [testBit_masked value (by omega)]
    · rfl
  · rcases Nat.eq_zero_or_pos width with rfl | positive
    · have kept : overwrite (Bytes.unpack bytes) offset (Bits.ofWord 0 value) =
          Bytes.unpack bytes := by simp [overwrite, Bits.ofWord, Bits.ofNat]
      rw [write?, if_pos (by simp [inside]), kept, Bytes.pack_unpack]
      rfl
    · rw [store?_outside value positive (by omega), write?, if_neg]
      simp only [inside, Bool.or_eq_true, decide_eq_true_eq]
      omega

/-- A window is read as the word of its first 64 bits when these lie in the bytes. -/
theorem read?_eq_of_inside (lies : inside bytes offset (min width 64) = true) :
    read? bytes offset width =
      some (Bits.toWord (((Bytes.unpack bytes).drop offset).take (min width 64))) := by
  rcases Nat.eq_zero_or_pos (min width 64) with empty | positive
  · rw [read?, if_pos lies, empty]
    rfl
  · have room : offset + min width 64 ≤ 8 * bytes.length := by
      simp only [inside, Bool.or_eq_true, decide_eq_true_eq] at lies
      omega
    have narrow : read? bytes offset width = read? bytes offset (min width 64) := by
      rw [read?, read?, Nat.min_assoc, Nat.min_self]
    rw [narrow, read?_eq room]

/-- Step by step a window is read as at once, and not at all if it leaves the bytes. -/
theorem load?_eq (small : offset + min width 64 ≤ addressSpace) :
    load? bytes offset width = read? bytes offset width := by
  by_cases lies : inside bytes offset (min width 64) = true
  · rw [read?_eq_of_inside lies, load?]
    rcases Nat.eq_zero_or_pos (min width 64) with empty | positive
    · rw [empty]
      rfl
    · simp only [inside, Bool.or_eq_true, decide_eq_true_eq] at lies
      exact collect?_eq (by omega) (Nat.min_le_right ..) small
  · rw [read?, if_neg lies, load?]
    simp only [inside, Bool.or_eq_true, decide_eq_true_eq] at lies
    exact collect?_outside (by omega) (by omega)

/-- The bits of a word that is read from a window, one by one. -/
theorem testBit_of_read? {word : UInt64} (found : read? bytes offset width = some word)
    {index : Nat} (low : index < 64) : word.toNat.testBit index =
      (decide (index < width) && (Bytes.bit? bytes (offset + index)).getD false) := by
  by_cases lies : inside bytes offset (min width 64) = true
  · rw [read?_eq_of_inside lies] at found
    obtain rfl := Option.some.inj found
    rw [Bits.testBit_toWord _ low, List.getElem?_take, List.getElem?_drop, Bytes.getElem?_unpack]
    by_cases inWindow : index < width
    · rw [if_pos (Nat.lt_min.mpr ⟨inWindow, low⟩), decide_eq_true inWindow, Bool.true_and]
    · rw [if_neg (by omega), decide_eq_false inWindow, Bool.false_and]
      rfl
  · rw [read?, if_neg lies] at found
    contradiction

/-- Bytes that agree on the bits of a window are read alike there. -/
theorem read?_congr {others : List UInt8} (length : others.length = bytes.length)
    (same : ∀ index < min width 64,
      Bytes.bit? others (offset + index) = Bytes.bit? bytes (offset + index)) :
    read? others offset width = read? bytes offset width := by
  have alike : inside others offset (min width 64) = inside bytes offset (min width 64) := by
    rw [inside, inside, length]
  by_cases lies : inside bytes offset (min width 64) = true
  · have first := read?_eq_of_inside (alike.trans lies)
    have second := read?_eq_of_inside lies
    rw [first, second, Option.some.injEq, Bits.eq_iff_testBit]
    intro index low
    rw [testBit_of_read? first low, testBit_of_read? second low]
    by_cases inWindow : index < width
    · rw [same index (Nat.lt_min.mpr ⟨inWindow, low⟩)]
    · rw [decide_eq_false inWindow, Bool.false_and, Bool.false_and]
  · rw [read?, if_neg (alike ▸ lies), read?, if_neg lies]

/-- A window in the bytes is written and read back, and nothing else is touched. -/
theorem write_local (room : offset + width ≤ 8 * bytes.length) (value : UInt64) :
    ∃ written, write? bytes offset width value = some written ∧
      WritesWithin bytes offset width value written := by
  obtain ⟨written, wrote, length, bits⟩ := write?_exact room value
  have own (index : Nat) (inside : index < width) :
      Bytes.bit? written (offset + index) = some (value.toNat.testBit index) := by
    rw [bits, if_pos (by omega), Nat.add_sub_cancel_left]
  have others (position : Nat) (outside : position < offset ∨ offset + width ≤ position) :
      Bytes.bit? written position = Bytes.bit? bytes position := by
    rw [bits, if_neg (by omega)]
  refine ⟨written, wrote, ?_⟩
  constructor
  case stored => exact fun small => (store?_eq small).trans wrote
  case length => exact length
  case low => exact fun index inside => own index (Nat.lt_min.mp inside).1
  case high => exact fun index high inside => by rw [own index inside, Bits.testBit_past value high]
  case others => exact others
  case back =>
    have lies : inside written offset (min width 64) = true := by
      simp only [inside, length, Bool.or_eq_true, decide_eq_true_eq]
      omega
    have read := read?_eq_of_inside lies
    refine ⟨_, read, Nat.eq_of_testBit_eq fun index => ?_⟩
    rw [Nat.testBit_mod_two_pow]
    by_cases low : index < 64
    · rw [testBit_of_read? read low]
      by_cases inWindow : index < width
      · rw [own index inWindow]
        rfl
      · rw [decide_eq_false inWindow, Bool.false_and, Bool.false_and]
    · have high : 64 ≤ index := Nat.le_of_not_lt low
      rw [Bits.testBit_past _ high, Bits.testBit_past value high, Bool.and_false]
  case apart =>
    exact fun start count apart =>
      read?_congr length fun index inside => others (start + index) (apart index inside)
  case loaded => exact fun start count small => load?_eq small

/-- A window of seventy bits, which starts and ends inside bytes full of ones and zeros: the word
    stands in it with six zeros behind, and the bits on both sides are kept. -/
theorem wideWindow_local :
    5 + 70 ≤ 8 * (List.replicate 10 (0xA5 : UInt8)).length ∧
      write? (List.replicate 10 0xA5) 5 70 0x8000000000000001 =
        some [0x25, 0, 0, 0, 0, 0, 0, 0, 0x10, 0xA0] ∧
      WritesWithin (List.replicate 10 0xA5) 5 70 0x8000000000000001
        [0x25, 0, 0, 0, 0, 0, 0, 0, 0x10, 0xA0] := by
  have room : 5 + 70 ≤ 8 * (List.replicate 10 (0xA5 : UInt8)).length := by decide
  have computed : write? (List.replicate 10 0xA5) 5 70 0x8000000000000001 =
      some [0x25, 0, 0, 0, 0, 0, 0, 0, 0x10, 0xA0] := by decide +kernel
  obtain ⟨written, wrote, within⟩ := write_local room 0x8000000000000001
  obtain rfl := Option.some.inj (wrote.symm.trans computed)
  exact ⟨room, computed, within⟩

end Windows

end Window
end BinaryLayout
