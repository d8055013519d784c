import BinaryLayout.Blob
import BinaryLayout.Proofs.WindowWrites

/-!
# Bits, bytes and words turn into each other

A machine shifts the bits of bytes and words out one by one, and packs digits by setting one bit
for every one. These steps are the conversions of bit sequences, and no conversion loses anything:
bytes come back from their bits, a sequence of bits comes back with the zeros that complete its
last byte, and a word comes back from its bits in every width that it fits. Digits that are no
bits are refused at the first of them. A blob is stored with its digits and its bytes side by
side, and these never tell different things.
-/

namespace BinaryLayout

namespace Bits

/-- The digits of a sequence are bits. -/
def Binary (digits : List UInt8) : Prop :=
  ∀ digit ∈ digits, digit = 0 ∨ digit = 1

/-- The lowest digits of a word, shifted out one by one. Zeros stand past the word. -/
def shiftOut (value : UInt64) (length : Nat) : List UInt8 :=
  (List.range length).map fun index =>
    if index < 64 then ((value >>> UInt64.ofNat index) &&& 1).toUInt8 else 0

/-- The digits of a word, as many as it has behind its leading zeros or, when it fits, as a width
    asks for. -/
def digitsOf (value : UInt64) (width : Option Nat) : Except BitsError (List UInt8) :=
  let needed := 64 - value.toBitVec.clz.toNat
  match width with
  | none => .ok (shiftOut value needed)
  | some width =>
      if needed ≤ width then .ok (shiftOut value width)
      else .error (.valueOverflow value width)

/-- The sequence holds a word: this is what its packed bytes are read as. -/
def Holds (bits : List Bool) (value : UInt64) : Prop :=
  ∃ bytes, Bytes.packDigits (toDigits bits) = .ok bytes ∧
    Window.read? bytes 0 (min bits.length 64) = some value

end Bits

namespace Bytes

/-- The digits of bytes, shifted out one by one, eight for every byte. -/
def shiftOut (bytes : List UInt8) : List UInt8 :=
  bytes.flatMap fun byte => (List.range 8).map fun index => (byte >>> UInt8.ofNat index) &&& 1

/-- Digits laid into bytes from a position on, one by one: a one sets its bit, and a zero leaves
    it. There is no answer where a byte is missing. -/
def lay? (bytes : List UInt8) (position : Nat) :
    List UInt8 → Option (Except BitsError (List UInt8))
  | [] => some (.ok bytes)
  | digit :: rest =>
      if digit = 0 then lay? bytes (position + 1) rest
      else if digit = 1 then
        (Window.assign? bytes position true).bind fun next => lay? next (position + 1) rest
      else some (.error (.notABit digit))

/-- Digits laid into as many zero bytes as they need. -/
def gather? (digits : List UInt8) : Option (Except BitsError (List UInt8)) :=
  lay? (List.replicate ((digits.length + 7) / 8) 0) 0 digits

end Bytes

/-- A blob as it is stored: its digits, and its bytes beside them. -/
structure StoredBlob where
  digits : List UInt8
  bytes : List UInt8
  deriving DecidableEq

namespace StoredBlob

/-- A blob made from digits. -/
def ofDigits (digits : List UInt8) : Option (Except LayoutError StoredBlob) :=
  (Bytes.gather? digits).map fun
    | .ok bytes => .ok ⟨digits, bytes⟩
    | .error (.notABit digit) => .error (.valueRange (toString digit.toNat) "bit")
    | .error cause => .error (.bitField "blob" cause)

/-- A blob made from bytes. -/
def ofBytes (bytes : List UInt8) : StoredBlob :=
  ⟨Bytes.shiftOut bytes, bytes⟩

/-- The blobs that can be made. -/
inductive Built : StoredBlob → Prop
  | ofDigits {digits : List UInt8} {stored : StoredBlob} :
      StoredBlob.ofDigits digits = some (.ok stored) → Built stored
  | ofBytes (bytes : List UInt8) : Built (StoredBlob.ofBytes bytes)
  | empty : Built ⟨[], []⟩

end StoredBlob

/-- A blob with its digits and bytes written out. -/
def Blob.stored (blob : Blob) : StoredBlob :=
  ⟨Bits.toDigits blob.bits, blob.bytes⟩

/-- What becomes of bytes that are turned into digits. -/
structure Bytes.Lossless (bytes : List UInt8) : Prop where
  /-- Step by step the digits of the bits are shifted out. -/
  shifted : shiftOut bytes = Bits.toDigits (unpack bytes)
  packed : packDigits (Bits.toDigits (unpack bytes)) = .ok bytes
  /-- The blob of the bytes is the blob of these digits. -/
  blob : Blob.ofDigits (Bits.toDigits (unpack bytes)) = .ok (Blob.ofBytes bytes)
  stored : StoredBlob.ofDigits (shiftOut bytes) = some (.ok (StoredBlob.ofBytes bytes))

/-- What becomes of digits that are packed into bytes. -/
structure Bits.Lossless (digits : List UInt8) : Prop where
  /-- Step by step they are packed alike, and no byte is ever missing. -/
  gathered : Bytes.gather? digits = some (Bytes.packDigits digits)
  unpacked : Binary digits → ∃ bytes, Bytes.packDigits digits = .ok bytes ∧
    ∃ count < 8, toDigits (Bytes.unpack bytes) = digits ++ List.replicate count 0
  refused : ¬ Binary digits → ∃ before digit after, digits = before ++ digit :: after ∧
    Binary before ∧ ¬ (digit = 0 ∨ digit = 1) ∧
      Bytes.packDigits digits = .error (.notABit digit)
  /-- A blob of the digits is stored with them and their bytes, and is refused as they are. -/
  stored : StoredBlob.ofDigits digits = some ((Blob.ofDigits digits).map Blob.stored)

/-- What becomes of a word that is expanded into bits. -/
structure Bits.LosslessWord (value : UInt64) : Prop where
  /-- Step by step the digits of these bits are shifted out. -/
  shifted : ∀ width, digitsOf value width = (expand value width).map toDigits
  granted : ∀ width, (∃ bits, expand value (some width) = .ok bits) ↔ value.toNat < 2 ^ width
  refused : ∀ width, ¬ value.toNat < 2 ^ width →
    expand value (some width) = .error (.valueOverflow value width)
  /-- The sequence of a width is the one of that length which holds the word, with zeros past the
      word. -/
  only : ∀ width bits, expand value (some width) = .ok bits ↔
    bits.length = width ∧ Holds bits value ∧ ∀ bit ∈ bits.drop 64, bit = false
  /-- Without a width it is the shortest of all sequences that hold the word. -/
  shortest : ∃ bits, expand value none = .ok bits ∧ expand value (some bits.length) = .ok bits ∧
    ∀ other, Holds other value → bits.length ≤ other.length

section Digits

variable {digits : List UInt8}

/-- A digit is refused when it is no bit. -/
theorem ofDigit_eq_error {digit : UInt8} {refusal : BitsError} :
    Bits.ofDigit digit = .error refusal ↔
      ¬ (digit = 0 ∨ digit = 1) ∧ refusal = .notABit digit := by
  by_cases zero : digit = 0
  · simp [Bits.ofDigit, zero]
  · by_cases one : digit = 1
    · simp [Bits.ofDigit, one]
    · simp [Bits.ofDigit, zero, one, eq_comm]

/-- Digits are refused at the first of them that is no bit. -/
theorem ofDigits_eq_error {refusal : BitsError} : Bits.ofDigits digits = .error refusal ↔
    ∃ before digit after, digits = before ++ digit :: after ∧ Bits.Binary before ∧
      ¬ (digit = 0 ∨ digit = 1) ∧ refusal = .notABit digit := by
  simp only [Bits.ofDigits, mapM_eq_error, ofDigit_eq_error, Table.ofDigit_eq_ok, exists_and_left,
    exists_eq, and_true]
  rfl

theorem packDigits_toDigits (bits : List Bool) :
    Bytes.packDigits (Bits.toDigits bits) = .ok (Bytes.pack bits) := by
  rw [Bytes.packDigits, TableItem.ofDigits_toDigits]
  rfl

/-- Digits are those of the bits that they are read as. -/
theorem toDigits_of_ofDigits {bits : List Bool} (read : Bits.ofDigits digits = .ok bits) :
    Bits.toDigits bits = digits := by
  obtain ⟨binary, rfl⟩ := Table.ofDigits_eq_ok.mp read
  rw [Bits.toDigits, List.map_map]
  refine (List.map_congr_left fun digit present => ?_).trans (List.map_id _)
  rcases binary digit present with rfl | rfl <;> rfl

/-- Digits that are bits are read as bits. -/
theorem exists_bits (binary : Bits.Binary digits) :
    ∃ bits, Bits.ofDigits digits = .ok bits ∧ Bits.toDigits bits = digits := by
  have read := Table.ofDigits_eq_ok.mpr ⟨binary, rfl⟩
  exact ⟨_, read, toDigits_of_ofDigits read⟩

end Digits

section Laying

variable {bits : List Bool} {position : Nat}

/-- A bit that is assigned in packed bytes is written over their bits. -/
theorem assign?_pack (whole : 8 ∣ bits.length) (inside : position < bits.length) (bit : Bool) :
    Window.assign? (Bytes.pack bits) position bit =
      some (Bytes.pack (Window.overwrite bits position [bit])) := by
  have room : position + [bit].length ≤ bits.length := inside
  have length : (Window.overwrite bits position [bit]).length = bits.length :=
    Window.length_overwrite room
  obtain ⟨next, assigned, -, changed⟩ := @Window.assign?_exact (Bytes.pack bits) position
    (by rw [Bytes.length_pack]; omega) bit
  rw [assigned, Option.some.injEq]
  apply Bytes.eq_of_bit?
  intro tested
  rw [changed, ← Bytes.getElem?_unpack, ← Bytes.getElem?_unpack, Bytes.unpack_pack_of_dvd whole,
    Bytes.unpack_pack_of_dvd (length ▸ whole), Window.getElem?_overwrite room]
  by_cases same : tested = position
  · subst same
    simp
  · have other : ¬ (position ≤ tested ∧ tested < position + [bit].length) := by
      rw [List.length_singleton]
      omega
    rw [if_neg same, if_neg other]

/-- A zero that is written over a zero changes nothing. -/
theorem overwrite_zero (clear : bits[position]? = some false) :
    Window.overwrite bits position [false] = bits := by
  obtain ⟨inside, here⟩ := List.getElem?_eq_some_iff.mp clear
  rw [Window.overwrite, List.append_assoc, List.singleton_append, List.length_singleton, ← here,
    List.cons_getElem_drop_succ, List.take_append_drop]

/-- Digits laid into bytes that are zero from there on are written over them, and are refused as
    their bits are.

    The induction is on the digits. A zero need not be written, since a zero stands in its place;
    a one is written, and the places behind it are still zero. -/
theorem lay?_pack {digits : List UInt8} (whole : 8 ∣ bits.length)
    (inside : position + digits.length ≤ bits.length)
    (clear : ∀ index, position ≤ index → index < bits.length → bits[index]? = some false) :
    Bytes.lay? (Bytes.pack bits) position digits =
      some ((Bits.ofDigits digits).map fun own =>
        Bytes.pack (Window.overwrite bits position own)) := by
  induction digits generalizing bits position with
  | nil => simp [Bytes.lay?, Bits.ofDigits, Window.overwrite, pure, Except.pure, Except.map]
  | cons digit rest ih =>
    simp only [List.length_cons] at inside
    have written (bit : Bool) (read : Bits.ofDigit digit = .ok bit) :
        Bytes.lay? (Bytes.pack (Window.overwrite bits position [bit])) (position + 1) rest =
          some ((Bits.ofDigits (digit :: rest)).map fun own =>
            Bytes.pack (Window.overwrite bits position own)) := by
      have room : position + [bit].length ≤ bits.length := by
        rw [List.length_singleton]
        omega
      have length := Window.length_overwrite room
      have others := @ih (Window.overwrite bits position [bit]) (position + 1) (length ▸ whole)
        (by rw [length]; omega) (by
          intro index behind below
          rw [length] at below
          rw [Window.getElem?_overwrite room, List.length_singleton, if_neg (by omega),
            clear index (by omega) below])
      rw [others, Table.ofDigits_cons read]
      cases Bits.ofDigits rest with
      | ok own =>
        simp only [Except.map, Window.overwrite_cons (show position < bits.length by omega)]
      | error refusal => rfl
    by_cases zero : digit = 0
    · have read : Bits.ofDigit digit = .ok false := if_pos zero
      have same := overwrite_zero (clear position le_rfl (by omega))
      rw [Bytes.lay?, if_pos zero, ← written false read, same]
    · by_cases one : digit = 1
      · have read : Bits.ofDigit digit = .ok true := (if_neg zero).trans (if_pos one)
        rw [Bytes.lay?, if_neg zero, if_pos one, assign?_pack whole (by omega), Option.bind_some,
          written true read]
      · have refused : Bits.ofDigits (digit :: rest) = .error (.notABit digit) :=
          ofDigits_eq_error.mpr
            ⟨[], digit, rest, rfl, by simp [Bits.Binary], by simp [zero, one], rfl⟩
        rw [Bytes.lay?, if_neg zero, if_neg one, refused]
        rfl

/-- Digits laid into zero bytes are packed, and no byte is ever missing. -/
theorem gather?_eq (digits : List UInt8) :
    Bytes.gather? digits = some (Bytes.packDigits digits) := by
  have zeros (count : Nat) :
      List.replicate count 0 = Bytes.pack (List.replicate (8 * count) false) := by
    rw [← Bytes.unpack_zeros, Bytes.pack_unpack]
  have laid := @lay?_pack (List.replicate (8 * ((digits.length + 7) / 8)) false) 0 digits
    (by simp) (by simp; omega) (fun index _ below => by
      rw [List.length_replicate] at below
      exact List.getElem?_replicate_of_lt below)
  rw [Bytes.gather?, zeros, laid, Option.some.injEq, Bytes.packDigits]
  cases read : Bits.ofDigits digits with
  | error refusal => rfl
  | ok own =>
    have length : own.length = digits.length := by
      rw [← toDigits_of_ofDigits read, Bits.toDigits, List.length_map]
    have patched : Window.overwrite (List.replicate (8 * ((digits.length + 7) / 8)) false) 0 own =
        Bits.extend own (8 * ((own.length + 7) / 8)) := by
      simp [Window.overwrite, Bits.extend, length]
    simp only [Except.map, patched]
    rw [← Bytes.unpack_pack, Bytes.pack_unpack]

end Laying

section Shifting

/-- The digits of a word are those of its bits. -/
theorem Bits.shiftOut_eq (value : UInt64) (length : Nat) :
    Bits.shiftOut value length = Bits.toDigits (Bits.ofWord length value) := by
  rw [shiftOut, toDigits, ofWord, ofNat, List.map_map]
  apply List.map_congr_left
  intro index _
  by_cases inWord : index < 64
  · rw [if_pos inWord, Window.shifted_and_one value inWord, Function.comp_apply]
    cases value.toNat.testBit index <;> rfl
  · rw [if_neg inWord, Function.comp_apply, Bits.testBit_past value (Nat.le_of_not_lt inWord)]
    rfl

/-- The digits of bytes are those of their bits. -/
theorem Bytes.shiftOut_eq (bytes : List UInt8) :
    Bytes.shiftOut bytes = Bits.toDigits (unpack bytes) := by
  have each (byte : UInt8) : (List.range 8).map (fun index => (byte >>> UInt8.ofNat index) &&& 1) =
      Bits.toDigits (bits byte) := by
    rw [Bits.toDigits, bits, Bits.ofNat, List.map_map]
    apply List.map_congr_left
    intro index inByte
    exact shifted_and_one byte (List.mem_range.mp inByte)
  simp only [shiftOut, each, unpack, Bits.toDigits, List.map_flatMap]

/-- The bits that a word requires are those behind its leading zeros. -/
theorem required_eq (value : UInt64) : Bits.required value = 64 - value.toBitVec.clz.toNat := by
  have above : value.toNat < 2 ^ (64 - value.toBitVec.clz.toNat) := BitVec.toNat_lt_two_pow_sub_clz
  apply Nat.le_antisymm
  · exact Bits.required_le_iff.mpr above
  · by_cases zero : value.toBitVec = 0#64
    · rw [BitVec.clz_eq_iff_eq_zero.mpr zero]
      exact Nat.zero_le _
    · have reached := BitVec.two_pow_sub_clz_le_toNat_of_ne_zero (by decide) zero
      have highest := Bits.required_le_iff.not.mpr (Nat.not_lt.mpr reached)
      omega

/-- Digits are shifted out of a word as its bits are expanded, and are refused alike. -/
theorem digitsOf_eq (value : UInt64) (width : Option Nat) :
    Bits.digitsOf value width = (Bits.expand value width).map Bits.toDigits := by
  cases width with
  | none => rw [Bits.digitsOf, ← required_eq, Bits.shiftOut_eq]; rfl
  | some width =>
    simp only [Bits.digitsOf, Bits.expand, Bits.fits, ← required_eq, decide_eq_true_eq,
      Bits.shiftOut_eq]
    split <;> rfl

end Shifting

section Words

variable {bits : List Bool} {value : UInt64} {width : Nat}

/-- A word of bits is below the power of two of their number. -/
theorem toNat_toWord_lt (bits : List Bool) : (Bits.toWord bits).toNat < 2 ^ bits.length := by
  have number : (Bits.toWord bits).toNat ≤ Bits.toNat (bits.take 64) := by
    rw [Bits.toWord, UInt64.toNat_ofNat']
    exact Nat.mod_le ..
  have short : (bits.take 64).length ≤ bits.length := (List.take_sublist ..).length_le
  exact (number.trans_lt (Bits.toNat_lt _)).trans_le (Nat.pow_le_pow_right (by decide) short)

/-- A sequence holds the word of its first 64 bits. -/
theorem holds_iff : Bits.Holds bits value ↔ Bits.toWord bits = value := by
  have lies : Window.inside (Bytes.pack bits) 0 (min (min bits.length 64) 64) = true := by
    simp only [Window.inside, Bytes.length_pack, Bool.or_eq_true, decide_eq_true_eq]
    omega
  have read : Window.read? (Bytes.pack bits) 0 (min bits.length 64) = some (Bits.toWord bits) := by
    have firsts : ((Bytes.unpack (Bytes.pack bits)).drop 0).take (min (min bits.length 64) 64) =
        bits.take (min (min bits.length 64) 64) := by
      rw [Bytes.unpack_pack, List.drop_zero, Bits.extend, List.take_append_of_le_length (by omega)]
    have same : (bits.take (min (min bits.length 64) 64)).take 64 = bits.take 64 := by
      rw [List.take_take, List.take_eq_take_iff]
      omega
    rw [Window.read?_eq_of_inside lies, firsts, Bits.toWord, same]
    rfl
  simp only [Bits.Holds, packDigits_toDigits, Except.ok.injEq, exists_eq_left', read,
    Option.some.injEq]

/-- A word is expanded to a width exactly as the sequence of that length which holds it and has
    no bit past the word. -/
theorem expand_eq_ok_iff : Bits.expand value (some width) = .ok bits ↔
    bits.length = width ∧ Bits.Holds bits value ∧ ∀ bit ∈ bits.drop 64, bit = false := by
  rw [holds_iff]
  constructor
  · intro expanded
    simp only [Bits.expand] at expanded
    split at expanded
    · rename_i fits
      obtain rfl := Except.ok.inj expanded
      refine ⟨Bits.length_ofNat .., Bits.toWord_ofWord fits, fun bit present => ?_⟩
      obtain ⟨index, found⟩ := List.mem_iff_getElem?.mp present
      rw [List.getElem?_drop, Bits.ofWord, Bits.ofNat, List.getElem?_map] at found
      obtain ⟨position, listed, rfl⟩ := Option.map_eq_some_iff.mp found
      obtain ⟨inside, rfl⟩ := List.getElem?_eq_some_iff.mp listed
      rw [List.getElem_range]
      exact Bits.testBit_past value (Nat.le_add_right ..)
    · contradiction
  · rintro ⟨rfl, rfl, past⟩
    have fits : Bits.fits (Bits.toWord bits) bits.length = true :=
      Bits.fits_iff.mpr (toNat_toWord_lt bits)
    rw [Bits.expand, if_pos fits, Except.ok.injEq]
    refine List.ext_getElem (by simp [Bits.ofWord]) fun index inside inBits => ?_
    simp only [Bits.ofWord, Bits.ofNat, List.getElem_map, List.getElem_range]
    by_cases inWord : index < 64
    · rw [Bits.testBit_toWord _ inWord, List.getElem?_eq_getElem inBits]
      rfl
    · have high : 64 ≤ index := Nat.le_of_not_lt inWord
      have present : bits[index] ∈ bits.drop 64 := by
        refine List.mem_iff_getElem?.mpr ⟨index - 64, ?_⟩
        rw [List.getElem?_drop, Nat.add_sub_cancel' high]
        exact List.getElem?_eq_getElem inBits
      rw [Bits.testBit_past _ high, past _ present]

end Words

section Blobs

variable {stored : StoredBlob}

/-- A blob is made from digits as it is stored, and digits are refused alike. -/
theorem StoredBlob.ofDigits_eq (digits : List UInt8) :
    ofDigits digits = some ((Blob.ofDigits digits).map Blob.stored) := by
  rw [ofDigits, gather?_eq, Option.map_some, Option.some.injEq, Bytes.packDigits, Blob.ofDigits]
  cases read : Bits.ofDigits digits with
  | ok bits =>
    simp only [Except.map, Blob.stored, Blob.bytes, toDigits_of_ofDigits read]
  | error refusal =>
    obtain ⟨before, digit, after, -, -, -, rfl⟩ := ofDigits_eq_error.mp read
    rfl

/-- A blob is made from bytes as it is stored. -/
theorem StoredBlob.ofBytes_eq (bytes : List UInt8) :
    ofBytes bytes = (Blob.ofBytes bytes).stored := by
  rw [ofBytes, Bytes.shiftOut_eq, Blob.stored, Blob.bytes, Blob.ofBytes, Bytes.pack_unpack]

/-- The blobs that can be made are the blobs with their digits and bytes written out. -/
theorem StoredBlob.built_iff_exists : stored.Built ↔ ∃ blob : Blob, stored = blob.stored := by
  constructor
  · rintro (made | bytes | _)
    · rw [ofDigits_eq, Option.some.injEq, map_eq_ok] at made
      obtain ⟨blob, -, rfl⟩ := made
      exact ⟨blob, rfl⟩
    · exact ⟨_, ofBytes_eq bytes⟩
    · exact ⟨⟨[]⟩, rfl⟩
  · rintro ⟨blob, rfl⟩
    refine @Built.ofDigits (Bits.toDigits blob.bits) _ ?_
    rw [ofDigits_eq, Blob.ofDigits, TableItem.ofDigits_toDigits]
    rfl

/-- A blob can be made exactly when its bytes are its digits packed. -/
theorem StoredBlob.built_iff :
    stored.Built ↔ Bytes.packDigits stored.digits = .ok stored.bytes := by
  rw [built_iff_exists]
  constructor
  · rintro ⟨blob, rfl⟩
    exact packDigits_toDigits blob.bits
  · intro packed
    obtain ⟨bits, read, bytes⟩ := map_eq_ok.mp packed
    obtain ⟨digits, stored⟩ := stored
    refine ⟨⟨bits⟩, ?_⟩
    rw [Blob.stored, Blob.bytes, toDigits_of_ofDigits read, bytes]

end Blobs

/-- Bytes are packed again from their bits. -/
theorem Bytes.lossless (bytes : List UInt8) : Bytes.Lossless bytes := by
  have blob : Blob.ofDigits (Bits.toDigits (unpack bytes)) = .ok (Blob.ofBytes bytes) := by
    rw [Blob.ofDigits, TableItem.ofDigits_toDigits]
    rfl
  constructor
  case shifted => exact shiftOut_eq bytes
  case packed => rw [packDigits_toDigits, pack_unpack]
  case blob => exact blob
  case stored =>
    rw [shiftOut_eq, StoredBlob.ofDigits_eq, blob, StoredBlob.ofBytes_eq]
    rfl

/-- Digits are unpacked again from their bytes, with zeros up to the last whole byte. -/
theorem Bits.lossless (digits : List UInt8) : Bits.Lossless digits := by
  constructor
  case gathered => exact gather?_eq digits
  case unpacked =>
    intro binary
    obtain ⟨bits, read, own⟩ := exists_bits binary
    refine ⟨Bytes.pack bits, by rw [Bytes.packDigits, read]; rfl,
      8 * ((bits.length + 7) / 8) - bits.length, by omega, ?_⟩
    rw [Bytes.unpack_pack, extend, toDigits, List.map_append, List.map_replicate, ← own]
    rfl
  case refused =>
    intro stray
    cases read : ofDigits digits with
    | ok bits => exact absurd (Table.ofDigits_eq_ok.mp read).1 stray
    | error refusal =>
      obtain ⟨before, digit, after, split, binary, other, rfl⟩ := ofDigits_eq_error.mp read
      exact ⟨before, digit, after, split, binary, other, by rw [Bytes.packDigits, read]; rfl⟩
  case stored => exact StoredBlob.ofDigits_eq digits

/-- A word is read again from its bits, in every width that it fits. -/
theorem Bits.losslessWord (value : UInt64) : Bits.LosslessWord value := by
  constructor
  case shifted => exact digitsOf_eq value
  case granted =>
    intro width
    rw [← fits_iff, expand]
    by_cases fits : fits value width = true <;> simp [fits]
  case refused =>
    intro width above
    rw [expand, if_neg (fits_iff.not.mpr above)]
  case only => exact fun width bits => expand_eq_ok_iff
  case shortest =>
    refine ⟨ofWord (required value) value, rfl, ?_, fun other holds => ?_⟩
    · have fits : fits value (required value) = true := fits_iff.mpr (required_le_iff.mp le_rfl)
      rw [ofWord, length_ofNat, expand, if_pos fits]
      rfl
    · obtain rfl := holds_iff.mp holds
      rw [ofWord, length_ofNat, required_le_iff]
      exact toNat_toWord_lt other

/-- Bytes, digits and words turn into each other without loss, digits that are no bits are refused
    at the first of them, and a blob is the same whether it is made of bytes or of their digits:
    its bytes are always its digits packed. -/
theorem conversions_lossless :
    (∀ bytes, Bytes.Lossless bytes) ∧ (∀ digits, Bits.Lossless digits) ∧
      (∀ value, Bits.LosslessWord value) ∧
      (∀ blob : Blob, Bytes.packDigits (Bits.toDigits blob.bits) = .ok blob.bytes) ∧
      ∀ stored : StoredBlob,
        stored.Built ↔ Bytes.packDigits stored.digits = .ok stored.bytes :=
  ⟨Bytes.lossless, Bits.lossless, Bits.losslessWord, fun blob => packDigits_toDigits blob.bits,
    fun _ => StoredBlob.built_iff⟩

end BinaryLayout
