import BinaryLayout.Proofs.Words

/-!
# Pushing the fields of a word and packing it

Fields are pushed one after another, and a refused push changes nothing. Whether a field is
admitted is judged by the sum of the widths, and the program stops where that sum is no 32-bit
word. So every word that is reached has room for its fields: packing and unpacking undo each
other, and no word is shifted by its width or more.
-/

namespace BinaryLayout
namespace WordFields

section Attempts

/-- An attempt to add a field. One that is refused, or at which the program stops, leaves the
    fields as they were. -/
def attempt (fields : WordFields) (width : UInt32) : WordFields :=
  match fields.push width with
  | .ok (next, _) => next
  | .error _ => fields

/-- A history of attempts. -/
def attemptAll (fields : WordFields) (widths : List UInt32) : WordFields :=
  widths.foldl attempt fields

/-- A push is answered as exact sums demand: with the bits used before if there is room, and
    otherwise with a refusal that names them. -/
def Exact (fields : WordFields) (width : UInt32) : Prop :=
  fields.push width =
    if fields.used + width.toNat ≤ fields.total.bits then
      .ok (⟨fields.total, fields.widths ++ [width]⟩, fields.used)
    else .error (.fieldOverflow width.toNat fields.used fields.total.bits)

/-- An attempt adds the field, changes nothing, or stops the program. -/
theorem attempt_cases (fields : WordFields) (width : UInt32) :
    (fields.used + width.toNat ≤ fields.total.bits ∧
        fields.push width = .ok (⟨fields.total, fields.widths ++ [width]⟩, fields.used) ∧
        fields.attempt width = ⟨fields.total, fields.widths ++ [width]⟩) ∨
      (fields.total.bits < fields.used + width.toNat ∧
        fields.used + width.toNat < UInt32.size ∧
        fields.push width = .error (.fieldOverflow width.toNat fields.used fields.total.bits) ∧
        fields.attempt width = fields) ∨
      (UInt32.size ≤ fields.used + width.toNat ∧ fields.push width = .error .overflow ∧
        fields.attempt width = fields) := by
  have word := fields.total.bits_le
  have small : 64 < UInt32.size := by decide
  rcases Nat.lt_or_ge (fields.used + width.toNat) UInt32.size with counted | past
  · have inside : ¬ UInt32.size ≤ fields.used + width.toNat := Nat.not_le.mpr counted
    rcases Nat.lt_or_ge fields.total.bits (fields.used + width.toNat) with full | room
    · have refused : fields.push width =
          .error (.fieldOverflow width.toNat fields.used fields.total.bits) := by
        simp only [push, if_neg inside, if_pos full]
      exact .inr (.inl ⟨full, counted, refused, by rw [attempt, refused]⟩)
    · have added : fields.push width =
          .ok (⟨fields.total, fields.widths ++ [width]⟩, fields.used) := by
        simp only [push, if_neg inside, if_neg (Nat.not_lt.mpr room)]
      exact .inl ⟨room, added, by rw [attempt, added]⟩
  · have stopped : fields.push width = .error .overflow := by simp only [push, if_pos past]
    exact .inr (.inr ⟨past, stopped, by rw [attempt, stopped]⟩)

@[simp] theorem used_append (fields : WordFields) (width : UInt32) :
    used ⟨fields.total, fields.widths ++ [width]⟩ = fields.used + width.toNat := by
  rw [used, sum_append, sum_cons, sum_nil, Nat.add_zero, used]

/-- The bits of the word are its own, and no attempt uses more of them. -/
theorem attempt_keeps {fields : WordFields} (room : fields.used ≤ fields.total.bits)
    (width : UInt32) : (fields.attempt width).total = fields.total ∧
      (fields.attempt width).used ≤ (fields.attempt width).total.bits := by
  rcases fields.attempt_cases width with ⟨enough, -, same⟩ | ⟨-, -, -, same⟩ | ⟨-, -, same⟩
  · rw [same, used_append]
    exact ⟨rfl, enough⟩
  · rw [same]
    exact ⟨rfl, room⟩
  · rw [same]
    exact ⟨rfl, room⟩

/-- Nor does a history of attempts. -/
theorem attemptAll_keeps {fields : WordFields} (room : fields.used ≤ fields.total.bits)
    (widths : List UInt32) : (fields.attemptAll widths).total = fields.total ∧
      (fields.attemptAll widths).used ≤ (fields.attemptAll widths).total.bits := by
  induction widths generalizing fields with
  | nil => exact ⟨rfl, room⟩
  | cons width rest ih =>
    obtain ⟨total, step⟩ := attempt_keeps room width
    obtain ⟨same, later⟩ := ih step
    exact ⟨same.trans total, later⟩

/-- A push is answered exactly unless the program stops at its sum. -/
theorem exact_iff (fields : WordFields) (width : UInt32) :
    fields.Exact width ↔ fields.used + width.toNat < UInt32.size := by
  have word := fields.total.bits_le
  have small : 64 < UInt32.size := by decide
  unfold Exact
  rcases fields.attempt_cases width with
    ⟨enough, answer, -⟩ | ⟨full, counted, answer, -⟩ | ⟨past, answer, -⟩
  · rw [answer, if_pos enough]
    exact iff_of_true rfl (by omega)
  · rw [answer, if_neg (Nat.not_le.mpr full)]
    exact iff_of_true rfl counted
  · rw [answer, if_neg (by omega)]
    exact iff_of_false (by simp) (Nat.not_lt.mpr past)

end Attempts

section Guards

/-- Shift to the left. The program stops at the width of a word or more. -/
def shiftLeft? (value : UInt64) (amount : Nat) : Option UInt64 :=
  if amount < 64 then some (value <<< UInt64.ofNat amount) else none

/-- Shift to the right. The program stops at the width of a word or more. -/
def shiftRight? (value : UInt64) (amount : Nat) : Option UInt64 :=
  if amount < 64 then some (value >>> UInt64.ofNat amount) else none

/-- The mask of a width, made by a guarded shift. -/
def lowMask? (width : UInt32) : Option UInt64 :=
  if 64 ≤ width.toNat then some (UInt64.ofNat (UInt64.size - 1))
  else (shiftLeft? 1 width.toNat).map (· - 1)

/-- A value at its place. Nothing is shifted for a field without bits. -/
def place? (value : UInt64) (width : UInt32) (shift : Nat) : Option UInt64 :=
  if width = 0 then some 0 else shiftLeft? value shift

/-- The value at a place. Nothing is shifted for a field without bits. -/
def valueAt? (word : UInt64) (width : UInt32) (shift : Nat) : Option UInt64 :=
  if width = 0 then some 0
  else (shiftRight? word shift).bind fun moved => (lowMask? width).map (moved &&& ·)

/-- The shift of the next field, a 32-bit word. -/
def advance? (shift : Nat) (width : UInt32) : Option Nat :=
  if shift + width.toNat < UInt32.size then some (shift + width.toNat) else none

/-- Combining with guarded shifts. -/
def combine? : List (UInt64 × UInt32) → (shift : Nat) → Option (Except BitsError UInt64)
  | [], _ => some (.ok 0)
  | (value, width) :: rest, shift =>
      if Bits.fits value width.toNat then do
        let here ← place? value width shift
        let above ← combine? rest (← advance? shift width)
        return above.map (here ||| ·)
      else some (.error (.valueOverflow value width.toNat))

/-- Splitting with guarded shifts. -/
def split? (word : UInt64) : List UInt32 → (shift : Nat) → Option (List UInt64)
  | [], _ => some []
  | width :: rest, shift => do
      let here ← valueAt? word width shift
      let above ← split? word rest (← advance? shift width)
      return here :: above

/-- Packing with guarded shifts. -/
def pack? (fields : WordFields) (values : List UInt64) : Option (Except BitsError UInt64) :=
  if values.length = fields.widths.length then combine? (values.zip fields.widths) 0
  else some (.error (.fieldCount fields.widths.length values.length))

/-- Unpacking with guarded shifts. -/
def unpack? (fields : WordFields) (word : UInt64) : Option (List UInt64) :=
  split? word fields.widths 0

/-- Masks need no shift by a whole word. -/
theorem lowMask?_eq (width : UInt32) : lowMask? width = some (Bits.lowMask width.toNat) := by
  rcases Nat.lt_or_ge width.toNat 64 with narrow | wide
  · rw [lowMask?, if_neg (by omega), shiftLeft?, if_pos narrow, Option.map_some, Option.some_inj]
    have power : 2 ^ width.toNat < 2 ^ 64 := Nat.pow_lt_pow_right (by decide) narrow
    have moved : ((1 : UInt64) <<< UInt64.ofNat width.toNat).toNat = 2 ^ width.toNat := by
      rw [UInt64.toNat_shiftLeft, toNat_ofNat_shift narrow.le, Nat.mod_eq_of_lt narrow,
        UInt64.toNat_one, Nat.one_shiftLeft, Nat.mod_eq_of_lt power]
    have positive : (1 : UInt64) ≤ 1 <<< UInt64.ofNat width.toNat := by
      rw [UInt64.le_iff_toNat_le, moved]
      exact Nat.two_pow_pos _
    apply UInt64.toNat_inj.mp
    rw [Bits.toNat_lowMask narrow.le, UInt64.toNat_sub_of_le _ _ positive, moved, UInt64.toNat_one]
  · rw [lowMask?, if_pos wide, Bits.lowMask, if_pos wide]

/-- A value that fits its field is placed without a shift by a whole word while the field
    lies in the word. -/
theorem place?_eq {value : UInt64} {width : UInt32} {shift : Nat}
    (fits : Bits.fits value width.toNat = true) (lies : shift + width.toNat ≤ 64) :
    place? value width shift = some (value <<< UInt64.ofNat shift) := by
  by_cases empty : width = 0
  · have below := Bits.fits_iff.mp fits
    rw [empty] at below
    obtain rfl : value = 0 := UInt64.toNat_inj.mp (by simpa using below)
    simp [place?, empty]
  · have positive : width.toNat ≠ 0 := fun none => empty (UInt32.toNat_inj.mp none)
    rw [place?, if_neg empty, shiftLeft?, if_pos (by omega)]

/-- A field that lies in the word is read without a shift by a whole word. -/
theorem valueAt?_eq {width : UInt32} {shift : Nat} (word : UInt64)
    (lies : shift + width.toNat ≤ 64) :
    valueAt? word width shift =
      some (word >>> UInt64.ofNat shift &&& Bits.lowMask width.toNat) := by
  by_cases empty : width = 0
  · simp [valueAt?, empty, Bits.lowMask]
  · have positive : width.toNat ≠ 0 := fun none => empty (UInt32.toNat_inj.mp none)
    rw [valueAt?, if_neg empty, shiftRight?, if_pos (by omega), lowMask?_eq]
    rfl

/-- Behind a field that lies in the word the shift is a 32-bit word. -/
theorem advance?_eq {width : UInt32} {shift : Nat} (lies : shift + width.toNat ≤ 64) :
    advance? shift width = some (shift + width.toNat) :=
  if_pos (lies.trans_lt (by decide))

/-- Fields that lie in the word are combined without a shift by a whole word. -/
theorem combine?_eq {pairs : List (UInt64 × UInt32)} {shift : Nat}
    (lies : shift + room pairs ≤ 64) :
    combine? pairs shift = some (combine pairs shift) := by
  induction pairs generalizing shift with
  | nil => rfl
  | cons pair rest ih =>
    obtain ⟨value, width⟩ := pair
    rw [room_cons] at lies
    have above := @ih (shift + width.toNat) (by omega)
    rw [combine?, combine]
    split
    · rename_i fits
      rw [place?_eq fits (by omega), advance?_eq (by omega)]
      simp only [Option.bind_eq_bind, Option.bind_some, above, Option.pure_def]
    · rfl

/-- Fields that lie in the word are split without a shift by a whole word. -/
theorem split?_eq {widths : List UInt32} {shift : Nat} (word : UInt64)
    (lies : shift + sum widths ≤ 64) :
    split? word widths shift = some (split word widths shift) := by
  induction widths generalizing shift with
  | nil => rfl
  | cons width rest ih =>
    rw [sum_cons] at lies
    have above := @ih (shift + width.toNat) (by omega)
    rw [split?, split, valueAt?_eq word (by omega), advance?_eq (by omega)]
    simp only [Option.bind_eq_bind, Option.bind_some, above, Option.pure_def]

end Guards

section Packing

/-- Values are combined if and only if each fits its field. -/
theorem exists_combine_iff {pairs : List (UInt64 × UInt32)} {shift : Nat} :
    (∃ word, combine pairs shift = .ok word) ↔ Fit pairs := by
  constructor
  · rintro ⟨word, combined⟩
    induction pairs generalizing shift word with
    | nil => simp [Fit]
    | cons pair rest ih =>
      obtain ⟨value, width⟩ := pair
      rw [combine] at combined
      split at combined
      · rename_i fits
        obtain ⟨above, later, -⟩ := map_eq_ok.mp combined
        exact List.forall_mem_cons.mpr ⟨Bits.fits_iff.mp fits, ih above later⟩
      · cases combined
  · intro fit
    exact exists_combine (fun pair present => Bits.fits_iff.mpr (fit pair present)) shift

/-- A word is packed if and only if there is one value for each field and each value fits. -/
theorem exists_pack_iff {fields : WordFields} {values : List UInt64} :
    (∃ word, fields.pack values = .ok word) ↔
      values.length = fields.widths.length ∧ Fit (values.zip fields.widths) := by
  unfold pack
  split
  · rename_i same
    rw [exists_combine_iff]
    exact ⟨fun fit => ⟨same, fit⟩, fun both => both.2⟩
  · rename_i different
    simp [different]

/-- Every field takes as many bits of a word as it has, and they make up the bits of the word
    that the fields take together. -/
theorem split_spec {widths : List UInt32} {shift : Nat} (word : UInt64)
    (lies : shift + sum widths ≤ 64) :
    Fit ((split word widths shift).zip widths) ∧
      stack ((split word widths shift).zip widths) =
        word.toNat / 2 ^ shift % 2 ^ sum widths := by
  induction widths generalizing shift with
  | nil => simp [Fit, split, stack, Nat.mod_one]
  | cons width rest ih =>
    rw [sum_cons] at lies ⊢
    obtain ⟨others, above⟩ := @ih (shift + width.toNat) (by omega)
    have here := toNat_field word (show shift + width.toNat ≤ 64 by omega)
    constructor
    · refine List.forall_mem_cons.mpr ⟨?_, others⟩
      rw [here]
      exact Nat.mod_lt _ (Nat.two_pow_pos _)
    · rw [split, List.zip_cons_cons, stack, here, above, Nat.pow_add, Nat.pow_add,
        ← Nat.div_div_eq_div_mul, Nat.mod_mul]

theorem length_split (word : UInt64) (widths : List UInt32) (shift : Nat) :
    (split word widths shift).length = widths.length := by
  induction widths generalizing shift with
  | nil => rfl
  | cons width rest ih => rw [split, List.length_cons, List.length_cons, ih]

end Packing

/-- Packing and unpacking undo each other, on words that the used bits hold and that the
    bytes keep, and no word is shifted by 64 bits or more on the way. -/
structure Lossless (fields : WordFields) : Prop where
  unpacks {values : List UInt64} {word : UInt64} : fields.pack values = .ok word →
    fields.unpack word = values
  below {values : List UInt64} {word : UInt64} : fields.pack values = .ok word →
    word.toNat < 2 ^ fields.used
  stored {values : List UInt64} {word : UInt64} : fields.pack values = .ok word →
    Bytes.ofLittleEndian (fields.bytes word) = word.toNat
  repacks (word : UInt64) : ∃ packed, fields.pack (fields.unpack word) = .ok packed ∧
    packed.toNat = word.toNat % 2 ^ fields.used
  packGuarded (values : List UInt64) : fields.pack? values = some (fields.pack values)
  unpackGuarded (word : UInt64) : fields.unpack? word = some (fields.unpack word)

section Inverse

variable {fields : WordFields}

theorem room_zip {values : List UInt64} {widths : List UInt32}
    (same : values.length = widths.length) : room (values.zip widths) = sum widths := by
  rw [room, List.map_snd_zip same.ge]

/-- What is packed is the number of the values, each directly above the ones before. -/
theorem pack_spec {values : List UInt64} {word : UInt64} (lies : fields.used ≤ 64)
    (packed : fields.pack values = .ok word) :
    values.length = fields.widths.length ∧ Fit (values.zip fields.widths) ∧
      room (values.zip fields.widths) = fields.used ∧
      word.toNat = stack (values.zip fields.widths) := by
  unfold pack at packed
  split at packed
  · rename_i same
    have taken : room (values.zip fields.widths) = fields.used := room_zip same
    obtain ⟨fit, number⟩ := combine_eq_ok packed (by omega)
    exact ⟨same, fit, taken, by simpa using number⟩
  · cases packed

/-- Fields that lie in the word lose nothing. -/
theorem lossless_of_used_le (lies : fields.used ≤ fields.total.bits) : fields.Lossless := by
  have inWord : fields.used ≤ 64 := lies.trans fields.total.bits_le
  have fromZero : 0 + sum fields.widths ≤ 64 := by rwa [Nat.zero_add]
  have small {values : List UInt64} {word : UInt64} (packed : fields.pack values = .ok word) :
      word.toNat < 2 ^ fields.used := by
    obtain ⟨-, fit, taken, number⟩ := pack_spec inWord packed
    exact number ▸ taken ▸ stack_lt fit
  refine ⟨fun {values word} packed => ?_, small, fun {values word} packed => ?_,
    fun word => ?_, fun values => ?_, fun word => split?_eq word fromZero⟩
  · obtain ⟨same, fit, taken, number⟩ := pack_spec inWord packed
    have stands : word.toNat / 2 ^ 0 % 2 ^ room (values.zip fields.widths) =
        stack (values.zip fields.widths) := by
      simpa [number] using Nat.mod_eq_of_lt (stack_lt fit)
    have found := split_eq fit (by omega) stands
    rwa [List.map_snd_zip same.ge, List.map_fst_zip same.le] at found
  · have fits : word.toNat < 256 ^ fields.total.bytes :=
      calc word.toNat < 2 ^ fields.used := small packed
        _ ≤ 2 ^ fields.total.bits := Nat.pow_le_pow_right (by omega) lies
        _ = 256 ^ fields.total.bytes := by cases fields.total <;> rfl
    rw [bytes, Bytes.ofLittleEndian_littleEndian, Nat.mod_eq_of_lt fits]
  · obtain ⟨fit, number⟩ := split_spec word fromZero
    obtain ⟨packed, repacked⟩ := exists_pack_iff.mpr ⟨length_split word fields.widths 0, fit⟩
    obtain ⟨-, -, -, again⟩ := pack_spec inWord repacked
    exact ⟨packed, repacked, by simpa [again, unpack, used] using number⟩
  · unfold pack? pack
    split
    · rename_i same
      exact combine?_eq (by rwa [room_zip same])
    · rfl

end Inverse

/-- A word of declared size after any history of attempts. It never has more bits in use than
    it has, packs exactly the values that fit their fields, and packing and unpacking undo each
    other. A push is answered by the exact sum unless the program stops, which it does exactly
    where no 32-bit word holds that sum. -/
theorem attemptAll_lossless {bits : UInt32} {start : WordFields}
    (declared : ofBits bits = .ok start) (widths : List UInt32) :
    let fields := start.attemptAll widths
    (fields.used ≤ fields.total.bits ∧ fields.total.bits = bits.toNat ∧ fields.total.bits ≤ 64) ∧
      (∀ values, (∃ word, fields.pack values = .ok word) ↔
        values.length = fields.widths.length ∧ Fit (values.zip fields.widths)) ∧
      fields.Lossless ∧
      (∀ width, fields.Exact width ↔ fields.used + width.toNat < UInt32.size) ∧
      ∀ width, fields.push width = .error .overflow ↔
        UInt32.size ≤ fields.used + width.toNat := by
  intro fields
  obtain ⟨total, size, rfl⟩ : ∃ total : WordWidth, total.bits = bits.toNat ∧
      start = ⟨total, []⟩ := by
    unfold ofBits at declared
    split at declared
    · rename_i total found
      exact ⟨total, WordWidth.bits_of_ofBits? found, (Except.ok.inj declared).symm⟩
    · cases declared
  obtain ⟨kept, lies⟩ := @attemptAll_keeps ⟨total, []⟩ (Nat.zero_le _) widths
  refine ⟨⟨lies, by rw [kept, size], WordWidth.bits_le _⟩, fun values => exists_pack_iff,
    lossless_of_used_le lies, exact_iff fields, fun width => ?_⟩
  have inWord := fields.total.bits_le
  have small : 64 < UInt32.size := by decide
  rcases fields.attempt_cases width with
    ⟨enough, answer, -⟩ | ⟨-, counted, answer, -⟩ | ⟨past, answer, -⟩
  · rw [answer]
    exact iff_of_false (by simp) (by omega)
  · rw [answer]
    exact iff_of_false (by simp) (Nat.not_le.mpr counted)
  · rw [answer]
    exact iff_of_true rfl past

/-- A field too wide for the word is refused, and the fields admitted before and after it,
    one of them without bits and one with the last bit, lose nothing. -/
theorem last_bit_lossless :
    ofBits 16 = .ok ⟨.w16, []⟩ ∧
      attemptAll ⟨.w16, []⟩ [3, 0, 20, 13] = ⟨.w16, [3, 0, 13]⟩ ∧
      (attemptAll ⟨.w16, []⟩ [3, 0, 20, 13]).Lossless := by
  have declared : ofBits 16 = .ok ⟨.w16, []⟩ := rfl
  obtain ⟨-, -, lossless, -, -⟩ := attemptAll_lossless declared [3, 0, 20, 13]
  exact ⟨declared, by decide, lossless⟩

/-- Five bits of eight are used, and a field of 4294967291 bits has no room beside them. It is not
    refused: the program stops, since the sum of both is no 32-bit word. -/
theorem widePush_stops :
    ofBits 8 = .ok ⟨.w8, []⟩ ∧ attemptAll ⟨.w8, []⟩ [5] = ⟨.w8, [5]⟩ ∧
      ¬ used ⟨.w8, [5]⟩ + (4294967291 : UInt32).toNat ≤ WordWidth.bits .w8 ∧
      push ⟨.w8, [5]⟩ 4294967291 = .error .overflow ∧ ¬ Exact ⟨.w8, [5]⟩ 4294967291 := by
  refine ⟨by decide, by decide, by decide, by decide, ?_⟩
  rw [exact_iff]
  decide

end WordFields
end BinaryLayout
