import BinaryLayout.Bits.Bytes
import BinaryLayout.Word.Width

/-!
# Fields of one machine word

Consecutive fields share a word, the first one in its lowest bits. Each field is
known by its width; its shift is the sum of the widths before it. A width is a 32-bit
word, and the program stops at a field with which the sum of the widths would be none.
-/

namespace BinaryLayout

/-- The widths of the fields of a word, lowest field first. -/
structure WordFields where
  total : WordWidth
  widths : List UInt32
  deriving DecidableEq

namespace WordFields

/-- A word without fields, refused when no word has so many bits. -/
def ofBits (bits : UInt32) : Except BitsError WordFields :=
  match WordWidth.ofBits? bits.toNat with
  | some total => .ok ⟨total, []⟩
  | none => .error (.wordWidth bits)

/-- Widths added up. -/
def sum (widths : List UInt32) : Nat :=
  widths.foldr (fun width total => width.toNat + total) 0

@[simp] theorem sum_nil : sum [] = 0 := rfl

@[simp] theorem sum_cons (width : UInt32) (rest : List UInt32) :
    sum (width :: rest) = width.toNat + sum rest := rfl

@[simp] theorem sum_append (first second : List UInt32) :
    sum (first ++ second) = sum first + sum second := by
  induction first with
  | nil => exact (Nat.zero_add _).symm
  | cons width rest ih => rw [List.cons_append, sum_cons, sum_cons, ih, Nat.add_assoc]

/-- Number of bits the fields take together. -/
def used (fields : WordFields) : Nat :=
  sum fields.widths

/-- Add a field above the others and return its shift. -/
def push (fields : WordFields) (width : UInt32) : Except BitsError (WordFields × Nat) :=
  let used := fields.used
  if UInt32.size ≤ used + width.toNat then .error .overflow
  else if fields.total.bits < used + width.toNat then
    .error (.fieldOverflow width.toNat used fields.total.bits)
  else .ok (⟨fields.total, fields.widths ++ [width]⟩, used)

/-- The lowest bit of a field; the position behind the last field counts as one. -/
def shift? (fields : WordFields) (index : Nat) : Option Nat :=
  if index ≤ fields.widths.length then some (sum (fields.widths.take index)) else none

/-- The mask of a field before it is shifted. -/
def mask? (fields : WordFields) (index : Nat) : Option UInt64 :=
  fields.widths[index]?.map fun width => Bits.lowMask width.toNat

/-- Combine values and widths from a shift upwards; each value has to fit. -/
def combine : List (UInt64 × UInt32) → (shift : Nat) → Except BitsError UInt64
  | [], _ => .ok 0
  | (value, width) :: rest, shift =>
      if Bits.fits value width.toNat then
        (combine rest (shift + width.toNat)).map (value <<< UInt64.ofNat shift ||| ·)
      else .error (.valueOverflow value width.toNat)

/-- Pack one value for every field into a word. -/
def pack (fields : WordFields) (values : List UInt64) : Except BitsError UInt64 :=
  if values.length = fields.widths.length then combine (values.zip fields.widths) 0
  else .error (.fieldCount fields.widths.length values.length)

/-- The values of fields from a shift upwards. -/
def split (word : UInt64) : List UInt32 → (shift : Nat) → List UInt64
  | [], _ => []
  | width :: rest, shift =>
      (word >>> UInt64.ofNat shift &&& Bits.lowMask width.toNat) ::
        split word rest (shift + width.toNat)

/-- The value of every field of a word. -/
def unpack (fields : WordFields) (word : UInt64) : List UInt64 :=
  split word fields.widths 0

/-- The bytes of a word, as many as its width has. -/
def bytes (fields : WordFields) (word : UInt64) : List UInt8 :=
  Bytes.littleEndian fields.total.bytes word.toNat

/-- The first field takes the lowest bits. -/
example : pack ⟨.w8, [1, 1, 3]⟩ [1, 0, 5] = .ok 0b10101 := by rfl

end WordFields
end BinaryLayout
