/-!
# Numbers that leave the machine

Positions, offsets and sizes are words of 64 bits. Where a computation would leave them, the
program stops: it gives no answer, and no refusal that a caller could handle. A stop is carried
like a refusal all the same, as one more cause beside those of a layer.

What follows from declared sizes and from requested offsets and widths is checked. Lengths of
what is stored already are not, since no memory holds as many bytes as there are addresses.
-/

namespace BinaryLayout

/-- Positions, offsets and sizes are below this number. -/
def addressSpace : Nat := UInt64.size

/-- A computed number, or the given fault where no word holds it. -/
def checked {ε : Type} (fault : ε) (number : Nat) : Except ε Nat :=
  if number < addressSpace then .ok number else .error fault

section Checked

variable {ε : Type} {fault : ε} {number : Nat}

theorem checked_of_lt (small : number < addressSpace) : checked fault number = .ok number :=
  if_pos small

theorem checked_of_le (large : addressSpace ≤ number) : checked fault number = .error fault :=
  if_neg (Nat.not_lt.mpr large)

@[simp] theorem checked_eq_ok {result : Nat} :
    checked fault number = .ok result ↔ number < addressSpace ∧ number = result := by
  by_cases small : number < addressSpace <;> simp [checked, small]

@[simp] theorem checked_eq_error {error : ε} :
    checked fault number = .error error ↔ addressSpace ≤ number ∧ fault = error := by
  by_cases small : number < addressSpace
  · simp [checked, small, Nat.not_le.mpr small]
  · simp [checked, small, Nat.not_lt.mp small]

/-- A number that a word holds. There is none where the program stops. -/
def address? (number : Nat) : Option Nat :=
  (checked () number).toOption

theorem address?_eq_some {position : Nat} :
    address? number = some position ↔ number < addressSpace ∧ number = position := by
  by_cases small : number < addressSpace
  · simp [address?, checked_of_lt small, Except.toOption, small]
  · simp [address?, checked_of_le (Nat.le_of_not_lt small), Except.toOption, small]

theorem address?_eq (small : number < addressSpace) : address? number = some number :=
  address?_eq_some.mpr ⟨small, rfl⟩

theorem address?_eq_none (large : addressSpace ≤ number) : address? number = none := by
  rw [address?, checked_of_le large]
  rfl

theorem toOption_checked : (checked fault number).toOption = address? number := by
  by_cases small : number < addressSpace
  · rw [checked_of_lt small, address?_eq small]
    rfl
  · rw [checked_of_le (Nat.le_of_not_lt small), address?_eq_none (Nat.le_of_not_lt small)]
    rfl

end Checked

end BinaryLayout
