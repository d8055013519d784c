import BinaryLayout.Proofs.Histories

/-!
# Bit buffers in bytes

A buffer is stored in bytes. Words are written into windows of them, digits one by one, and a
read looks at a window again. On these bytes every history runs as on the bits, without ever
leaving them, and stops at the same calls. The buffer holds what its accepted calls append exactly
when no refused sequence has left a mark where one shows.
-/

namespace BinaryLayout

/-- Bytes that are zero have zeros for bits. -/
theorem Bytes.unpack_zeros (count : Nat) :
    unpack (List.replicate count 0) = List.replicate (8 * count) false := by
  induction count with
  | zero => rfl
  | succ count ih =>
    rw [List.replicate_succ, unpack_cons, ih, Nat.mul_succ, Nat.add_comm,
      ← List.replicate_append_replicate]
    rfl

namespace Window

/-- A window in whole bytes is written over their bits. -/
theorem write?_pack {bits : List Bool} {offset width : Nat} {value : UInt64}
    (whole : 8 ∣ bits.length) (room : offset + width ≤ bits.length) :
    write? (Bytes.pack bits) offset width value =
      some (Bytes.pack (overwrite bits offset (Bits.ofWord width value))) := by
  have lies : inside (Bytes.pack bits) offset width = true := by
    simp only [inside, Bytes.length_pack, Bool.or_eq_true, decide_eq_true_eq]
    omega
  rw [write?, if_pos lies, Bytes.unpack_pack_of_dvd whole]

/-- Writing a bit and then others behind it is writing them all. -/
theorem overwrite_cons {bits rest : List Bool} {bit : Bool} {position : Nat}
    (inside : position < bits.length) :
    overwrite (overwrite bits position [bit]) (position + 1) rest =
      overwrite bits position (bit :: rest) := by
  have length : (bits.take position ++ [bit]).length = position + 1 := by
    simp
    omega
  rw [overwrite, overwrite, overwrite, List.take_left' length,
    ← List.drop_drop, List.drop_left' length, List.drop_drop]
  simp [Nat.add_comm, Nat.add_left_comm]

/-- An overwritten sequence is as long as before while the patch lies in it. -/
theorem length_overwrite {bits patch : List Bool} {position : Nat}
    (inside : position + patch.length ≤ bits.length) :
    (overwrite bits position patch).length = bits.length := by
  simp only [overwrite, List.length_append, List.length_take, List.length_drop]
  omega

end Window

/-- A bit buffer as it is stored: bytes, and how many of their bits have been appended. -/
structure ByteBuffer where
  bytes : List UInt8
  length : Nat
  deriving DecidableEq

namespace ByteBuffer

/-- The bytes, with zeros behind them until they have room for so many bits. -/
def grown (buffer : ByteBuffer) (bits : Nat) : List UInt8 :=
  buffer.bytes ++ List.replicate ((bits + 7) / 8 - buffer.bytes.length) 0

/-- Write digits one by one, up to the first that is no bit. The outer option is empty where
    a write leaves the bytes. -/
def write? (bytes : List UInt8) (position : Nat) :
    List UInt8 → Option (Except BitsError Unit × List UInt8)
  | [] => some (.ok (), bytes)
  | digit :: rest =>
      match Bits.ofDigit digit with
      | .ok bit =>
          (Window.write? bytes position 1 (if bit then 1 else 0)).bind fun next =>
            write? next (position + 1) rest
      | .error refusal => some (.error refusal, bytes)

/-- Append a cell. The outer option is empty where a write leaves the bytes. -/
def append? (buffer : ByteBuffer) (call : BitBuffer.Append) :
    Option (Except BitsError Unit × ByteBuffer) :=
  let bytes := buffer.grown (buffer.length + call.width)
  let next := buffer.length + call.width
  match call.cell with
  | .number value =>
      if Bits.fits value call.width then
        if addressSpace ≤ next then some (.error .overflow, buffer)
        else (Window.write? bytes buffer.length call.width value).map fun bytes =>
          (.ok (), ⟨bytes, next⟩)
      else some (.error (.valueOverflow value call.width), buffer)
  | .digits sequence =>
      if call.width < sequence.length then
        some (.error (.fieldOverflow sequence.length 0 call.width), buffer)
      else if addressSpace ≤ next then some (.error .overflow, buffer)
      else
        (write? bytes buffer.length sequence).map fun
          | (.ok _, bytes) => (.ok (), ⟨bytes, next⟩)
          | (.error refusal, bytes) => (.error refusal, ⟨bytes, buffer.length⟩)

/-- Read a window as a word. The outer option is empty where the read leaves the bytes. -/
def get? (buffer : ByteBuffer) (position width : Nat) :
    Option (Except BitsError (Option UInt64)) :=
  if addressSpace ≤ position + width then some (.error .overflow)
  else if buffer.length < position + width then some (.ok none)
  else (Window.read? buffer.bytes position width).map fun word => .ok (some word)

end ByteBuffer

namespace BitBuffer

/-- The buffer as it is stored. -/
def packed (buffer : BitBuffer) : ByteBuffer :=
  ⟨buffer.bytes, buffer.length⟩

end BitBuffer

namespace ByteBuffer

/-- Digits written one by one are their leading bits written at once. -/
theorem write?_eq {digits : List UInt8} {bits : List Bool} {position : Nat}
    (whole : 8 ∣ bits.length) (inside : position + digits.length ≤ bits.length) :
    write? (Bytes.pack bits) position digits =
      some ((Bits.ofDigits digits).map fun _ => (),
        Bytes.pack (Window.overwrite bits position (Bits.leading digits))) := by
  induction digits generalizing bits position with
  | nil => simp [write?, Bits.ofDigits, Bits.leading, Window.overwrite, pure, Except.pure, Except.map]
  | cons digit rest ih =>
    simp only [List.length_cons] at inside
    cases read : Bits.ofDigit digit with
    | ok bit =>
      have lone : Bits.ofWord 1 (if bit then 1 else 0) = [bit] := by cases bit <;> rfl
      have first := @Window.write?_pack bits position 1 (if bit then 1 else 0) whole (by omega)
      have length := @Window.length_overwrite bits [bit] position (by simp; omega)
      have others := @ih (Window.overwrite bits position [bit]) (position + 1)
        (by rwa [length]) (by rw [length]; omega)
      have digits : (Bits.ofDigits (digit :: rest)).map (fun _ => ()) =
          (Bits.ofDigits rest).map fun _ => () := by
        rw [Table.ofDigits_cons read]
        cases Bits.ofDigits rest <;> rfl
      rw [write?, read]
      simp only [first, lone, Option.bind_some]
      rw [others, Window.overwrite_cons (by omega), BitBuffer.leading_cons_of_ok read, digits]
    | error refusal =>
      rw [write?, read, BitBuffer.leading_cons_of_error read, BitBuffer.ofDigits_cons_of_error read]
      simp [Window.overwrite, Except.map]

variable {buffer : BitBuffer}

/-- The bytes with room for a call are packed from the contents and the room behind them. -/
theorem grown_eq (whole : 8 ∣ buffer.contents.length + buffer.beyond.length) (width : Nat) :
    buffer.packed.grown (buffer.packed.length + width) =
      Bytes.pack (buffer.contents ++ buffer.room width) := by
  have bytes : buffer.bytes.length * 8 = buffer.contents.length + buffer.beyond.length := by
    rw [BitBuffer.bytes, Bytes.length_pack, List.length_append]
    omega
  have added : 8 * ((buffer.contents.length + width + 7) / 8 - buffer.bytes.length) =
      (buffer.contents.length + width + 7) / 8 * 8 - buffer.contents.length -
        buffer.beyond.length := by omega
  have bits : Bytes.unpack (buffer.packed.grown (buffer.packed.length + width)) =
      buffer.contents ++ buffer.room width := by
    simp only [grown, BitBuffer.packed, BitBuffer.length]
    rw [Bytes.unpack_append, BitBuffer.unpack_bytes whole, Bytes.unpack_zeros, added,
      List.append_assoc]
    rfl
  rw [← bits, Bytes.pack_unpack]

/-- What a call writes over the room stands behind the contents. -/
theorem overwrite_room (call : BitBuffer.Append) :
    Window.overwrite (buffer.contents ++ buffer.room call.width) buffer.contents.length call.own =
      buffer.contents ++ buffer.laid call := by
  rw [Window.overwrite, List.take_left' rfl, ← List.drop_drop, List.drop_left' rfl,
    List.append_assoc]
  rfl

/-- An accepted call stores what it has laid, and moves the end. -/
theorem packed_accepted {call : BitBuffer.Append} (room : ¬ call.Oversized) :
    (BitBuffer.mk (buffer.contents ++ (buffer.laid call).take call.width)
      ((buffer.laid call).drop call.width)).packed =
        ⟨Bytes.pack (buffer.contents ++ buffer.laid call), buffer.packed.length + call.width⟩ := by
  have wide := (buffer.length_laid room).1
  have finish : (buffer.contents ++ (buffer.laid call).take call.width).length =
      buffer.contents.length + call.width := by
    rw [List.length_append, List.length_take, Nat.min_eq_left wide]
  simp only [BitBuffer.packed, BitBuffer.bytes, BitBuffer.length, finish]
  rw [List.append_assoc, List.take_append_drop]

/-- At the same calls the program stops on the bytes, and changes nothing. -/
theorem append?_of_stops {call : BitBuffer.Append} (stops : call.Stops buffer.length) :
    buffer.packed.append? call = some (.error .overflow, buffer.packed) := by
  obtain ⟨room, large⟩ := stops
  obtain ⟨cell, width⟩ := call
  have far : addressSpace ≤ buffer.packed.length + width := large
  cases cell with
  | number value =>
    have fits : Bits.fits value width = true :=
      not_not.mp (mt BitBuffer.Append.oversized_number.mpr room)
    simp only [append?, fits, if_true, if_pos far]
  | digits sequence =>
    have short : ¬ width < sequence.length := room
    simp only [append?, if_neg short, if_pos far]

/-- A call on the bytes is the call on the bits: it never writes outside them. -/
theorem append?_packed (whole : 8 ∣ buffer.contents.length + buffer.beyond.length)
    (call : BitBuffer.Append) :
    buffer.packed.append? call =
      some ((buffer.append call).1, (buffer.append call).2.packed) := by
  by_cases stops : call.Stops buffer.length
  · rw [append?_of_stops stops, BitBuffer.append_of_stops stops]
  · have grown := grown_eq whole call.width
    have made := buffer.length_room call.width
    have wholeRoom : 8 ∣ (buffer.contents ++ buffer.room call.width).length := by
      rw [List.length_append]
      omega
    have inside : buffer.contents.length + call.width ≤
        (buffer.contents ++ buffer.room call.width).length := by
      rw [List.length_append]
      omega
    have laid := @overwrite_room buffer call
    rw [BitBuffer.append_eq stops]
    by_cases oversized : call.Oversized
    · rw [if_pos oversized]
      obtain ⟨cell, width⟩ := call
      cases cell with
      | number value =>
        have refused := BitBuffer.Append.oversized_number.mp oversized
        rw [BitBuffer.Append.bits_number, if_neg refused]
        simp [append?, refused, Except.map]
      | digits sequence =>
        have long : width < sequence.length := oversized
        rw [BitBuffer.Append.bits_digits, if_pos long]
        simp [append?, long, Except.map]
    · have accepted := @packed_accepted buffer call oversized
      rw [if_neg oversized]
      obtain ⟨cell, width⟩ := call
      cases cell with
      | number value =>
        have fits : Bits.fits value width = true :=
          not_not.mp (mt BitBuffer.Append.oversized_number.mpr oversized)
        have granted := BitBuffer.Append.bits_number value width
        rw [if_pos fits] at granted
        have written : Window.write? (Bytes.pack (buffer.contents ++ buffer.room width))
            buffer.packed.length width value =
              some (Bytes.pack (buffer.contents ++ buffer.laid ⟨.number value, width⟩)) := by
          rw [← laid]
          exact Window.write?_pack wholeRoom inside
        have small : ¬ addressSpace ≤ buffer.packed.length + width :=
          fun large => stops ⟨oversized, large⟩
        rw [if_pos (BitBuffer.Append.accepted_of_ok granted), granted, accepted]
        simp only [append?, fits, if_true, if_neg small, grown, written]
        rfl
      | digits sequence =>
        have short : ¬ width < sequence.length := oversized
        have written : write? (Bytes.pack (buffer.contents ++ buffer.room width))
            buffer.packed.length sequence =
              some ((Bits.ofDigits sequence).map fun _ => (),
                Bytes.pack (buffer.contents ++ buffer.laid ⟨.digits sequence, width⟩)) := by
          rw [← laid]
          exact write?_eq wholeRoom ((Nat.add_le_add_left (Nat.le_of_not_lt short) _).trans inside)
        have bits := BitBuffer.Append.bits_digits sequence width
        have small : ¬ addressSpace ≤ buffer.packed.length + width :=
          fun large => stops ⟨oversized, large⟩
        simp only [append?, short, if_false, if_neg small, grown, written] at bits ⊢
        cases read : Bits.ofDigits sequence with
        | ok own =>
          rw [read] at bits
          rw [if_pos (BitBuffer.Append.accepted_of_ok bits), bits, accepted]
          rfl
        | error refusal =>
          rw [read] at bits
          rw [if_neg (BitBuffer.Append.refused_of_error bits), bits]
          rfl

/-- A window of the bytes is the window of the bits: it is never read outside them. -/
theorem get?_packed (whole : 8 ∣ buffer.contents.length + buffer.beyond.length)
    (counted : buffer.length < addressSpace) (position width : Nat) :
    buffer.packed.get? position width = some (buffer.get position width) := by
  have stored := BitBuffer.unpack_bytes whole
  rw [BitBuffer.get_eq]
  by_cases inside : position + width ≤ buffer.contents.length
  · have lies : position + width ≤ 8 * buffer.bytes.length := by
      rw [← Bytes.length_unpack, stored, List.length_append]
      omega
    have window : ((buffer.contents ++ buffer.beyond).drop position).take width =
        (buffer.contents.drop position).take width := by
      rw [List.drop_append_of_le_length (by omega), List.take_append_of_le_length (by simp; omega)]
    have read : Window.read? buffer.packed.bytes position width =
        some (Bits.toWord ((buffer.contents.drop position).take width)) := by
      rw [BitBuffer.packed, Window.read?_eq lies, stored, window]
    have small : ¬ addressSpace ≤ position + width :=
      Nat.not_le.mpr (Nat.lt_of_le_of_lt inside counted)
    rw [get?, if_neg small,
      if_neg (show ¬ buffer.packed.length < position + width from Nat.not_lt.mpr inside), read,
      if_pos (show position + width ≤ buffer.length from inside)]
    rfl
  · rw [get?, if_pos (show buffer.packed.length < position + width from Nat.lt_of_not_le inside),
      if_neg (show ¬ position + width ≤ buffer.length from inside)]
    split <;> rfl

/-- The bytes after a history of calls, the latest of which comes first. -/
def after : List BitBuffer.Append → Option ByteBuffer
  | [] => some ⟨[], 0⟩
  | call :: earlier => (after earlier).bind fun buffer => (buffer.append? call).map (·.2)

/-- After every history the bytes are those of the bits. -/
theorem after_eq {history : List BitBuffer.Append} (runs : BitBuffer.Runs history) :
    after history = some (BitBuffer.after history).packed := by
  induction history with
  | nil => rfl
  | cons call earlier ih =>
    have whole := (BitBuffer.tracks_after runs.2).whole
    rw [after, ih runs.2, Option.bind_some, append?_packed (by omega)]
    rfl

end ByteBuffer

namespace BitBuffer

/-- The buffer stays as short as the machine can count. -/
theorem total_lt {history : List Append} (runs : Runs history) : total history < addressSpace := by
  induction history with
  | nil => exact (by decide : 0 < addressSpace)
  | cons call earlier ih =>
    have inside := runs.not_stops
    rw [length_after runs.2] at inside
    by_cases accepted : call.accepted = true
    · rw [total_of_accepted accepted]
      exact Nat.lt_of_not_le fun large => inside ⟨Append.not_oversized accepted, large⟩
    · rw [total_of_refused accepted]
      exact ih runs.2

/-- What a history comes to that has not stopped, in the bytes as in the bits. -/
structure Run (history : List Append) : Prop where
  bytes : ByteBuffer.after history = some (after history).packed
  /-- Whether a further call is refused, and why, depends on the call alone. The program stops at
      one that the machine could not count. -/
  call : ∀ call, (after history).packed.append? call =
    some (call.answer (total history), (after (call :: history)).packed)
  window : ∀ position width,
    (after history).packed.get? position width = some ((after history).get position width)
  length : (after history).length = total history
  reads : (after history).Reads (exposed history)

/-- Every history that no call stopped runs on, and no call ever leaves the bytes. -/
theorem run_after {history : List Append} (runs : Runs history) : Run history := by
  have tracks := tracks_after runs
  have whole : 8 ∣ (after history).contents.length + (after history).beyond.length := by
    rw [tracks.whole]
    exact Nat.dvd_mul_right ..
  have length := length_after runs
  constructor
  case bytes => exact ByteBuffer.after_eq runs
  case call =>
    intro call
    rw [ByteBuffer.append?_packed whole, append_answer, length]
    rfl
  case window => exact ByteBuffer.get?_packed whole (length ▸ total_lt runs)
  case length => exact length
  case reads =>
    rw [← tracks.contents]
    exact reads_contents _

/-- However its calls turn out, as long as the program does not stop at one, a buffer is as long
    as the accepted ones are wide, and holds the bits that they expose, in the bytes as in the
    bits. These are the bits that the accepted calls append, with nothing behind them, exactly
    when no refused call has left a mark, and exactly then the refused calls might as well not
    have been made. Words and sequences that are too long leave no mark. -/
theorem appended_told_iff {history : List Append} (runs : Runs history) :
    Run history ∧
      ((after history).Reads (appended history) ∧ (after history).Sealed ↔ Unmarked history) ∧
      (after history = after (history.filter Append.accepted) ↔ Unmarked history) ∧
      (Harmless history → Unmarked history) := by
  have run := run_after runs
  have reads : (after history).Reads (appended history) ↔ exposed history = appended history := by
    constructor
    · intro reads
      exact run.reads.unique reads
    · intro same
      rw [← same]
      exact run.reads
  have marks : (after history).Reads (appended history) ∧ (after history).Sealed ↔
      Unmarked history := by
    rw [reads, exposed_eq_appended_iff, (tracks_after runs).sealed_iff]
    constructor
    · rintro ⟨inside, behind, bytes⟩
      exact ⟨inside, behind, bytes⟩
    · rintro ⟨inside, behind, bytes⟩
      exact ⟨inside, behind, bytes⟩
  exact ⟨run, marks, (unmarked_iff_after_eq runs).symm, Harmless.unmarked⟩

/-- A word that does not fit, and then one that does: the second is told. A window past the end
    holds nothing, and the program stops at one whose end it cannot count. -/
theorem oversizedWord_told :
    Runs [⟨.number 5, 3⟩, ⟨.number 4, 2⟩] ∧ Run [⟨.number 5, 3⟩, ⟨.number 4, 2⟩] ∧
      (after [⟨.number 5, 3⟩, ⟨.number 4, 2⟩]).Reads [true, false, true] ∧
      (after [⟨.number 5, 3⟩, ⟨.number 4, 2⟩]).get 2 2 = .ok none ∧
      (after [⟨.number 5, 3⟩, ⟨.number 4, 2⟩]).get 18446744073709551615 1 = .error .overflow := by
  have runs : Runs [⟨.number 5, 3⟩, ⟨.number 4, 2⟩] := ⟨by decide, by decide, trivial⟩
  obtain ⟨run, told, -, unmarked⟩ := appended_told_iff runs
  have harmless : Harmless [⟨.number 5, 3⟩, ⟨.number 4, 2⟩] := by
    unfold Harmless
    decide
  exact ⟨runs, run, (told.mpr (unmarked harmless)).1, by decide, by decide⟩

/-- A sequence is refused for its second digit, and the empty one after it, one bit wide, takes
    in the one that its first digit has left: where a zero was appended, a one is read. -/
theorem refusedDigit_exposed :
    appended [⟨.digits [], 1⟩, ⟨.digits [1, 2], 2⟩] = [false] ∧
      (after [⟨.digits [], 1⟩, ⟨.digits [1, 2], 2⟩]).get 0 1 = .ok (some 1) ∧
      ¬ (after [⟨.digits [], 1⟩, ⟨.digits [1, 2], 2⟩]).Reads
        (appended [⟨.digits [], 1⟩, ⟨.digits [1, 2], 2⟩]) := by
  have zero : appended [⟨.digits [], 1⟩, ⟨.digits [1, 2], 2⟩] = [false] := by decide
  have one : (after [⟨.digits [], 1⟩, ⟨.digits [1, 2], 2⟩]).get 0 1 = .ok (some 1) := by decide
  refine ⟨zero, one, fun reads => ?_⟩
  have told := reads.get 0 1 (by decide)
  rw [one, zero] at told
  exact absurd told (by decide)

/-- Words that overflow are refused without a trace. -/
example :
    (after [⟨.number 1, 1⟩, ⟨.number 4, 2⟩, ⟨.number 5, 3⟩]).bytes = [0b1101] := by decide

end BitBuffer

end BinaryLayout
