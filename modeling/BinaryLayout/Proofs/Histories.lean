import BinaryLayout.Bits.Buffer
import BinaryLayout.Proofs.TableRoundTrip
import Mathlib.Data.List.TakeWhile

/-!
# Histories of a bit buffer

A buffer is filled by calls, and a refused one does not end the run. Words and sequences that
are too long are refused before anything is written. A sequence that holds a digit other than
0 and 1 is refused on the way: the bits before that digit stay behind the end, in bytes that
were made for them, and a later sequence that is shorter than its width takes them in as its
own zeros. A history tells which bits are left where, which of them the contents have taken
in, and how many bytes were made. At a call that would make the buffer longer than any number of
the machine, the program stops, and the history ends.
-/

namespace BinaryLayout

open Table (Cell)

namespace BitBuffer

/-- A call that appends a cell in a width: a word, or a sequence of digits. -/
structure Append where
  cell : Cell
  width : Nat
  deriving DecidableEq

namespace Append

/-- The bits that a call appends, those of its cell with zeros up to the width. -/
def bits (call : Append) : Except BitsError (List Bool) :=
  call.cell.bits call.width

/-- The call is not refused. -/
def accepted (call : Append) : Bool :=
  call.bits.isOk

/-- What the call adds to the contents: nothing when it is refused. -/
def granted (call : Append) : List Bool :=
  match call.bits with
  | .ok bits => bits
  | .error _ => []

/-- The bits that a call writes itself: all those of a word, and of a sequence those before
    the first digit that is none. -/
def own (call : Append) : List Bool :=
  match call.cell with
  | .number value => Bits.ofWord call.width value
  | .digits sequence => Bits.leading sequence

/-- The cell is too large for the width, and the call refused before it writes anything. -/
def Oversized (call : Append) : Prop :=
  call.width < call.cell.required

instance (call : Append) : Decidable call.Oversized :=
  inferInstanceAs (Decidable (_ < _))

/-- The cell has room in the width, but no number of the machine counts the bits that a buffer of
    this length would have with it. -/
def Stops (call : Append) (length : Nat) : Prop :=
  ¬ call.Oversized ∧ addressSpace ≤ length + call.width

instance (call : Append) (length : Nat) : Decidable (call.Stops length) :=
  inferInstanceAs (Decidable (_ ∧ _))

/-- How a call to a buffer of this length turns out. -/
def answer (call : Append) (length : Nat) : Except BitsError Unit :=
  if call.Stops length then .error .overflow else call.bits.map fun _ => ()

end Append

/-- Append a cell. The buffer is returned in every case. -/
def append (buffer : BitBuffer) (call : Append) : Except BitsError Unit × BitBuffer :=
  match call.cell with
  | .number value =>
      match buffer.push value call.width with
      | .ok next => (.ok (), next)
      | .error refusal => (.error refusal, buffer)
  | .digits sequence => buffer.pushDigits sequence call.width

/-- The buffer after a history of calls, the latest of which comes first. -/
def after : List Append → BitBuffer
  | [] => empty
  | call :: earlier => ((after earlier).append call).2

/-- No call of a history has stopped the program. -/
def Runs : List Append → Prop
  | [] => True
  | call :: earlier => ((after earlier).append call).1 ≠ .error .overflow ∧ Runs earlier

theorem get_eq (buffer : BitBuffer) (position width : Nat) :
    buffer.get position width =
      if position + width ≤ buffer.length then
        .ok (some (Bits.toWord ((buffer.contents.drop position).take width)))
      else if addressSpace ≤ position + width then .error .overflow
      else .ok none := by
  rw [get]
  split
  · rfl
  · split
    · rename_i large
      rw [checked_of_le large]
      rfl
    · rename_i small
      rw [checked_of_lt (Nat.lt_of_not_le small)]
      rfl

/-- The digits that reading single bits yields, from a position up to the first that has none. -/
def iterate (buffer : BitBuffer) (position : Nat) : List UInt8 :=
  match read : buffer.get position 1 with
  | .ok (some bit) => bit.toUInt8 :: iterate buffer (position + 1)
  | _ => []
termination_by buffer.length - position
decreasing_by
  rw [get_eq] at read
  split at read
  · omega
  · split at read <;> simp at read

/-- What a buffer answers that holds exactly these bits. -/
structure Reads (buffer : BitBuffer) (bits : List Bool) : Prop where
  length : buffer.length = bits.length
  get : ∀ position width, position + width ≤ bits.length →
    buffer.get position width = .ok (some (Bits.toWord ((bits.drop position).take width)))
  none : ∀ position width, buffer.get position width = .ok none ↔
    bits.length < position + width ∧ position + width < addressSpace
  /-- Past the end the program stops at a position that is no number of the machine. -/
  stops : ∀ position width, buffer.get position width = .error .overflow ↔
    bits.length < position + width ∧ addressSpace ≤ position + width
  digits : buffer.iterate 0 = Bits.toDigits bits

/-- The bytes end with the contents, up to zeros in the last one. -/
structure Sealed (buffer : BitBuffer) : Prop where
  length : buffer.bytes.length = (buffer.length + 7) / 8
  zeros : ∀ bit ∈ (Bytes.unpack buffer.bytes).drop buffer.length, bit = false

section Histories

/-- Widths of the accepted calls, added up. -/
def total (history : List Append) : Nat :=
  ((history.filter Append.accepted).map Append.width).sum

/-- What the accepted calls append, one behind the other. -/
def appended : List Append → List Bool
  | [] => []
  | call :: earlier => appended earlier ++ call.granted

/-- The bit that refused calls have left at a distance behind the end: that of the latest one
    that reaches so far. An accepted call moves the end. -/
def left : List Append → Nat → Bool
  | [], _ => false
  | call :: earlier, distance =>
    if call.accepted then left earlier (call.width + distance)
    else if call.Oversized then left earlier distance
    else call.own[distance]?.getD (left earlier distance)

/-- The bits in the place of the contents: an accepted call brings its own, and behind them it
    takes in what was left there. -/
def exposed : List Append → List Bool
  | [] => []
  | call :: earlier =>
    if call.accepted then
      exposed earlier ++
        (List.range call.width).map fun index => call.own[index]?.getD (left earlier index)
    else exposed earlier

/-- The bytes that were made, for refused sequences too. -/
def reserved : List Append → Nat
  | [] => 0
  | call :: earlier =>
    if call.Oversized then reserved earlier
    else max (reserved earlier) ((total earlier + call.width + 7) / 8)

/-- Refused calls have left no mark that shows. -/
structure Unmarked (history : List Append) : Prop where
  /-- No sequence has taken in a bit that was left behind the end. -/
  inside : ∀ call earlier, call :: earlier <:+ history → call.accepted = true →
    ∀ index, call.own.length ≤ index → index < call.width → left earlier index = false
  behind : ∀ distance, left history distance = false
  bytes : reserved history ≤ (total history + 7) / 8

/-- Every refused call is an oversized one. -/
def Harmless (history : List Append) : Prop :=
  ∀ call ∈ history, ¬ call.Oversized → call.accepted = true

end Histories

section Calls

variable {call : Append}

theorem Append.bits_number (value : UInt64) (width : Nat) :
    (Append.mk (.number value) width).bits =
      if Bits.fits value width then .ok (Bits.ofWord width value)
      else .error (.valueOverflow value width) := rfl

theorem Append.bits_digits (sequence : List UInt8) (width : Nat) :
    (Append.mk (.digits sequence) width).bits =
      if width < sequence.length then .error (.fieldOverflow sequence.length 0 width)
      else (Bits.ofDigits sequence).map (Bits.extend · width) := rfl

/-- A word is oversized when it does not fit. -/
theorem Append.oversized_number {value : UInt64} {width : Nat} :
    (Append.mk (.number value) width).Oversized ↔ ¬ Bits.fits value width = true := by
  simp [Bits.fits, Append.Oversized, Cell.required]

theorem Append.accepted_of_ok {bits : List Bool} (granted : call.bits = .ok bits) :
    call.accepted = true := by
  rw [accepted, granted]
  rfl

theorem Append.refused_of_error {refusal : BitsError} (refused : call.bits = .error refusal) :
    ¬ call.accepted = true := by
  rw [accepted, refused]
  exact Bool.false_ne_true

/-- A call is accepted when its cell fits the width and its digits are bits. -/
theorem Append.accepted_iff :
    call.accepted = true ↔ call.cell.required ≤ call.width ∧ call.cell.IsBinary := by
  constructor
  · intro accepted
    cases granted : call.bits with
    | ok bits =>
      obtain ⟨room, binary, -⟩ := Cell.bits_eq_ok.mp granted
      exact ⟨room, binary⟩
    | error refusal => exact absurd accepted (Append.refused_of_error granted)
  · rintro ⟨room, binary⟩
    exact Append.accepted_of_ok (Cell.bits_eq_ok.mpr ⟨room, binary, rfl⟩)

/-- An accepted call adds the bits of its cell. -/
theorem Append.granted_of_accepted (accepted : call.accepted = true) :
    call.granted = (List.range call.width).map call.cell.bit := by
  obtain ⟨room, binary⟩ := Append.accepted_iff.mp accepted
  have granted : call.bits = .ok ((List.range call.width).map call.cell.bit) :=
    Cell.bits_eq_ok.mpr ⟨room, binary, rfl⟩
  simp [Append.granted, granted]

/-- A refused call adds nothing. -/
theorem Append.granted_of_refused (refused : ¬ call.accepted = true) : call.granted = [] := by
  cases granted : call.bits with
  | ok bits => exact absurd (Append.accepted_of_ok granted) refused
  | error refusal => simp [Append.granted, granted]

/-- What an accepted call writes lies in its width. -/
theorem Append.not_oversized (accepted : call.accepted = true) : ¬ call.Oversized :=
  Nat.not_lt.mpr (Append.accepted_iff.mp accepted).1

/-- A call that is not refused at once writes no more bits than its width. -/
theorem Append.length_own (room : ¬ call.Oversized) : call.own.length ≤ call.width := by
  obtain ⟨cell, width⟩ := call
  cases cell with
  | number value => simp [own, Bits.ofWord]
  | digits sequence =>
    have room : sequence.length ≤ width := Nat.not_lt.mp room
    simp only [own, Bits.leading, List.length_map]
    exact (List.takeWhile_sublist _).length_le.trans room

theorem leading_cons_of_ok {digit : UInt8} {rest : List UInt8} {bit : Bool}
    (read : Bits.ofDigit digit = .ok bit) :
    Bits.leading (digit :: rest) = bit :: Bits.leading rest := by
  obtain ⟨binary, rfl⟩ := Table.ofDigit_eq_ok.mp read
  simp [Bits.leading, List.takeWhile_cons_of_pos, binary]

theorem leading_cons_of_error {digit : UInt8} {rest : List UInt8} {refusal : BitsError}
    (read : Bits.ofDigit digit = .error refusal) : Bits.leading (digit :: rest) = [] := by
  have other : ¬ (digit = 0 ∨ digit = 1) := by
    intro binary
    rw [Table.ofDigit_eq_ok.mpr ⟨binary, rfl⟩] at read
    simp at read
  simp [Bits.leading, other]

/-- Digits are refused for the first that is no bit. -/
theorem ofDigits_cons_of_error {digit : UInt8} {rest : List UInt8} {refusal : BitsError}
    (read : Bits.ofDigit digit = .error refusal) :
    Bits.ofDigits (digit :: rest) = .error refusal := by
  simp only [Bits.ofDigits, List.mapM_cons, read]
  rfl

theorem ofDigits_ne_overflow {sequence : List UInt8} :
    Bits.ofDigits sequence ≠ .error .overflow := by
  induction sequence with
  | nil => simp [Bits.ofDigits, pure, Except.pure]
  | cons digit rest ih =>
    cases read : Bits.ofDigit digit with
    | ok bit =>
      rw [Table.ofDigits_cons read]
      cases others : Bits.ofDigits rest <;> simp_all [Except.map]
    | error refusal =>
      rw [ofDigits_cons_of_error read]
      simp only [Bits.ofDigit] at read
      split at read
      · contradiction
      · split at read
        · contradiction
        · simp [← Except.error.inj read]

/-- The digits before the first that is no bit are all of them when all are bits. -/
theorem leading_eq {sequence : List UInt8} {bits : List Bool}
    (read : Bits.ofDigits sequence = .ok bits) : Bits.leading sequence = bits := by
  obtain ⟨binary, rfl⟩ := Table.ofDigits_eq_ok.mp read
  rw [Bits.leading, List.takeWhile_eq_self_iff.mpr (by simpa using binary)]

/-- An accepted call writes the bits of its cell; those that it does not write are zeros. -/
theorem Append.own_getD (accepted : call.accepted = true) {index : Nat}
    (inside : index < call.width) : call.own[index]?.getD false = call.cell.bit index := by
  obtain ⟨-, binary⟩ := Append.accepted_iff.mp accepted
  obtain ⟨cell, width⟩ := call
  cases cell with
  | number value =>
    have inside : index < width := inside
    simp [own, Bits.ofWord, Bits.ofNat, Cell.bit, inside]
  | digits sequence =>
    have own : Bits.leading sequence = sequence.map fun digit => decide (digit = 1) :=
      leading_eq (Table.ofDigits_eq_ok.mpr ⟨binary, rfl⟩)
    simp only [Append.own, own, Cell.bit, List.getElem?_map]
    cases sequence[index]? <;> simp

end Calls

section Steps

variable {buffer : BitBuffer} {call : Append}

/-- The stored bits behind the end once a call has written its own over them. -/
def laid (buffer : BitBuffer) (call : Append) : List Bool :=
  call.own ++ (buffer.room call.width).drop call.own.length

/-- A call at which the program stops changes nothing. -/
theorem append_of_stops (stops : call.Stops buffer.length) :
    buffer.append call = (.error .overflow, buffer) := by
  obtain ⟨room, large⟩ := stops
  obtain ⟨cell, width⟩ := call
  cases cell with
  | number value =>
    have fits : Bits.fits value width = true := not_not.mp (mt Append.oversized_number.mpr room)
    have large : addressSpace ≤ buffer.length + width := large
    simp only [append, push, fits, if_true, checked_of_le large]
    rfl
  | digits sequence =>
    have short : ¬ width < sequence.length := room
    have large : addressSpace ≤ buffer.length + width := large
    simp only [append, pushDigits, if_neg short, if_pos large]

/-- All that any other call can do: whether it is refused depends on the call alone, an oversized
    one changes nothing, and the others write what is theirs; only an accepted one moves the
    end. -/
theorem append_eq (runs : ¬ call.Stops buffer.length) :
    buffer.append call = (call.bits.map fun _ => (),
      if call.Oversized then buffer
      else if call.accepted then
        ⟨buffer.contents ++ (buffer.laid call).take call.width, (buffer.laid call).drop call.width⟩
      else ⟨buffer.contents, buffer.laid call⟩) := by
  obtain ⟨cell, width⟩ := call
  cases cell with
  | number value =>
    have own : (Append.mk (.number value) width).own.length = width := by
      simp [Append.own, Bits.ofWord]
    by_cases fits : Bits.fits value width = true
    · have granted := Append.bits_number value width
      rw [if_pos fits] at granted
      have accepted := Append.accepted_of_ok granted
      have small : buffer.length + width < addressSpace :=
        Nat.lt_of_not_le fun large => runs ⟨Append.not_oversized accepted, large⟩
      rw [if_neg (Append.not_oversized accepted), if_pos accepted, granted, laid,
        List.take_left' own, List.drop_left' own, own]
      simp only [append, push, fits, if_true, checked_of_lt small]
      rfl
    · rw [if_pos (Append.oversized_number.mpr fits), Append.bits_number, if_neg fits]
      simp [append, push, fits, Except.map]
  | digits sequence =>
    by_cases long : width < sequence.length
    · rw [if_pos (show (Append.mk (.digits sequence) width).Oversized from long),
        Append.bits_digits, if_pos long]
      simp [append, pushDigits, long, Except.map]
    · have bits := Append.bits_digits sequence width
      have small : ¬ addressSpace ≤ buffer.length + width := fun large => runs ⟨long, large⟩
      rw [if_neg long] at bits
      rw [if_neg (show ¬ (Append.mk (.digits sequence) width).Oversized from long), bits]
      cases read : Bits.ofDigits sequence with
      | ok own =>
        rw [read] at bits
        rw [if_pos (Append.accepted_of_ok bits)]
        obtain rfl := leading_eq read
        simp [append, pushDigits, long, small, read, Except.map, laid, Append.own]
      | error refusal =>
        rw [read] at bits
        rw [if_neg (Append.refused_of_error bits)]
        simp [append, pushDigits, long, small, read, Except.map, laid, Append.own]

/-- Room is made in whole bytes. -/
theorem length_room (width : Nat) :
    buffer.contents.length + (buffer.room width).length =
      max (buffer.contents.length + buffer.beyond.length)
        (8 * ((buffer.contents.length + width + 7) / 8)) := by
  simp only [room, length, Bits.length_extend]
  omega

/-- A bit that is not stored is a zero in room that is made for it. -/
theorem room_getD (width index : Nat) :
    (buffer.room width)[index]?.getD false = buffer.beyond[index]?.getD false := by
  rw [room, Bits.extend, List.getElem?_append]
  by_cases stored : index < buffer.beyond.length
  · rw [if_pos stored]
  · rw [if_neg stored, List.getElem?_eq_none (Nat.le_of_not_lt stored)]
    cases zero : (List.replicate _ false)[index - buffer.beyond.length]? with
    | none => rfl
    | some bit => exact List.eq_of_mem_replicate (List.mem_of_getElem? zero)

/-- What a call writes stands in front of what was stored. -/
theorem laid_getD (index : Nat) :
    (buffer.laid call)[index]?.getD false =
      call.own[index]?.getD (buffer.beyond[index]?.getD false) := by
  rw [laid, List.getElem?_append]
  by_cases written : index < call.own.length
  · rw [if_pos written, List.getElem?_eq_getElem written]
    rfl
  · rw [if_neg written, List.getElem?_drop, Nat.add_sub_cancel' (Nat.le_of_not_lt written),
      room_getD, List.getElem?_eq_none (Nat.le_of_not_lt written)]
    rfl

/-- What a call writes takes no more room than was made. -/
theorem length_laid (room : ¬ call.Oversized) :
    call.width ≤ (buffer.laid call).length ∧
      (buffer.laid call).length = (buffer.room call.width).length := by
  have own := Append.length_own room
  have made := buffer.length_room call.width
  rw [laid, List.length_append, List.length_drop]
  omega

end Steps

section Runs

variable {buffer : BitBuffer} {history earlier : List Append} {call : Append}

theorem total_of_accepted (accepted : call.accepted = true) :
    total (call :: earlier) = total earlier + call.width := by
  rw [total, List.filter_cons_of_pos accepted, List.map_cons, List.sum_cons, Nat.add_comm, total]

theorem total_of_refused (refused : ¬ call.accepted = true) :
    total (call :: earlier) = total earlier := by
  rw [total, List.filter_cons_of_neg refused, total]

/-- The contents are as long as the accepted calls are wide. -/
theorem length_exposed (history : List Append) : (exposed history).length = total history := by
  induction history with
  | nil => rfl
  | cons call earlier ih =>
    by_cases accepted : call.accepted = true
    · rw [exposed, if_pos accepted, List.length_append, ih, List.length_map, List.length_range,
        total_of_accepted accepted]
    · rw [exposed, if_neg accepted, ih, total_of_refused accepted]

/-- So are the bits of the accepted calls. -/
theorem length_appended (history : List Append) : (appended history).length = total history := by
  induction history with
  | nil => rfl
  | cons call earlier ih =>
    by_cases accepted : call.accepted = true
    · rw [appended, Append.granted_of_accepted accepted, List.length_append, ih, List.length_map,
        List.length_range, total_of_accepted accepted]
    · rw [appended, Append.granted_of_refused accepted, List.append_nil, ih,
        total_of_refused accepted]

/-- A buffer that is as its history says, in contents, stored bits and bytes. -/
structure Tracks (buffer : BitBuffer) (history : List Append) : Prop where
  contents : buffer.contents = exposed history
  beyond : ∀ distance, buffer.beyond[distance]?.getD false = left history distance
  whole : buffer.contents.length + buffer.beyond.length = 8 * reserved history

/-- One more call keeps a buffer as its history says. -/
theorem Tracks.append (tracks : buffer.Tracks earlier) (runs : ¬ call.Stops buffer.length) :
    (buffer.append call).2.Tracks (call :: earlier) := by
  have length : buffer.contents.length = total earlier := by
    rw [tracks.contents, length_exposed]
  rw [append_eq runs]
  by_cases oversized : call.Oversized
  · have refused : ¬ call.accepted = true := fun accepted => Append.not_oversized accepted oversized
    rw [if_pos oversized]
    constructor
    · rw [exposed, if_neg refused]
      exact tracks.contents
    · intro distance
      rw [left, if_neg refused, if_pos oversized]
      exact tracks.beyond distance
    · rw [reserved, if_pos oversized]
      exact tracks.whole
  · obtain ⟨wide, made⟩ := buffer.length_laid oversized
    have own := Append.length_own oversized
    have stored : ∀ index, (buffer.laid call)[index]?.getD false =
        call.own[index]?.getD (left earlier index) := by
      intro index
      rw [laid_getD, tracks.beyond]
    have whole : buffer.contents.length + (buffer.laid call).length =
        8 * reserved (call :: earlier) := by
      rw [made, length_room, tracks.whole, length, reserved, if_neg oversized,
        Nat.mul_max_mul_left]
    rw [if_neg oversized]
    by_cases accepted : call.accepted = true
    · rw [if_pos accepted]
      constructor
      · rw [exposed, if_pos accepted, ← tracks.contents, List.append_cancel_left_eq]
        refine List.ext_getElem (by simpa using wide) fun index inside inside' => ?_
        have bit := stored index
        rw [List.getElem?_eq_getElem (by simp at inside; omega), Option.getD_some] at bit
        simpa using bit
      · intro distance
        rw [left, if_pos accepted, List.getElem?_drop, stored, List.getElem?_eq_none (by omega)]
        rfl
      · rw [List.length_append, List.length_take, List.length_drop, ← whole]
        omega
    · rw [if_neg accepted]
      constructor
      · rw [exposed, if_neg accepted]
        exact tracks.contents
      · intro distance
        rw [left, if_neg accepted, if_neg oversized]
        exact stored distance
      · exact whole

/-- A refusal is no stop. -/
theorem Append.bits_ne_overflow (call : Append) : call.bits ≠ .error .overflow := by
  obtain ⟨cell, width⟩ := call
  cases cell with
  | number value =>
    rw [Append.bits_number]
    split <;> simp
  | digits sequence =>
    rw [Append.bits_digits]
    split
    · simp
    · cases read : Bits.ofDigits sequence with
      | ok own => simp [Except.map]
      | error refusal =>
        intro same
        obtain rfl : refusal = .overflow := Except.error.inj same
        exact ofDigits_ne_overflow read

/-- How a call turns out depends on the length of the buffer and on nothing else in it. -/
theorem append_answer (buffer : BitBuffer) (call : Append) :
    (buffer.append call).1 = call.answer buffer.length := by
  by_cases stops : call.Stops buffer.length
  · rw [append_of_stops stops, Append.answer, if_pos stops]
  · rw [append_eq stops, Append.answer, if_neg stops]

/-- The program stops at no other calls. -/
theorem Append.answer_eq_overflow {length : Nat} :
    call.answer length = .error .overflow ↔ call.Stops length := by
  rw [answer]
  split
  · rename_i stops
    exact iff_of_true rfl stops
  · rename_i runs
    have refused := call.bits_ne_overflow
    cases granted : call.bits <;> simp_all [Except.map]

theorem Runs.not_stops (runs : Runs (call :: earlier)) : ¬ call.Stops (after earlier).length := by
  have answered := runs.1
  rwa [append_answer, ne_eq, Append.answer_eq_overflow] at answered

/-- After every history the buffer is as the history says. -/
theorem tracks_after {history : List Append} (runs : Runs history) :
    (after history).Tracks history := by
  induction history with
  | nil => exact ⟨rfl, fun _ => rfl, rfl⟩
  | cons call earlier ih => exact (ih runs.2).append runs.not_stops

theorem length_after {history : List Append} (runs : Runs history) :
    (after history).length = total history := by
  rw [length, (tracks_after runs).contents, length_exposed]

/-- Reading single bits yields the contents from the position on. -/
theorem iterate_eq (buffer : BitBuffer) (position : Nat) :
    buffer.iterate position = Bits.toDigits (buffer.contents.drop position) := by
  by_cases inside : position < buffer.contents.length
  · have here : buffer.contents.drop position =
        buffer.contents[position] :: buffer.contents.drop (position + 1) :=
      List.drop_eq_getElem_cons inside
    have read : buffer.get position 1 = .ok (some (Bits.toWord [buffer.contents[position]])) := by
      rw [get_eq, length, if_pos (Nat.succ_le_of_lt inside), here]
      rfl
    have others := buffer.iterate_eq (position + 1)
    rw [iterate]
    split
    · rename_i bit found
      obtain rfl := Option.some.inj (Except.ok.inj (read.symm.trans found))
      rw [here, others, Bits.toDigits, Bits.toDigits, List.map_cons]
      cases buffer.contents[position] <;> rfl
    · rename_i unread
      exact absurd read (unread _)
  · have unread (bit : UInt64) : buffer.get position 1 ≠ .ok (some bit) := by
      rw [get_eq, length, if_neg (by omega)]
      split <;> simp
    rw [iterate, List.drop_of_length_le (Nat.le_of_not_lt inside)]
    split
    · rename_i bit found
      exact absurd found (unread bit)
    · rfl
termination_by buffer.contents.length - position

/-- A buffer answers what its contents are. -/
theorem reads_contents (buffer : BitBuffer) : buffer.Reads buffer.contents := by
  constructor
  case length => rfl
  case get =>
    intro position width inside
    rw [get_eq, length, if_pos inside]
  case none =>
    intro position width
    rw [get_eq, length]
    split
    · simp
      omega
    · split
      · simp
        omega
      · simp
        omega
  case stops =>
    intro position width
    rw [get_eq, length]
    split
    · simp
      omega
    · split
      · simp
        omega
      · simp
        omega
  case digits => exact buffer.iterate_eq 0

/-- The answers tell the bits. -/
theorem Reads.unique {first second : List Bool} (one : buffer.Reads first)
    (other : buffer.Reads second) : first = second := by
  have injective : Function.Injective fun bit : Bool => if bit then (1 : UInt8) else 0 := by
    intro one other
    cases one <;> cases other <;> simp
  exact injective.list_map (one.digits.symm.trans other.digits)

/-- An accepted call takes in the bits of its cell exactly when it takes in no bit that was left
    behind the end. -/
theorem taken_iff (accepted : call.accepted = true) :
    ((List.range call.width).map fun index => call.own[index]?.getD (left earlier index)) =
        call.granted ↔
      ∀ index, call.own.length ≤ index → index < call.width → left earlier index = false := by
  rw [Append.granted_of_accepted accepted, List.map_inj_left]
  constructor
  · intro same index past inside
    have bit := Append.own_getD accepted inside
    have here := same index (List.mem_range.mpr inside)
    rw [List.getElem?_eq_none past] at bit here
    exact here.trans bit.symm
  · intro zeros index present
    have inside := List.mem_range.mp present
    rw [← Append.own_getD accepted inside]
    by_cases written : index < call.own.length
    · rw [List.getElem?_eq_getElem written]
      rfl
    · rw [zeros index (Nat.le_of_not_lt written) inside]

/-- The contents are what the accepted calls append exactly when none of them has taken in a bit
    that was left behind the end. -/
theorem exposed_eq_appended_iff (history : List Append) :
    exposed history = appended history ↔
      ∀ call earlier, call :: earlier <:+ history → call.accepted = true →
        ∀ index, call.own.length ≤ index → index < call.width → left earlier index = false := by
  induction history with
  | nil => simp [exposed, appended]
  | cons latest before ih =>
    have lengths : (exposed before).length = (appended before).length := by
      rw [length_exposed, length_appended]
    have split : exposed (latest :: before) = appended (latest :: before) ↔
        exposed before = appended before ∧ (latest.accepted = true →
          ∀ index, latest.own.length ≤ index → index < latest.width → left before index = false) := by
      by_cases accepted : latest.accepted = true
      · rw [exposed, if_pos accepted, appended, ← taken_iff accepted]
        constructor
        · intro same
          obtain ⟨behind, here⟩ := List.append_inj same lengths
          exact ⟨behind, fun _ => here⟩
        · rintro ⟨behind, here⟩
          rw [behind, here accepted]
      · rw [exposed, if_neg accepted, appended, Append.granted_of_refused accepted, List.append_nil]
        simp [accepted]
    rw [split, ih]
    constructor
    · rintro ⟨behind, here⟩ call earlier ending
      rcases List.suffix_cons_iff.mp ending with whole | inner
      · obtain ⟨rfl, rfl⟩ := List.cons.inj whole
        exact here
      · exact behind call earlier inner
    · intro all
      constructor
      · intro call earlier inner
        exact all call earlier (inner.trans (List.suffix_cons ..))
      · exact all latest before List.suffix_rfl

/-- The stored bits are the contents and what stands behind them. -/
theorem unpack_bytes (whole : 8 ∣ buffer.contents.length + buffer.beyond.length) :
    Bytes.unpack buffer.bytes = buffer.contents ++ buffer.beyond :=
  Bytes.unpack_pack_of_dvd (by rwa [List.length_append])

/-- The bytes end with the contents exactly when refused calls have left no bit behind the end
    and made no further byte. -/
theorem Tracks.sealed_iff (tracks : buffer.Tracks history) :
    buffer.Sealed ↔
      (∀ distance, left history distance = false) ∧ reserved history ≤ (total history + 7) / 8 := by
  have whole := tracks.whole
  have length : buffer.contents.length = total history := by
    rw [tracks.contents, length_exposed]
  have bytes : buffer.bytes.length = reserved history := by
    rw [BitBuffer.bytes, Bytes.length_pack, List.length_append]
    omega
  have behind : (Bytes.unpack buffer.bytes).drop buffer.length = buffer.beyond := by
    rw [unpack_bytes (by omega), BitBuffer.length, List.drop_left' rfl]
  have zeros : (∀ bit ∈ buffer.beyond, bit = false) ↔ ∀ distance, left history distance = false := by
    simp only [← tracks.beyond]
    constructor
    · intro all distance
      cases found : buffer.beyond[distance]? with
      | none => rfl
      | some bit => exact all bit (List.mem_of_getElem? found)
    · intro all bit present
      obtain ⟨distance, found⟩ := List.mem_iff_getElem?.mp present
      simpa [found] using all distance
  constructor
  · rintro ⟨count, clear⟩
    rw [behind] at clear
    rw [BitBuffer.length, bytes, length] at count
    exact ⟨zeros.mp clear, count.le⟩
  · rintro ⟨clear, atMost⟩
    constructor
    · rw [BitBuffer.length, bytes, length]
      omega
    · rw [behind]
      exact zeros.mpr clear

end Runs

section Marks

variable {buffer other : BitBuffer} {history : List Append} {call : Append}

theorem Harmless.tail (harmless : Harmless (call :: history)) : Harmless history :=
  fun earlier present => harmless earlier (List.mem_cons_of_mem _ present)

/-- Oversized calls leave nothing behind the end. -/
theorem Harmless.left_eq_false (harmless : Harmless history) (distance : Nat) :
    left history distance = false := by
  induction history generalizing distance with
  | nil => rfl
  | cons call earlier ih =>
    have others := ih harmless.tail
    by_cases accepted : call.accepted = true
    · rw [left, if_pos accepted]
      exact others _
    · have oversized : call.Oversized := by
        by_contra room
        exact accepted (harmless call List.mem_cons_self room)
      rw [left, if_neg accepted, if_pos oversized]
      exact others distance

/-- Nor do they make a byte that the contents do not reach. -/
theorem Harmless.reserved_le (harmless : Harmless history) :
    reserved history ≤ (total history + 7) / 8 := by
  induction history with
  | nil => rfl
  | cons call earlier ih =>
    have others := ih harmless.tail
    by_cases oversized : call.Oversized
    · have refused : ¬ call.accepted = true := fun accepted =>
        Append.not_oversized accepted oversized
      rw [reserved, if_pos oversized, total_of_refused refused]
      exact others
    · have accepted := harmless call List.mem_cons_self oversized
      rw [reserved, if_neg oversized, total_of_accepted accepted]
      omega

/-- So they leave no mark. -/
theorem Harmless.unmarked (harmless : Harmless history) : Unmarked history := by
  constructor
  case inside =>
    intro call earlier ending _ index _ _
    apply Harmless.left_eq_false
    intro other present
    exact harmless other (ending.mem (List.mem_cons_of_mem _ present))
  case behind => exact harmless.left_eq_false
  case bytes => exact harmless.reserved_le

/-- What accepted calls append does not depend on the refused ones between them. -/
theorem appended_filter (history : List Append) :
    appended (history.filter Append.accepted) = appended history := by
  induction history with
  | nil => rfl
  | cons call earlier ih =>
    by_cases accepted : call.accepted = true
    · rw [List.filter_cons_of_pos accepted, appended, ih, appended]
    · rw [List.filter_cons_of_neg accepted, ih, appended, Append.granted_of_refused accepted,
        List.append_nil]

/-- A history tells the buffer. -/
theorem Tracks.unique {later : List Append} (tracks : buffer.Tracks history)
    (others : other.Tracks later) (contents : exposed history = exposed later)
    (beyond : ∀ distance, left history distance = left later distance)
    (bytes : reserved history = reserved later) : buffer = other := by
  have sameContents : buffer.contents = other.contents := by
    rw [tracks.contents, contents, others.contents]
  have length : buffer.beyond.length = other.beyond.length := by
    have whole := tracks.whole
    rw [bytes, ← others.whole, sameContents] at whole
    omega
  have sameBeyond : buffer.beyond = other.beyond := by
    apply List.ext_getElem length
    intro distance inside inside'
    have bit := (tracks.beyond distance).trans ((beyond distance).trans (others.beyond distance).symm)
    rwa [List.getElem?_eq_getElem inside, List.getElem?_eq_getElem inside'] at bit
  cases buffer
  cases other
  exact congrArg₂ BitBuffer.mk sameContents sameBeyond

/-- A buffer has bytes for all its contents. -/
theorem le_reserved (runs : Runs history) : (total history + 7) / 8 ≤ reserved history := by
  have tracks := tracks_after runs
  have whole := tracks.whole
  rw [tracks.contents, length_exposed] at whole
  omega

theorem total_filter (history : List Append) :
    total (history.filter Append.accepted) = total history := by
  rw [← length_appended, appended_filter, length_appended]

/-- The accepted calls run without the others, since these do not move the end. -/
theorem Runs.filter (runs : Runs history) : Runs (history.filter Append.accepted) := by
  induction history with
  | nil => exact trivial
  | cons call earlier ih =>
    have others := ih runs.2
    by_cases accepted : call.accepted = true
    · rw [List.filter_cons_of_pos accepted]
      refine ⟨?_, others⟩
      have inside := runs.not_stops
      rw [length_after runs.2] at inside
      rw [append_answer, length_after others, total_filter, ne_eq, Append.answer_eq_overflow]
      exact inside
    · rw [List.filter_cons_of_neg accepted]
      exact others

/-- Refused calls have left no mark exactly when the buffer is the one that the accepted calls
    alone would have made. -/
theorem unmarked_iff_after_eq (runs : Runs history) :
    Unmarked history ↔ after history = after (history.filter Append.accepted) := by
  have harmless : Harmless (history.filter Append.accepted) := by
    intro call present _
    exact (List.mem_filter.mp present).2
  have alone := harmless.unmarked
  have own : exposed (history.filter Append.accepted) = appended history := by
    rw [(exposed_eq_appended_iff _).mpr alone.inside, appended_filter]
  have tracks := tracks_after runs
  have others := tracks_after runs.filter
  constructor
  · intro unmarked
    apply tracks.unique others
    · rw [own, (exposed_eq_appended_iff history).mpr unmarked.inside]
    · intro distance
      rw [unmarked.behind, alone.behind]
    · have here := le_antisymm unmarked.bytes (le_reserved runs)
      have there := le_antisymm alone.bytes (le_reserved runs.filter)
      rw [here, there, total_filter]
  · intro same
    constructor
    case inside =>
      rw [← exposed_eq_appended_iff, ← own, ← tracks.contents, same, others.contents]
    case behind =>
      intro distance
      rw [← tracks.beyond, same, others.beyond, alone.behind]
    case bytes =>
      have bytes : reserved history = reserved (history.filter Append.accepted) := by
        have whole := tracks.whole
        rw [same, others.whole] at whole
        omega
      rw [bytes, ← total_filter]
      exact alone.bytes

end Marks

end BitBuffer

end BinaryLayout
