import BinaryLayout.Overflow
import BinaryLayout.Proofs.NarrowReaders

/-!
# Tables read from arbitrary bytes

A header may come from any bytes. Its columns may run backwards or past the entry, an entry may
take no bits at all, and the table may be another one than the header was taken from. Here a
cell is read as a machine reads it: slots and bytes are looked up by their index, bits are
shifted out one by one, and the program stops at a position that is no number of the machine. No
look-up ever misses. A cell has an answer exactly when its bits lie in the bytes behind the
header, and the answer is made of these bits.
-/

namespace BinaryLayout

/-- The bit at a position is one of the eight bits of its byte. -/
theorem Bytes.unpack_getElem? (bytes : List UInt8) (position : Nat) :
    (unpack bytes)[position]? =
      bytes[position / 8]?.map fun byte => byte.toNat.testBit (position % 8) := by
  induction bytes generalizing position with
  | nil => rfl
  | cons byte rest ih =>
    by_cases first : position < 8
    · have zero : position / 8 = 0 := Nat.div_eq_of_lt first
      have low : position % 8 = position := Nat.mod_eq_of_lt first
      rw [unpack_cons, List.getElem?_append_left (by simpa using first), zero, low]
      simp [bits, Bits.ofNat, first]
    · have later : position / 8 = (position - 8) / 8 + 1 := by omega
      have same : position % 8 = (position - 8) % 8 := by omega
      rw [unpack_cons, List.getElem?_append_right (by simpa using first), length_bits, ih, later,
        same, List.getElem?_cons_succ]

/-- Shifted out and masked, a bit of a byte is all that is left of it. -/
theorem Bytes.shifted_and_one (byte : UInt8) {index : Nat} (inByte : index < 8) :
    (byte >>> UInt8.ofNat index) &&& 1 = if byte.toNat.testBit index then 1 else 0 := by
  have amount : (UInt8.ofNat index).toNat % 8 = index := by
    rw [UInt8.toNat_ofNat', Nat.mod_mod_of_dvd _ (by decide)]
    exact Nat.mod_eq_of_lt inByte
  have lone : ((byte >>> UInt8.ofNat index) &&& 1).toNat = (byte.toNat.testBit index).toNat := by
    rw [UInt8.toNat_and, UInt8.toNat_shiftRight, amount, Nat.shiftRight_eq_div_pow,
      Nat.toNat_testBit]
    exact Nat.and_one_is_mod _
  rw [← UInt8.toNat_inj, lone]
  cases byte.toNat.testBit index <;> rfl

namespace Window

/-- The bit at a position, shifted to the place that it has in a word. It has none where the
    byte is missing. -/
def placed? (bytes : List UInt8) (position place : Nat) : Option UInt64 :=
  bytes[position / 8]?.map fun byte =>
    ((byte >>> UInt8.ofNat (position % 8)) &&& 1).toUInt64 <<< UInt64.ofNat place

/-- A word collected bit by bit, the lowest one first. -/
def collect? (bytes : List UInt8) (offset : Nat) : (count : Nat) → Option UInt64
  | 0 => some 0
  | count + 1 => do
      let low ← collect? bytes offset count
      let position ← address? (offset + count)
      let bit ← placed? bytes position count
      return low ||| bit

variable {bytes : List UInt8}

/-- A bit that is placed in a word is the only one there. -/
theorem testBit_placed {byte : UInt8} {shift place : Nat} (inByte : shift < 8) (inWord : place < 64)
    (index : Nat) :
    (((byte >>> UInt8.ofNat shift) &&& 1).toUInt64 <<< UInt64.ofNat place).toNat.testBit index =
      (decide (index = place) && byte.toNat.testBit shift) := by
  have lone : ((byte >>> UInt8.ofNat shift) &&& 1).toUInt64.toNat =
      (byte.toNat.testBit shift).toNat := by
    rw [UInt8.toNat_toUInt64, Bytes.shifted_and_one byte inByte]
    cases byte.toNat.testBit shift <;> rfl
  have count : (UInt64.ofNat place).toNat % 64 = place := by
    rw [UInt64.toNat_ofNat', Nat.mod_mod_of_dvd _ (by decide)]
    exact Nat.mod_eq_of_lt inWord
  have small : 2 ^ place < 2 ^ 64 := Nat.pow_lt_pow_right (by decide) inWord
  rw [UInt64.toNat_shiftLeft, count, lone]
  cases byte.toNat.testBit shift with
  | false => simp
  | true =>
    rw [Bool.toNat_true, Nat.one_shiftLeft, Nat.mod_eq_of_lt small, Nat.testBit_two_pow,
      Bool.and_true]
    exact decide_eq_decide.mpr eq_comm

/-- Bits collected one by one are the window read at once, and no byte is missing.

    The induction is on their count. The bit that comes last stands above the bits collected
    before it, which are read by hypothesis. -/
theorem collect?_eq {offset count : Nat} (room : offset + count ≤ 8 * bytes.length)
    (inWord : count ≤ 64) (small : offset + count ≤ addressSpace) :
    collect? bytes offset count =
      some (Bits.toWord (((Bytes.unpack bytes).drop offset).take count)) := by
  induction count with
  | zero => rfl
  | succ count ih =>
    have low := ih (by omega) (by omega) (by omega)
    have within : (offset + count) / 8 < bytes.length := by omega
    have found : bytes[(offset + count) / 8]? = some bytes[(offset + count) / 8] :=
      List.getElem?_eq_getElem within
    rw [collect?, low, address?_eq (by omega)]
    simp only [placed?, found, Option.map_some, Option.bind_eq_bind, Option.bind_some,
      Option.pure_def, Option.some.injEq]
    rw [Bits.eq_iff_testBit]
    intro index below
    have bit : ((Bytes.unpack bytes).drop offset)[count]? =
        some (bytes[(offset + count) / 8].toNat.testBit ((offset + count) % 8)) := by
      rw [List.getElem?_drop, Bytes.unpack_getElem?, found, Option.map_some]
    rw [UInt64.toNat_or, Nat.testBit_or, Bits.testBit_toWord _ below, Bits.testBit_toWord _ below,
      testBit_placed (Nat.mod_lt _ (by decide)) (by omega), List.getElem?_take, List.getElem?_take]
    rcases Nat.lt_trichotomy index count with before | rfl | behind
    · simp [before, before.ne, Nat.lt_succ_of_lt before]
    · simp [bit]
    · have past : ¬ index < count + 1 := by omega
      simp [past, behind.ne', Nat.lt_asymm behind]

end Window

namespace Table.Header

/-- A cell read step by step. The outer option is empty where the program stops: a slot or a byte
    is missing, or a position is no number of the machine. -/
def walk? (header : Header) (table : List UInt8) (entry column : Nat) : Option (Option UInt64) :=
  if header.columns ≤ column then some none
  else do
    let finish ← header.bounds[column + 1]?
    let start ← header.bounds[column]?
    let skipped ← address? (entry * header.stride)
    let first ← address? (start + skipped)
    if table.length < header.payloadOffset then some none
    else do
      let payload := table.drop header.payloadOffset
      let past ← address? (first + (finish - start))
      if payload.length < (past + 7) / 8 then some none
      else (Window.collect? payload first (min (finish - start) 64)).map some

/-- The number of whole entries in a table, counted in numbers of the machine. -/
def room? (header : Header) (table : List UInt8) : Option Nat :=
  if header.stride = 0 then some 0
  else (address? ((table.length - header.payloadOffset) * 8)).map (· / header.stride)

/-- How a header of so many columns reads the cells of a table. -/
structure ReadsWithin (header : Header) (columns : Nat) (table : List UInt8) : Prop where
  /-- Step by step every cell that ends at a number of the machine is read as at once: no slot
      and no byte is missing. -/
  walked : ∀ entry column, (column < columns →
      header.offset column + entry * header.stride + header.width column < addressSpace) →
    ∃ answer, header.read table entry column = .ok answer ∧
      header.walk? table entry column = some answer
  /-- In a table whose bits the machine can count, the program stops at the same cells. -/
  stops : 8 * table.length ≤ addressSpace → ∀ entry column,
    header.walk? table entry column = (header.read table entry column).toOption
  answered : ∀ entry column, (∃ word, header.read table entry column = .ok (some word)) ↔
    column < columns ∧ header.payloadOffset ≤ table.length ∧
      header.offset column + entry * header.stride + header.width column ≤
        8 * (table.length - header.payloadOffset)
  /-- The word has the bits of the cell, the first 64 of them. -/
  bits : ∀ entry column word, header.read table entry column = .ok (some word) →
    ∀ index < min 64 (header.width column), ∃ byte,
      table[header.payloadOffset +
        (header.offset column + entry * header.stride + index) / 8]? = some byte ∧
      word.toNat.testBit index =
        byte.toNat.testBit ((header.offset column + entry * header.stride + index) % 8)
  zeros : ∀ entry column word, header.read table entry column = .ok (some word) →
    ∀ index, min 64 (header.width column) ≤ index → word.toNat.testBit index = false
  /-- A column within the entry is read in every entry for which the table has room. -/
  room : ∀ entry < header.capacity table, ∀ column < columns,
    header.offset column + header.width column ≤ header.stride →
      ∃ word, header.read table entry column = .ok (some word)
  /-- Where the machine can count the entries, it can read them as well. -/
  counted : ∀ count, header.room? table = some count → count = header.capacity table ∧
    ∀ entry < count, ∀ column < columns,
      header.offset column + header.width column ≤ header.stride →
        ∃ word, header.walk? table entry column = some (some word)

variable {header : Header} {table : List UInt8} {entry column : Nat}

/-- A column starts and ends at slots of its header. -/
theorem bounds_getElem?_eq (inside : column < header.columns) :
    header.bounds[column]? = some (header.offset column) ∧
      header.bounds[column + 1]? = some (header.offset (column + 1)) := by
  have listed : column + 1 < header.bounds.length := by
    rw [columns] at inside
    omega
  constructor
  · rw [offset, List.getElem?_eq_getElem (by omega)]
    rfl
  · rw [offset, List.getElem?_eq_getElem listed]
    rfl

/-- A cell has an answer exactly when its bits lie behind the header. -/
theorem exists_read_iff : (∃ word, header.read table entry column = .ok (some word)) ↔
    column < header.columns ∧ header.payloadOffset ≤ table.length ∧
      header.offset column + entry * header.stride + header.width column ≤
        8 * (table.length - header.payloadOffset) := by
  have rounded : ∀ past, (past + 7) / 8 ≤ table.length - header.payloadOffset ↔
      past ≤ 8 * (table.length - header.payloadOffset) := by
    intro past
    omega
  simp only [read_eq_some_iff, List.length_drop, rounded, exists_and_left, exists_eq, and_true]

/-- What the steps of a cell come to: they reach the bytes behind the header from a start, and the
    end of the cell in them, both of which must be numbers of the machine. -/
theorem walk?_eq_ite (inside : column < header.columns) :
    header.walk? table entry column =
      if addressSpace ≤ header.offset column + entry * header.stride then none
      else if table.length < header.payloadOffset then some none
      else if addressSpace ≤
        header.offset column + entry * header.stride + header.width column then none
      else if table.length - header.payloadOffset <
        (header.offset column + entry * header.stride + header.width column + 7) / 8 then some none
      else (Window.collect? (table.drop header.payloadOffset)
        (header.offset column + entry * header.stride) (min (header.width column) 64)).map some := by
  obtain ⟨start, finish⟩ := bounds_getElem?_eq inside
  have width : header.offset (column + 1) - header.offset column = header.width column := rfl
  rw [walk?, if_neg (Nat.not_le.mpr inside)]
  simp only [start, finish, width, Option.bind_eq_bind, Option.bind_some, List.length_drop]
  by_cases far : addressSpace ≤ header.offset column + entry * header.stride
  · rw [if_pos far]
    by_cases skipped : addressSpace ≤ entry * header.stride
    · rw [address?_eq_none skipped]
      rfl
    · rw [address?_eq (Nat.lt_of_not_le skipped), Option.bind_some, address?_eq_none far]
      rfl
  · rw [if_neg far, address?_eq (by omega), Option.bind_some, address?_eq (by omega),
      Option.bind_some]
    by_cases past : addressSpace ≤
        header.offset column + entry * header.stride + header.width column
    · rw [address?_eq_none past, if_pos past]
      rfl
    · rw [address?_eq (Nat.lt_of_not_le past), if_neg past]
      rfl

/-- What a cell reads as at once, in the same cases. -/
theorem read_eq_ite (inside : column < header.columns) :
    header.read table entry column =
      if table.length < header.payloadOffset then
        if addressSpace ≤ header.offset column + entry * header.stride then .error .overflow
        else .ok none
      else if (header.offset column + entry * header.stride + header.width column + 7) / 8 ≤
        table.length - header.payloadOffset then
        .ok (some (Bits.toWord (((Bytes.unpack (table.drop header.payloadOffset)).drop
          (header.offset column + entry * header.stride)).take (header.width column))))
      else if addressSpace ≤
        header.offset column + entry * header.stride + header.width column then .error .overflow
      else .ok none := by
  have missed (number : Nat) : (do
      let _ ← checked BitsError.overflow number
      return (none : Option UInt64)) =
        if addressSpace ≤ number then .error .overflow else .ok none := by
    by_cases large : addressSpace ≤ number
    · rw [checked_of_le large, if_pos large]
      rfl
    · rw [checked_of_lt (Nat.lt_of_not_le large), if_neg large]
      rfl
  by_cases starts : header.payloadOffset ≤ table.length
  · by_cases lies : (header.offset column + entry * header.stride + header.width column + 7) / 8 ≤
        table.length - header.payloadOffset
    · rw [if_neg (Nat.not_lt.mpr starts), if_pos lies]
      exact read_of_inside inside starts (by omega)
    · simp only [read, List.length_drop, missed]
      rw [if_neg (Nat.not_le.mpr inside)]
      simp only [if_neg lies]
  · simp only [read, missed]
    rw [if_neg (Nat.not_le.mpr inside), if_pos (Nat.lt_of_not_le starts),
      if_pos (Nat.lt_of_not_le starts)]

/-- The bits of a cell are collected one by one as they are read at once. -/
theorem collect?_cell (lies : header.offset column + entry * header.stride + header.width column ≤
      8 * (table.length - header.payloadOffset))
    (small : header.offset column + entry * header.stride + header.width column < addressSpace) :
    Window.collect? (table.drop header.payloadOffset)
        (header.offset column + entry * header.stride) (min (header.width column) 64) =
      some (Bits.toWord (((Bytes.unpack (table.drop header.payloadOffset)).drop
        (header.offset column + entry * header.stride)).take (header.width column))) := by
  rw [Window.collect?_eq (by rw [List.length_drop]; omega) (by omega) (by omega), Bits.toWord,
    Bits.toWord, List.take_take, List.take_take]
  congr 4
  omega

/-- Step by step a cell gets its answer, as long as it ends at a number of the machine. -/
theorem exists_walk?_eq (small : column < header.columns →
    header.offset column + entry * header.stride + header.width column < addressSpace) :
    ∃ answer, header.read table entry column = .ok answer ∧
      header.walk? table entry column = some answer := by
  by_cases inside : column < header.columns
  · have fits := small inside
    have near : ¬ addressSpace ≤ header.offset column + entry * header.stride := by omega
    have ends : ¬ addressSpace ≤
        header.offset column + entry * header.stride + header.width column := by omega
    rw [walk?_eq_ite inside, read_eq_ite inside]
    simp only [if_neg near, if_neg ends]
    by_cases short : table.length < header.payloadOffset
    · exact ⟨none, if_pos short, if_pos short⟩
    · rw [if_neg short, if_neg short]
      by_cases lies : (header.offset column + entry * header.stride + header.width column + 7) / 8 ≤
          table.length - header.payloadOffset
      · rw [if_pos lies, if_neg (Nat.not_lt.mpr lies), collect?_cell (by omega) fits]
        exact ⟨_, rfl, rfl⟩
      · exact ⟨none, if_neg lies, if_pos (Nat.lt_of_not_le lies)⟩
  · refine ⟨none, ?_, ?_⟩
    · simp only [read]
      rw [if_pos (Nat.le_of_not_lt inside)]
      rfl
    · rw [walk?, if_pos (Nat.le_of_not_lt inside)]

/-- In a table whose bits the machine can count, no cell within ends past the machine's numbers,
    so the program stops at a cell either way or not at all. -/
theorem walk?_eq_toOption (held : 8 * table.length ≤ addressSpace) :
    header.walk? table entry column = (header.read table entry column).toOption := by
  by_cases small : column < header.columns →
      header.offset column + entry * header.stride + header.width column < addressSpace
  · obtain ⟨answer, read, walked⟩ := @exists_walk?_eq header table entry column small
    rw [read, walked]
    rfl
  · obtain ⟨inside, large⟩ := Classical.not_imp.mp small
    rw [walk?_eq_ite inside, read_eq_ite inside]
    by_cases short : table.length < header.payloadOffset
    · rw [if_pos short, if_pos short]
      split <;> rfl
    · have behind : 0 < header.payloadOffset := by
        rw [payloadOffset]
        omega
      have outside : ¬ (header.offset column + entry * header.stride + header.width column + 7) / 8 ≤
          table.length - header.payloadOffset := by omega
      rw [if_neg short, if_neg short, if_neg outside, if_pos (Nat.le_of_not_lt large),
        if_pos (Nat.le_of_not_lt large), ite_self]
      rfl

/-- An entry for which there is room ends within the bytes behind the header. -/
theorem entry_le (inRoom : entry < header.capacity table) :
    header.payloadOffset ≤ table.length ∧
      entry * header.stride + header.stride ≤ (table.length - header.payloadOffset) * 8 := by
  have positive : 0 < header.stride := by
    rcases Nat.eq_zero_or_pos header.stride with zero | positive
    · rw [capacity, zero, Nat.div_zero] at inRoom
      contradiction
    · exact positive
  have whole : (entry + 1) * header.stride ≤ (table.length - header.payloadOffset) * 8 :=
    (Nat.le_div_iff_mul_le positive).mp inRoom
  rw [Nat.succ_mul] at whole
  constructor
  · omega
  · exact whole

/-- Entries that the machine can count end at a number of the machine. -/
theorem room?_eq_some {count : Nat} (counted : header.room? table = some count) :
    count = header.capacity table ∧
      (0 < count → (table.length - header.payloadOffset) * 8 < addressSpace) := by
  rw [room?] at counted
  split at counted
  · rename_i zero
    obtain rfl := Option.some.inj counted
    rw [capacity, zero, Nat.div_zero]
    exact ⟨rfl, fun positive => absurd positive (Nat.lt_irrefl 0)⟩
  · obtain ⟨bits, small, rfl⟩ := Option.map_eq_some_iff.mp counted
    obtain ⟨addressed, rfl⟩ := address?_eq_some.mp small
    exact ⟨rfl, fun _ => addressed⟩

/-- The bits of a word that is read, one by one. -/
theorem testBit_read {word : UInt64} (read : header.read table entry column = .ok (some word))
    {index : Nat} (below : index < 64) : word.toNat.testBit index =
      (decide (index < header.width column) &&
        (Bytes.unpack (table.drop header.payloadOffset))[
          header.offset column + entry * header.stride + index]?.getD false) := by
  obtain ⟨-, rfl⟩ := read_eq_some_iff.mp read
  rw [Bits.testBit_toWord _ below, List.getElem?_take, List.getElem?_drop]
  by_cases inCell : index < header.width column
  · rw [if_pos inCell, decide_eq_true inCell, Bool.true_and]
  · rw [if_neg inCell, decide_eq_false inCell, Bool.false_and]
    rfl

/-- A header has the columns with which it was parsed. -/
theorem columns_of_parse {bytes : List UInt8} {columns : Nat}
    (parsed : parse bytes columns = .ok header) : header.columns = columns := by
  simp only [parse] at parsed
  split at parsed
  · obtain rfl := Except.ok.inj parsed
    simp [Header.columns]
  · split at parsed <;> contradiction

/-- Whatever bytes a header was parsed from, and whatever bytes it is applied to, it reads within
    them. A cell has an answer exactly when its bits lie behind the header, and these bits are the
    answer, the lowest first. Columns within the entry are read in every whole entry. -/
theorem parsed_readsWithin {bytes : List UInt8} {columns : Nat}
    (parsed : parse bytes columns = .ok header) (table : List UInt8) :
    header.ReadsWithin columns table := by
  obtain rfl := columns_of_parse parsed
  have room (entry : Nat) (inRoom : entry < header.capacity table) (column : Nat)
      (inside : column < header.columns)
      (fits : header.offset column + header.width column ≤ header.stride) :
      ∃ word, header.read table entry column = .ok (some word) := by
    obtain ⟨starts, ends⟩ := entry_le inRoom
    exact exists_read_iff.mpr ⟨inside, starts, by omega⟩
  constructor
  case walked => exact fun entry column small => exists_walk?_eq small
  case stops => exact fun held entry column => walk?_eq_toOption held
  case answered => exact fun entry column => exists_read_iff
  case bits =>
    intro entry column word read index low
    obtain ⟨inWord, inCell⟩ := Nat.lt_min.mp low
    obtain ⟨-, starts, lies⟩ := exists_read_iff.mp ⟨word, read⟩
    have within : header.payloadOffset +
        (header.offset column + entry * header.stride + index) / 8 < table.length := by omega
    have found := List.getElem?_eq_getElem within
    refine ⟨_, found, ?_⟩
    rw [testBit_read read inWord, decide_eq_true inCell, Bytes.unpack_getElem?, List.getElem?_drop,
      found]
    rfl
  case zeros =>
    intro entry column word read index high
    by_cases inWord : index < 64
    · have past : ¬ index < header.width column := by omega
      rw [testBit_read read inWord, decide_eq_false past, Bool.false_and]
    · have small := word.toNat_lt.trans_le
        (Nat.pow_le_pow_right (by decide : 0 < 2) (Nat.le_of_not_lt inWord))
      exact Nat.testBit_lt_two_pow small
  case room => exact room
  case counted =>
    intro count counted
    obtain ⟨rfl, addressed⟩ := room?_eq_some counted
    refine ⟨rfl, fun entry inRoom column inside fits => ?_⟩
    obtain ⟨word, read⟩ := room entry inRoom column inside fits
    have ends := (entry_le inRoom).2
    have small := addressed (Nat.zero_lt_of_lt inRoom)
    obtain ⟨answer, same, walked⟩ := @exists_walk?_eq header table entry column fun _ => by omega
    obtain rfl := Except.ok.inj (same.symm.trans read)
    exact ⟨word, walked⟩

/-- Entries of seven bits, whose first column runs backwards and whose second one runs past them,
    read from bytes that are no table. The second column is there once, cut to a word. The third
    one is empty, and yet it is missing as soon as it starts past the end. -/
theorem stray_readsWithin :
    parse [7, 0, 5, 0, 2, 0, 90, 0, 7, 0] 3 = .ok ⟨7, [5, 2, 90, 7]⟩ ∧
      ReadsWithin ⟨7, [5, 2, 90, 7]⟩ 3 (List.replicate 22 0xA5) ∧
      walk? ⟨7, [5, 2, 90, 7]⟩ (List.replicate 22 0xA5) 0 1 = some (some 0x6969696969696969) ∧
      read ⟨7, [5, 2, 90, 7]⟩ (List.replicate 22 0xA5) 1 1 = .ok none ∧
      read ⟨7, [5, 2, 90, 7]⟩ (List.replicate 22 0xA5) 0 2 = .ok (some 0) ∧
      read ⟨7, [5, 2, 90, 7]⟩ (List.replicate 22 0xA5) 1 2 = .ok none := by
  have within : ReadsWithin ⟨7, [5, 2, 90, 7]⟩ 3 (List.replicate 22 0xA5) :=
    parsed_readsWithin (by rfl : parse [7, 0, 5, 0, 2, 0, 90, 0, 7, 0] 3 = _) _
  refine ⟨by rfl, within, ?_, by decide, by decide, by decide⟩
  rw [within.stops (by decide)]
  decide

end Table.Header
end BinaryLayout
