import BinaryLayout.Proofs.TableRoundTrip

/-!
# Readers of fewer columns

A reader that knows only the first columns of a table finds in the header how far the entries
are apart, and where its columns start and end. But it takes the entries to begin behind the
slots that it knows, where the header goes on with those of the other columns. So it reads every
cell from a place that is sixteen bits early for each column that it does not know, and the
words agree exactly where the bits of these two places do.
-/

namespace BinaryLayout

namespace Bits

/-- The bits of a number are its lowest ones and those above them. -/
theorem ofNat_add (low high value : Nat) :
    ofNat (low + high) value = ofNat low value ++ ofNat high (value / 2 ^ low) := by
  rw [ofNat, List.range_add, List.map_append, List.map_map]
  congr 1
  apply List.map_congr_left
  intro index _
  rw [Function.comp_apply, Nat.testBit_div_two_pow, Nat.add_comm]

/-- A word has no bit past its 64th. -/
theorem testBit_past (word : UInt64) {index : Nat} (high : 64 ≤ index) :
    word.toNat.testBit index = false :=
  Nat.testBit_lt_two_pow (word.toNat_lt.trans_le (Nat.pow_le_pow_right (by decide) high))

/-- Words are told apart by their 64 bits. -/
theorem eq_iff_testBit {first second : UInt64} :
    first = second ↔ ∀ index < 64, first.toNat.testBit index = second.toNat.testBit index := by
  constructor
  · rintro rfl index _
    rfl
  · intro same
    apply UInt64.toNat_inj.mp
    apply Nat.eq_of_testBit_eq
    intro index
    by_cases low : index < 64
    · exact same index low
    · have high : 64 ≤ index := Nat.le_of_not_lt low
      rw [testBit_past first high, testBit_past second high]

end Bits

namespace Bytes

/-- The bytes of a number have its lowest bits. -/
theorem unpack_littleEndian (count value : Nat) :
    unpack (littleEndian count value) = Bits.ofNat (8 * count) value := by
  induction count generalizing value with
  | zero => rfl
  | succ count ih =>
    have first : bits (UInt8.ofNat (value % 256)) = Bits.ofNat 8 value := by
      have byte : (UInt8.ofNat (value % 256)).toNat = value % 2 ^ 8 := by simp
      rw [bits, byte, Bits.ofNat, Bits.ofNat]
      apply List.map_congr_left
      intro index inside
      rw [Nat.testBit_mod_two_pow, decide_eq_true (List.mem_range.mp inside), Bool.true_and]
    rw [littleEndian, unpack_cons, first, ih, Nat.mul_succ, Nat.add_comm, Bits.ofNat_add]
    rfl

end Bytes

namespace Table

namespace Header

/-- The bits of the slots that a reader of the first columns does not know. -/
def others (header : Header) (few : Nat) : List Bool :=
  (header.bounds.drop (few + 1)).flatMap (Bits.ofNat 16)

/-- A cell is read when it lies in the bytes. -/
theorem read_eq_some_iff {header : Header} {table : List UInt8} {entry column : Nat}
    {word : UInt64} :
    header.read table entry column = .ok (some word) ↔
      (column < header.columns ∧ header.payloadOffset ≤ table.length ∧
        (header.offset column + entry * header.stride + header.width column + 7) / 8 ≤
          (table.drop header.payloadOffset).length) ∧
      word = Bits.toWord (((Bytes.unpack (table.drop header.payloadOffset)).drop
        (header.offset column + entry * header.stride)).take (header.width column)) := by
  constructor
  · intro found
    simp only [read] at found
    split at found
    · simp [pure, Except.pure] at found
    · rename_i known
      split at found
      · obtain ⟨_, -, missing⟩ := bind_eq_ok.mp found
        simp [pure, Except.pure] at missing
      · rename_i starts
        split at found
        · rename_i room
          rw [Window.read?_eq (by omega)] at found
          exact ⟨⟨Nat.lt_of_not_le known, Nat.le_of_not_lt starts, room⟩,
            (Option.some.inj (Except.ok.inj found)).symm⟩
        · obtain ⟨_, -, missing⟩ := bind_eq_ok.mp found
          simp [pure, Except.pure] at missing
  · rintro ⟨⟨known, starts, room⟩, rfl⟩
    rw [List.length_drop] at room
    exact read_of_inside known starts (by omega)

end Header

/-- What a reader of the first columns finds, against one of all columns. -/
structure ReadsFirst (bytes : List UInt8) (rows : List (List Cell)) (few : Nat)
    (narrow wide : Header) : Prop where
  stride : narrow.stride = wide.stride
  offset : ∀ column < few, narrow.offset column = wide.offset column
  width : ∀ column < few, narrow.width column = wide.width column
  /-- The slots of the other columns are taken for entries. -/
  payload : Bytes.unpack (bytes.drop narrow.payloadOffset) =
    wide.others few ++ Bytes.unpack (bytes.drop wide.payloadOffset)
  /-- Every cell is read, from the bits in its place behind those slots. -/
  read : ∀ entry row column cell, rows[entry]? = some row → row[column]? = some cell →
    column < few → ∃ word, narrow.read bytes entry column = .ok (some word) ∧
      ∀ index < 64, word.toNat.testBit index = (decide (index < wide.width column) &&
        (Bytes.unpack (bytes.drop narrow.payloadOffset))[
          entry * wide.stride + wide.offset column + index]?.getD false)
  /-- Both readers agree on a cell exactly when the bits in that place are its own. -/
  alike : ∀ entry row column cell, rows[entry]? = some row → row[column]? = some cell →
    column < few → (narrow.read bytes entry column = wide.read bytes entry column ↔
      ∀ index < 64, index < wide.width column →
        (Bytes.unpack (bytes.drop narrow.payloadOffset))[
          entry * wide.stride + wide.offset column + index]?.getD false = cell.bit index)

/-- Two readers agree on the first columns of every entry. -/
def ReadAlike (bytes : List UInt8) (rows : List (List Cell)) (few : Nat)
    (narrow wide : Header) : Prop :=
  ∀ entry < rows.length, ∀ column < few,
    narrow.read bytes entry column = wide.read bytes entry column

section Slots

/-- Slots are dropped with their two bytes. -/
theorem drop_slots (slots : List Nat) (count : Nat) (rest : List UInt8)
    (inside : count ≤ slots.length) :
    (slots.flatMap (Bytes.littleEndian 2) ++ rest).drop (2 * count) =
      (slots.drop count).flatMap (Bytes.littleEndian 2) ++ rest := by
  induction count generalizing slots with
  | zero => rfl
  | succ count ih =>
    cases slots with
    | nil => simp at inside
    | cons slot slots =>
      have slotLength : (Bytes.littleEndian 2 slot).length = 2 := by simp
      rw [Nat.mul_succ, Nat.add_comm, ← List.drop_drop, List.flatMap_cons, List.append_assoc,
        List.drop_left' slotLength, ih slots (by simpa using inside), List.drop_succ_cons]

/-- The bits of slots, sixteen for each. -/
theorem unpack_slots (slots : List Nat) :
    Bytes.unpack (slots.flatMap (Bytes.littleEndian 2)) = slots.flatMap (Bits.ofNat 16) := by
  induction slots with
  | nil => rfl
  | cons slot slots ih =>
    rw [List.flatMap_cons, Bytes.unpack_append, Bytes.unpack_littleEndian, ih, List.flatMap_cons]

end Slots

section Grid

variable {rows : List (List Cell)} {columns few : Nat} {bytes : List UInt8} {column : Nat}

theorem offset_firsts {header : Header} (inside : column ≤ few) :
    (header.firsts few).offset column = header.offset column := by
  rw [Header.offset, Header.firsts, List.getElem?_take_of_lt (by omega), Header.offset]

theorem width_firsts {header : Header} (inside : column < few) :
    (header.firsts few).width column = header.width column := by
  rw [Header.width, offset_firsts inside, offset_firsts inside.le, Header.width]

/-- Behind the slots that it knows a reader finds those of the other columns, and the entries
    behind these. -/
theorem payload_firsts {widths : List Nat} {grid : List (List (List Bool))}
    (fewer : few ≤ widths.length) :
    Bytes.unpack ((stored widths grid []).drop
        (Header.firsts ⟨widths.sum, bounds 0 widths⟩ few).payloadOffset) =
      Header.others ⟨widths.sum, bounds 0 widths⟩ few ++ Bytes.unpack ((stored widths grid []).drop
        (Header.payloadOffset ⟨widths.sum, bounds 0 widths⟩)) := by
  have narrow : (Header.firsts ⟨widths.sum, bounds 0 widths⟩ few).payloadOffset =
      2 * (few + 2) := by
    simp [Header.payloadOffset, Header.firsts]
    omega
  have wide : Header.payloadOffset ⟨widths.sum, bounds 0 widths⟩ =
      2 * (widths.sum :: bounds 0 widths).length := by
    simp [Header.payloadOffset]
    omega
  rw [narrow, wide, stored, drop_slots _ _ _ (by simp; omega), drop_slots _ _ _ le_rfl,
    List.drop_length, Bytes.unpack_append, unpack_slots]
  rfl

/-- A narrow header leaves at least as many bytes for the entries. -/
theorem payloadOffset_firsts_le (header : Header) (few : Nat) :
    (header.firsts few).payloadOffset ≤ header.payloadOffset := by
  simp only [Header.payloadOffset, Header.firsts, List.length_take]
  omega

theorem columns_firsts (fewer : few ≤ columns) :
    ((headerOf rows columns).firsts few).columns = few := by
  simp only [Header.columns, Header.firsts, headerOf, List.length_take, length_bounds,
    length_maxima]
  omega

/-- A cell of an encoded table is read by a reader of the first columns too, from the bits in its
    place behind the slots that this reader knows. -/
theorem read_firsts (encoded : encode rows columns = .ok bytes) (fewer : few ≤ columns)
    {entry : Nat} {row : List Cell} {cell : Cell} (inRows : rows[entry]? = some row)
    (found : row[column]? = some cell) (known : column < few) :
    ∃ word, ((headerOf rows columns).firsts few).read bytes entry column = .ok (some word) ∧
      ∀ index < 64, word.toNat.testBit index =
        (decide (index < (headerOf rows columns).width column) &&
          (Bytes.unpack (bytes.drop ((headerOf rows columns).firsts few).payloadOffset))[
            entry * (headerOf rows columns).stride + (headerOf rows columns).offset column +
              index]?.getD false) := by
  obtain ⟨whole, read, -⟩ := (readsAs_of_encode encoded).read entry row column cell inRows found
  obtain ⟨⟨-, starts, lies⟩, -⟩ := Header.read_eq_some_iff.mp read
  have sooner := payloadOffset_firsts_le (headerOf rows columns) few
  refine ⟨_, Header.read_eq_some_iff.mpr ⟨⟨?_, ?_, ?_⟩, rfl⟩, ?_⟩
  · rw [columns_firsts fewer]
    exact known
  · exact sooner.trans starts
  · rw [offset_firsts known.le, width_firsts known]
    apply lies.trans
    rw [List.length_drop, List.length_drop]
    omega
  · intro index low
    rw [Bits.testBit_toWord _ low, offset_firsts known.le, width_firsts known, List.getElem?_take]
    by_cases inside : index < (headerOf rows columns).width column
    · rw [if_pos inside, List.getElem?_drop, decide_eq_true inside, Bool.true_and,
        Nat.add_comm (Header.offset _ _)]
      rfl
    · rw [if_neg inside, decide_eq_false inside, Bool.false_and]
      rfl

/-- What a reader of the first columns finds in an encoded table. -/
theorem readsFirst_of_encode (encoded : encode rows columns = .ok bytes) (fewer : few ≤ columns) :
    Header.parse bytes few = .ok ((headerOf rows columns).firsts few) ∧
      ReadsFirst bytes rows few ((headerOf rows columns).firsts few) (headerOf rows columns) := by
  have reads := readsAs_of_encode encoded
  obtain ⟨widths, grid, computed, small, written, each, shape⟩ := encode_eq_ok encoded
  obtain rfl := (columnWidths_eq_ok_iff.mp computed).2
  have shape : bytes = stored (maxima rows columns) grid [] := by simp [shape, stored]
  constructor
  · rw [shape]
    exact parse_firsts small (by rwa [length_maxima])
  · constructor
    case stride => rfl
    case offset => exact fun column known => offset_firsts known.le
    case width => exact fun column known => width_firsts known
    case payload =>
      rw [shape]
      exact payload_firsts (by rwa [length_maxima])
    case read => exact fun _ _ _ _ inRows found known => read_firsts encoded fewer inRows found known
    case alike =>
      intro entry row column cell inRows found known
      obtain ⟨narrow, readNarrow, narrowBits⟩ := read_firsts encoded fewer inRows found known
      obtain ⟨wide, readWide, wideBits⟩ := reads.read entry row column cell inRows found
      rw [readNarrow, readWide, Except.ok.injEq, Option.some.injEq, Bits.eq_iff_testBit]
      constructor
      · intro same index low inside
        have bit := same index low
        rw [narrowBits index low, wideBits index low, decide_eq_true inside, Bool.true_and] at bit
        exact bit
      · intro own index low
        rw [narrowBits index low, wideBits index low]
        by_cases inside : index < (headerOf rows columns).width column
        · rw [decide_eq_true inside, Bool.true_and, own index low inside]
        · have needs : cell.required ≤ (headerOf rows columns).width column := by
            have atMost := required_le_widest (List.mem_of_getElem? inRows) column
            rw [requiredAt, found] at atMost
            rw [reads.width column (by omega)]
            exact atMost
          rw [decide_eq_false inside, Bool.false_and,
            Cell.bit_of_required_le (needs.trans (Nat.le_of_not_lt inside))]

end Grid

section Misreading

/-- A row whose first cell alone takes any bits. -/
def loneRow (blank : Nat) : List Cell :=
  .number 3 :: List.replicate blank (.number 0)

/-- The first column is two bits wide, and the others are empty. -/
theorem maxima_loneRow (blank : Nat) :
    maxima [loneRow blank] (blank + 1) = 2 :: List.replicate blank 0 := by
  have behind : ∀ column < blank, widest [loneRow blank] (column + 1) = 0 := by
    intro column inside
    simp [widest, requiredAt, loneRow, inside, Cell.required, Bits.required]
  rw [maxima, List.range_succ_eq_map, List.map_cons, List.map_map]
  congr 1
  apply List.eq_replicate_iff.mpr
  constructor
  · simp
  · intro width present
    obtain ⟨column, inside, rfl⟩ := List.mem_map.mp present
    exact behind column (List.mem_range.mp inside)

theorem encodable_loneRow (blank : Nat) : Encodable [loneRow blank] (blank + 1) := by
  constructor
  case complete => simp [loneRow]
  case binary =>
    intro row present cell inRow
    obtain rfl := List.mem_singleton.mp present
    rcases List.mem_cons.mp inRow with rfl | behind
    · trivial
    · rw [List.eq_of_mem_replicate behind]
      trivial
  case small =>
    rw [maxima_loneRow]
    simp

/-- The slots of the other columns begin with a zero bit, since the first column ends at two. -/
theorem others_loneRow {few blank : Nat} (fewer : few < blank + 1) :
    ((headerOf [loneRow blank] (blank + 1)).others few)[0]? = some false := by
  have inside : few + 1 < (bounds 0 (maxima [loneRow blank] (blank + 1))).length := by
    rw [length_bounds, length_maxima]
    omega
  have slot : (bounds 0 (maxima [loneRow blank] (blank + 1)))[few + 1] = 2 := by
    have known := @bounds_getElem? 0 (maxima [loneRow blank] (blank + 1)) (few + 1)
      (by rw [length_maxima]; omega)
    rw [List.getElem?_eq_getElem inside, Option.some.injEq] at known
    rw [known, maxima_loneRow, List.take_succ_cons]
    simp
  rw [Header.others, headerOf, List.drop_eq_getElem_cons inside, slot, List.flatMap_cons]
  rfl

/-- A reader that does not know all columns misreads the first cell of this row: its first bit is
    a one, but a zero stands where the reader looks for it. -/
theorem loneRow_misread {few blank : Nat} {bytes : List UInt8} (positive : 0 < few)
    (fewer : few < blank + 1) (encoded : encode [loneRow blank] (blank + 1) = .ok bytes) :
    ¬ ReadAlike bytes [loneRow blank] few ((headerOf [loneRow blank] (blank + 1)).firsts few)
      (headerOf [loneRow blank] (blank + 1)) := by
  intro alike
  have reads := (readsFirst_of_encode encoded fewer.le).2
  have width : (headerOf [loneRow blank] (blank + 1)).width 0 = 2 := by
    rw [width_headerOf (by omega)]
    rfl
  have start : (headerOf [loneRow blank] (blank + 1)).offset 0 = 0 := by
    rw [offset_headerOf (by omega)]
    rfl
  have bits := (reads.alike 0 _ 0 (.number 3) rfl rfl positive).mp
    (alike 0 (by simp) 0 positive)
  have first := bits 0 (by decide) (by rw [width]; decide)
  have zero := others_loneRow fewer
  obtain ⟨inside, -⟩ := List.getElem?_eq_some_iff.mp zero
  rw [reads.payload, start, Nat.zero_mul, List.getElem?_append_left (by simpa using inside), zero]
    at first
  exact absurd first (by decide)

end Misreading

/-- A reader of the first columns of an encoded table finds their offsets and widths, and reads
    every cell of theirs, but from the bits in its place behind the slots that the reader knows.
    Only a reader of all columns agrees with a reader of all columns on every table. -/
theorem readsFirst_alike_iff (few columns : Nat) (positive : 0 < few) (fewer : few ≤ columns) :
    (∀ rows bytes, encode rows columns = .ok bytes →
      ∃ narrow wide, Header.parse bytes few = .ok narrow ∧ Header.parse bytes columns = .ok wide ∧
        ReadsFirst bytes rows few narrow wide) ∧
      ((∀ rows bytes narrow wide, encode rows columns = .ok bytes →
        Header.parse bytes few = .ok narrow → Header.parse bytes columns = .ok wide →
          ReadAlike bytes rows few narrow wide) ↔ few = columns) := by
  have parses : ∀ rows bytes, encode rows columns = .ok bytes →
      Header.parse bytes columns = .ok (headerOf rows columns) :=
    fun _ _ encoded => (readsAs_of_encode encoded).parsed
  constructor
  · intro rows bytes encoded
    obtain ⟨parsed, reads⟩ := readsFirst_of_encode encoded fewer
    exact ⟨_, _, parsed, parses rows bytes encoded, reads⟩
  constructor
  · intro alike
    by_contra other
    obtain ⟨blank, rfl⟩ : ∃ blank, columns = blank + 1 := ⟨columns - 1, by omega⟩
    obtain ⟨bytes, encoded⟩ := exists_encode_eq_ok (encodable_loneRow blank)
    have misread := loneRow_misread positive (by omega) encoded
    exact misread (alike _ bytes _ _ encoded (readsFirst_of_encode encoded fewer).1
      (parses _ bytes encoded))
  · rintro rfl rows bytes narrow wide encoded parsed whole
    obtain rfl := Except.ok.inj (parsed.symm.trans whole)
    exact fun _ _ _ _ => rfl

/-- Two rows of two columns, read without the second: the reader takes the slot in which the
    first column ends for the first entry, and finds its two where a three stands. -/
theorem firstColumn_misread :
    encode [[.number 3, .number 0], [.number 1, .number 9]] 2 =
        .ok [6, 0, 0, 0, 2, 0, 6, 0, 0b01000011, 0b00001001] ∧
      ∃ narrow wide,
        Header.parse [6, 0, 0, 0, 2, 0, 6, 0, 0b01000011, 0b00001001] 1 = .ok narrow ∧
        Header.parse [6, 0, 0, 0, 2, 0, 6, 0, 0b01000011, 0b00001001] 2 = .ok wide ∧
        narrow.read [6, 0, 0, 0, 2, 0, 6, 0, 0b01000011, 0b00001001] 0 0 = .ok (some 2) ∧
        wide.read [6, 0, 0, 0, 2, 0, 6, 0, 0b01000011, 0b00001001] 0 0 = .ok (some 3) := by
  refine ⟨by rfl, ⟨6, [0, 2]⟩, ⟨6, [0, 2, 6]⟩, by rfl, by rfl, ?_, ?_⟩
  · decide
  · decide

/-- On the same table, the offsets and widths are found. -/
theorem firstColumn_found :
    0 < 1 ∧ 1 ≤ 2 ∧ ∃ narrow wide,
      Header.parse [6, 0, 0, 0, 2, 0, 6, 0, 0b01000011, 0b00001001] 1 = .ok narrow ∧
      Header.parse [6, 0, 0, 0, 2, 0, 6, 0, 0b01000011, 0b00001001] 2 = .ok wide ∧
      ReadsFirst [6, 0, 0, 0, 2, 0, 6, 0, 0b01000011, 0b00001001]
        [[.number 3, .number 0], [.number 1, .number 9]] 1 narrow wide :=
  ⟨by decide, by decide, (readsFirst_alike_iff 1 2 (by decide) (by decide)).1 _ _ (by rfl)⟩

end Table
end BinaryLayout
