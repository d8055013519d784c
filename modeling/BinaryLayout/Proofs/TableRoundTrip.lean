import BinaryLayout.Proofs.TableReading

/-!
# Tables round-trip

A table can be encoded exactly when its rows are complete, its digits are bits and its
entries fit a slot of the header. What a reader then finds is said without the encoder:
the columns are as wide as their widest cells, and bit by bit the payload is the cells,
row after row, with zeros behind them.
-/

namespace BinaryLayout

namespace Bits

/-- The binary digits of a sequence's number are the sequence. -/
theorem testBit_toNat (bits : List Bool) (index : Nat) :
    (toNat bits).testBit index = bits[index]?.getD false := by
  induction bits generalizing index with
  | nil => simp [toNat]
  | cons bit rest ih =>
    cases index with
    | zero => cases bit <;> simp [toNat, Nat.testBit_zero, Nat.add_mod]
    | succ index =>
      have half : (bit.toNat + 2 * toNat rest) / 2 = toNat rest := by
        have := bit.toNat_lt
        omega
      rw [toNat, Nat.testBit_succ, half, ih, List.getElem?_cons_succ]

/-- The word of a sequence has its first 64 bits. -/
theorem testBit_toWord (bits : List Bool) {index : Nat} (low : index < 64) :
    (toWord bits).toNat.testBit index = bits[index]?.getD false := by
  have small : toNat (bits.take 64) < 2 ^ 64 :=
    (toNat_lt _).trans_le (Nat.pow_le_pow_right (by omega) (by simp))
  rw [toWord, UInt64.toNat_ofNat', Nat.mod_eq_of_lt small, testBit_toNat,
    List.getElem?_take_of_lt low]

end Bits

namespace Table

/-- The bit of a cell at an index. Zeros stand past the bits that the cell requires. -/
def Cell.bit : Cell → Nat → Bool
  | number value, index => value.toNat.testBit index
  | digits sequence, index => sequence[index]? = some 1

/-- The digits of a cell are bits. -/
def Cell.IsBinary : Cell → Prop
  | number _ => True
  | digits sequence => ∀ digit ∈ sequence, digit = 0 ∨ digit = 1

/-- What a row requires of a column. A missing cell requires nothing. -/
def requiredAt (row : List Cell) (column : Nat) : Nat :=
  (row[column]?.map Cell.required).getD 0

/-- The most bits that a cell of a column requires. -/
def widest (rows : List (List Cell)) (column : Nat) : Nat :=
  (rows.map fun row => requiredAt row column).foldr max 0

/-- What the widest cells of the columns require. -/
def maxima (rows : List (List Cell)) (columns : Nat) : List Nat :=
  (List.range columns).map (widest rows)

/-- The rows of a table: complete ones, whose digits are bits, and whose widest cells
    together fit a slot of the header. -/
structure Encodable (rows : List (List Cell)) (columns : Nat) : Prop where
  complete : ∀ row ∈ rows, row.length = columns
  binary : ∀ row ∈ rows, ∀ cell ∈ row, cell.IsBinary
  small : (maxima rows columns).sum ≤ 65535

/-- What a reader of the declared number of columns finds in the bytes of a table. -/
structure ReadsAs (bytes : List UInt8) (rows : List (List Cell)) (columns : Nat)
    (header : Header) : Prop where
  length : bytes.length = encodedLength (maxima rows columns) rows.length
  parsed : Header.parse bytes columns = .ok header
  stride : header.stride = (maxima rows columns).sum
  offset : ∀ column < columns, header.offset column = ((maxima rows columns).take column).sum
  width : ∀ column < columns, header.width column = widest rows column
  /-- Every bit of every column, past the length of a cell too, stands in the payload. -/
  bit : ∀ entry row column cell, rows[entry]? = some row → row[column]? = some cell →
    ∀ index < header.width column,
      (Bytes.unpack (bytes.drop header.payloadOffset))[
        entry * header.stride + header.offset column + index]? = some (cell.bit index)
  padding : ∀ bit ∈ (Bytes.unpack (bytes.drop header.payloadOffset)).drop
    (rows.length * header.stride), bit = false
  /-- The word that is read has the 64 lowest bits of the cell. -/
  read : ∀ entry row column cell, rows[entry]? = some row → row[column]? = some cell →
    ∃ word, header.read bytes entry column = .ok (some word) ∧
      ∀ index < 64, word.toNat.testBit index = cell.bit index
  capacity : 0 < header.stride → rows.length ≤ header.capacity bytes ∧
    header.capacity bytes ≤ rows.length + 7 / header.stride

section Widths

/-- A complete row widens every column to its own cell. -/
theorem widen_map {row : List Cell} {columns : Nat} (width : Nat → Nat)
    (complete : row.length = columns) :
    widen ((List.range columns).map width) row =
      .ok ((List.range columns).map fun column => max (width column) (requiredAt row column)) := by
  rw [widen, if_pos (by simp [complete]), Except.ok.injEq]
  refine List.ext_getElem (by simp [complete]) fun column inside inside' => ?_
  have present : column < row.length := by simp at inside; omega
  simp [requiredAt, List.getElem?_eq_getElem present]

/-- Complete rows widen every column to the widest of their cells. -/
theorem foldlM_widen {rows : List (List Cell)} {columns : Nat} (width : Nat → Nat)
    (complete : ∀ row ∈ rows, row.length = columns) :
    rows.foldlM widen ((List.range columns).map width) =
      .ok ((List.range columns).map fun column => max (width column) (widest rows column)) := by
  induction rows generalizing width with
  | nil => simp [widest, pure, Except.pure]
  | cons row rest ih =>
    obtain ⟨here, others⟩ := List.forall_mem_cons.mp complete
    rw [List.foldlM_cons, widen_map width here]
    refine (ih _ others).trans ?_
    simp only [widest, List.map_cons, List.foldr_cons, max_assoc]

/-- The columns of complete rows are as wide as their widest cells. -/
theorem columnWidths_of_complete {rows : List (List Cell)} {columns : Nat}
    (complete : ∀ row ∈ rows, row.length = columns) :
    columnWidths rows columns = .ok (maxima rows columns) := by
  have start : List.replicate columns 0 = (List.range columns).map fun _ => 0 := by simp
  rw [columnWidths, start, foldlM_widen _ complete]
  simp [maxima]

/-- Columns get widths only from complete rows. -/
theorem columnWidths_eq_ok_iff {rows : List (List Cell)} {columns : Nat} {widths : List Nat} :
    columnWidths rows columns = .ok widths ↔
      (∀ row ∈ rows, row.length = columns) ∧ widths = maxima rows columns := by
  constructor
  · intro computed
    obtain ⟨rfl, room⟩ := columnWidths_eq_ok computed
    have complete : ∀ row ∈ rows, row.length = widths.length :=
      fun row present => (room row present).length_eq.symm
    exact ⟨complete, Except.ok.inj (computed.symm.trans (columnWidths_of_complete complete))⟩
  · rintro ⟨complete, rfl⟩
    exact columnWidths_of_complete complete

end Widths

section Cells

/-- A digit is read when it is a bit. -/
theorem ofDigit_eq_ok {digit : UInt8} {bit : Bool} :
    Bits.ofDigit digit = .ok bit ↔ (digit = 0 ∨ digit = 1) ∧ bit = decide (digit = 1) := by
  by_cases zero : digit = 0
  · simp [Bits.ofDigit, zero, eq_comm]
  · by_cases one : digit = 1
    · simp [Bits.ofDigit, one, eq_comm]
    · simp [Bits.ofDigit, zero, one]

/-- Digits are read when all of them are bits. -/
theorem ofDigits_eq_ok {sequence : List UInt8} {bits : List Bool} :
    Bits.ofDigits sequence = .ok bits ↔
      (∀ digit ∈ sequence, digit = 0 ∨ digit = 1) ∧ bits = sequence.map fun digit => decide (digit = 1) := by
  rw [Bits.ofDigits, mapM_eq_ok]
  induction sequence generalizing bits with
  | nil => simp
  | cons digit rest ih =>
    rw [List.forall₂_cons_left_iff]
    simp only [ih]
    simp only [ofDigit_eq_ok, List.forall_mem_cons, List.map_cons]
    constructor
    · rintro ⟨bit, behind, ⟨here, rfl⟩, ⟨others, rfl⟩, rfl⟩
      exact ⟨⟨here, others⟩, rfl⟩
    · rintro ⟨⟨here, others⟩, rfl⟩
      exact ⟨_, _, ⟨here, rfl⟩, ⟨others, rfl⟩, rfl⟩

/-- Digits are read one behind the other. -/
theorem ofDigits_cons {digit : UInt8} {bit : Bool} (read : Bits.ofDigit digit = .ok bit)
    (rest : List UInt8) :
    Bits.ofDigits (digit :: rest) = (Bits.ofDigits rest).map (bit :: ·) := by
  simp only [Bits.ofDigits, List.mapM_cons, read]
  cases rest.mapM Bits.ofDigit <;> rfl

/-- A cell fills a column bit by bit when it has room there and its digits are bits. -/
theorem Cell.bits_eq_ok {cell : Cell} {width : Nat} {bits : List Bool} :
    cell.bits width = .ok bits ↔
      cell.required ≤ width ∧ cell.IsBinary ∧ bits = (List.range width).map cell.bit := by
  cases cell with
  | number value =>
    have room : Bits.fits value width = true ↔ (number value).required ≤ width := by
      simp [Bits.fits, required]
    simp only [Cell.bits, Bits.expand, ← room, IsBinary, true_and]
    by_cases fits : Bits.fits value width = true
    · rw [if_pos fits, Except.ok.injEq, and_iff_right fits, eq_comm]
      rfl
    · rw [if_neg fits]
      simp [fits]
  | digits sequence =>
    simp only [Cell.bits, required, IsBinary]
    by_cases room : sequence.length ≤ width
    · rw [if_neg (by omega), map_eq_ok, and_iff_right room]
      have extended : Bits.extend (sequence.map fun digit => decide (digit = 1)) width =
          (List.range width).map (digits sequence).bit := by
        refine List.ext_getElem (by simp; omega) fun index inside inside' => ?_
        by_cases own : index < sequence.length
        · simp [Bits.extend, Cell.bit, own]
        · simp [Bits.extend, Cell.bit, List.getElem_append, own]
      simp only [ofDigits_eq_ok]
      constructor
      · rintro ⟨read, ⟨binary, rfl⟩, rfl⟩
        exact ⟨binary, extended⟩
      · rintro ⟨binary, rfl⟩
        exact ⟨_, ⟨binary, rfl⟩, extended⟩
    · rw [if_pos (by omega)]
      simp [room]

/-- Past what a cell requires, its bits are zeros. -/
theorem Cell.bit_of_required_le {cell : Cell} {index : Nat} (past : cell.required ≤ index) :
    cell.bit index = false := by
  cases cell with
  | number value =>
    exact Nat.testBit_lt_two_pow (Bits.required_le_iff.mp past)
  | digits sequence => simp [Cell.bit, List.getElem?_eq_none (show sequence.length ≤ index from past)]

end Cells

section Encoded

variable {rows : List (List Cell)} {columns : Nat} {widths : List Nat}

/-- Every column holds its cells, and some cell or none fills it. -/
theorem required_le_widest {row : List Cell} (present : row ∈ rows) (column : Nat) :
    requiredAt row column ≤ widest rows column := by
  induction rows with
  | nil => simp at present
  | cons first rest ih =>
    rw [widest, List.map_cons, List.foldr_cons]
    rcases List.mem_cons.mp present with rfl | later
    · exact le_max_left ..
    · exact (ih later).trans (le_max_right ..)

/-- Rows are written as soon as their cells have room and their digits are bits. -/
theorem rowBits_eq_ok {row : List Cell} (encodable : Encodable rows columns)
    (present : row ∈ rows) : ∃ entry, rowBits (maxima rows columns) row = .ok entry := by
  have cells : ∃ cells, ((maxima rows columns).zip row).mapM
      (fun column => column.2.bits column.1) = .ok cells := by
    refine exists_mapM_eq_ok fun column inZip => ?_
    obtain ⟨index, inside, rfl⟩ := List.mem_iff_getElem.mp inZip
    have inRow : index < row.length := by simp at inside; omega
    have room : row[index].required ≤ widest rows index := by
      have room := required_le_widest present index
      simpa [requiredAt, inRow] using room
    refine ⟨_, Cell.bits_eq_ok.mpr ⟨?_, ?_, rfl⟩⟩
    · simpa [maxima] using room
    · simpa using encodable.binary row present _ (List.getElem_mem inRow)
  obtain ⟨cells, written⟩ := cells
  exact ⟨cells.flatten, bind_eq_ok.mpr ⟨cells, written, rfl⟩⟩

/-- Encodable rows are encoded. -/
theorem exists_encode_eq_ok (encodable : Encodable rows columns) :
    ∃ bytes, encode rows columns = .ok bytes := by
  have small : (maxima rows columns).sum < UInt16.size := Nat.lt_succ_of_le encodable.small
  obtain ⟨entries, written⟩ := exists_mapM_eq_ok fun row present => rowBits_eq_ok encodable present
  have computed := columnWidths_of_complete encodable.complete
  have slots := headerSlots_eq_ok.mpr ⟨small, rfl⟩
  exact ⟨_, bind_eq_ok.mpr ⟨_, computed, bind_eq_ok.mpr ⟨_, slots, bind_eq_ok.mpr ⟨_, written, rfl⟩⟩⟩⟩

/-- The bits of a written row, cell by cell. -/
theorem Written.getElem? {row : List Cell} {cells : List (List Bool)} {column width : Nat}
    {cell : Cell} (written : Written widths row cells) (wide : widths[column]? = some width)
    (found : row[column]? = some cell) :
    cells[column]? = some ((List.range width).map cell.bit) ∧ cell.required ≤ width ∧
      cell.IsBinary := by
  have paired : (widths.zip row)[column]? = some (width, cell) :=
    List.getElem?_zip_eq_some.mpr ⟨wide, found⟩
  obtain ⟨bits, stands, filled⟩ := exists_partner written paired
  obtain ⟨room, binary, rfl⟩ := Cell.bits_eq_ok.mp filled
  exact ⟨stands, room, binary⟩

/-- Only encodable rows are encoded. -/
theorem Encodable.of_encode_eq_ok {bytes : List UInt8} (encoded : encode rows columns = .ok bytes) :
    Encodable rows columns := by
  obtain ⟨widths, grid, computed, small, written, -, -⟩ := encode_eq_ok encoded
  obtain ⟨complete, rfl⟩ := columnWidths_eq_ok_iff.mp computed
  refine ⟨complete, fun row present cell inRow => ?_, Nat.le_of_lt_succ small⟩
  obtain ⟨entry, stands⟩ := List.mem_iff_getElem?.mp present
  obtain ⟨column, found⟩ := List.mem_iff_getElem?.mp inRow
  obtain ⟨cells, -, rowWritten⟩ := exists_partner written stands
  have inside : column < columns := by
    rw [← complete row present]
    exact (List.getElem?_eq_some_iff.mp found).1
  have wide : (maxima rows columns)[column]? = some (widest rows column) := by
    simp [maxima, inside]
  exact (rowWritten.getElem? wide found).2.2

/-- A bit of a window is the bit behind the window's start. -/
theorem getElem?_of_window {bits window : List Bool} {start index : Nat}
    (cut : (bits.drop start).take window.length = window) (inside : index < window.length) :
    bits[start + index]? = window[index]? := by
  rw [← List.getElem?_drop, ← List.getElem?_take_of_lt inside, cut]

/-- As many whole entries have room in the payload as were written, or the padding of the last
    byte has room for some more. -/
theorem capacity_bounds {stride entries : Nat} (positive : 0 < stride) :
    entries ≤ (stride * entries + 7) / 8 * 8 / stride ∧
      (stride * entries + 7) / 8 * 8 / stride ≤ entries + 7 / stride := by
  constructor
  · rw [Nat.le_div_iff_mul_le positive, Nat.mul_comm]
    omega
  · calc (stride * entries + 7) / 8 * 8 / stride
        ≤ (stride * entries + 7) / stride := Nat.div_le_div_right (by omega)
      _ = entries + 7 / stride := Nat.mul_add_div positive ..

end Encoded

section Grid

variable {rows : List (List Cell)} {columns : Nat} {grid : List (List (List Bool))}
  {row : List Cell} {cell : Cell} {entry column : Nat}

/-- The header of a table with these rows. -/
def headerOf (rows : List (List Cell)) (columns : Nat) : Header :=
  ⟨(maxima rows columns).sum, bounds 0 (maxima rows columns)⟩

@[simp] theorem length_maxima : (maxima rows columns).length = columns := by
  simp [maxima]

theorem payloadOffset_headerOf :
    (headerOf rows columns).payloadOffset = headerLength columns := by
  simp [headerOf, Header.payloadOffset, headerLength]

theorem offset_headerOf (inside : column < columns) :
    (headerOf rows columns).offset column = ((maxima rows columns).take column).sum :=
  offset_eq (by rw [length_maxima]; omega)

theorem width_headerOf (inside : column < columns) :
    (headerOf rows columns).width column = widest rows column := by
  rw [headerOf, width_eq (by simpa using inside)]
  simp [maxima]

/-- A cell of complete rows stands in the grid as its bits. -/
theorem grid_cell (complete : ∀ row ∈ rows, row.length = columns)
    (written : List.Forall₂ (Written (maxima rows columns)) rows grid)
    (inRows : rows[entry]? = some row) (found : row[column]? = some cell) :
    column < columns ∧ cell.required ≤ widest rows column ∧
      ∃ (inGrid : entry < grid.length) (inRow : column < grid[entry].length),
        grid[entry][column] = (List.range (widest rows column)).map cell.bit := by
  have inside : column < columns := by
    rw [← complete row (List.mem_of_getElem? inRows)]
    exact (List.getElem?_eq_some_iff.mp found).1
  have wide : (maxima rows columns)[column]? = some (widest rows column) := by
    simp [maxima, inside]
  obtain ⟨cells, here, rowWritten⟩ := exists_partner written inRows
  obtain ⟨filled, room, -⟩ := rowWritten.getElem? wide found
  obtain ⟨inGrid, rfl⟩ := List.getElem?_eq_some_iff.mp here
  obtain ⟨inRow, bits⟩ := List.getElem?_eq_some_iff.mp filled
  exact ⟨inside, room, inGrid, inRow, bits⟩

/-- Every bit of a column stands in the payload. -/
theorem payload_bit (complete : ∀ row ∈ rows, row.length = columns)
    (written : List.Forall₂ (Written (maxima rows columns)) rows grid)
    (each : ∀ cells ∈ grid, cells.map List.length = maxima rows columns)
    (inRows : rows[entry]? = some row) (found : row[column]? = some cell) {index : Nat}
    (low : index < (headerOf rows columns).width column) :
    (Bytes.unpack ((stored (maxima rows columns) grid []).drop
      (headerOf rows columns).payloadOffset))[entry * (headerOf rows columns).stride +
        (headerOf rows columns).offset column + index]? = some (cell.bit index) := by
  obtain ⟨inside, -, inGrid, inRow, bits⟩ := grid_cell complete written inRows found
  obtain ⟨tail, payload⟩ := @exists_payload (maxima rows columns) grid []
  rw [width_headerOf inside] at low
  have window := window_cell each inGrid inRow tail
  have bit := getElem?_of_window window (show index < _ by simpa [bits] using low)
  rw [offset_headerOf inside, headerOf, payload, Nat.add_comm (entry * _), bit, bits]
  simp [low]

/-- Behind the last entry the payload holds zeros. -/
theorem payload_padding (written : List.Forall₂ (Written (maxima rows columns)) rows grid)
    (each : ∀ cells ∈ grid, cells.map List.length = maxima rows columns) :
    ∀ bit ∈ (Bytes.unpack ((stored (maxima rows columns) grid []).drop
      (headerOf rows columns).payloadOffset)).drop (rows.length * (headerOf rows columns).stride),
      bit = false := by
  intro bit present
  have entries : (grid.map List.flatten).flatten.length =
      rows.length * (headerOf rows columns).stride := by
    rw [length_grid each, written.length_eq, Nat.mul_comm]
    rfl
  have payload := @unpack_payload (maxima rows columns) grid []
  rw [Bytes.unpack_nil, List.append_nil, Bits.extend, ← headerOf] at payload
  rw [payload, List.drop_left' entries] at present
  exact List.eq_of_mem_replicate present

/-- The word of a cell is read. -/
theorem read_word (complete : ∀ row ∈ rows, row.length = columns)
    (written : List.Forall₂ (Written (maxima rows columns)) rows grid)
    (each : ∀ cells ∈ grid, cells.map List.length = maxima rows columns)
    (inRows : rows[entry]? = some row) (found : row[column]? = some cell) :
    ∃ word, (headerOf rows columns).read (stored (maxima rows columns) grid []) entry column =
      .ok (some word) ∧ ∀ index < 64, word.toNat.testBit index = cell.bit index := by
  obtain ⟨-, room, inGrid, inRow, bits⟩ := grid_cell complete written inRows found
  have reading := @cell?_eq (maxima rows columns) grid [] each entry column inGrid inRow
  refine ⟨_, Header.read_of_cell? reading, fun index low => ?_⟩
  rw [Bits.testBit_toWord _ low, bits]
  by_cases inColumn : index < widest rows column
  · simp [inColumn]
  · simp [inColumn, Cell.bit_of_required_le (room.trans (Nat.le_of_not_lt inColumn))]

end Grid

/-- An encoded table is read back as its rows. -/
theorem readsAs_of_encode {rows : List (List Cell)} {columns : Nat} {bytes : List UInt8}
    (encoded : encode rows columns = .ok bytes) : ReadsAs bytes rows columns (headerOf rows columns) := by
  have complete := (Encodable.of_encode_eq_ok encoded).complete
  have length := length_encode (columnWidths_of_complete complete) encoded
  obtain ⟨widths, grid, computed, small, written, each, shape⟩ := encode_eq_ok encoded
  obtain rfl := (columnWidths_eq_ok_iff.mp computed).2
  obtain rfl : bytes = stored (maxima rows columns) grid [] := by simp [shape, stored]
  constructor
  case length => exact length
  case parsed =>
    have parsed := @parse_eq _ (Bytes.pack (grid.map List.flatten).flatten ++ []) small
    rwa [length_maxima] at parsed
  case stride => rfl
  case offset => exact fun column inside => offset_headerOf inside
  case width => exact fun column inside => width_headerOf inside
  case bit =>
    exact fun _ _ _ _ inRows found _ low => payload_bit complete written each inRows found low
  case padding => exact payload_padding written each
  case read => exact fun _ _ _ _ inRows found => read_word complete written each inRows found
  case capacity =>
    intro positive
    have room : (stored (maxima rows columns) grid []).length -
        (headerOf rows columns).payloadOffset =
          ((headerOf rows columns).stride * rows.length + 7) / 8 := by
      rw [length, encodedLength, stride_eq_sum, payloadOffset_headerOf, length_maxima,
        Nat.add_sub_cancel_left]
      rfl
    rw [Header.capacity, room]
    exact capacity_bounds positive

/-- A table can be encoded exactly when its rows are complete, its digits are bits and its widest
    cells together fit 16 bits. Then a reader finds the header, every bit and every word of the
    rows, and zeros behind them. -/
theorem encode_roundTrip (rows : List (List Cell)) (columns : Nat) :
    ((∃ bytes, encode rows columns = .ok bytes) ↔ Encodable rows columns) ∧
      ∀ bytes, encode rows columns = .ok bytes → ∃ header, ReadsAs bytes rows columns header := by
  refine ⟨⟨?_, exists_encode_eq_ok⟩, fun bytes encoded => ⟨_, readsAs_of_encode encoded⟩⟩
  rintro ⟨bytes, encoded⟩
  exact Encodable.of_encode_eq_ok encoded

/-- A number beside five digits, above a missing number and a missing sequence: the entries
    take ten bits, and the last byte has room for no third one. -/
theorem mixed_roundTrip :
    encode [[.number 18, .digits [1, 0, 0, 1, 1]], [.number 0, .digits []]] 2 =
        .ok [10, 0, 0, 0, 5, 0, 10, 0, 0b00110010, 0b00000011, 0] ∧
      ∃ header, ReadsAs [10, 0, 0, 0, 5, 0, 10, 0, 0b00110010, 0b00000011, 0]
        [[.number 18, .digits [1, 0, 0, 1, 1]], [.number 0, .digits []]] 2 header :=
  ⟨by rfl, (encode_roundTrip _ _).2 _ (by rfl)⟩

end Table
end BinaryLayout
