import BinaryLayout.BitTable
import BinaryLayout.Proofs.BitStrings
import BinaryLayout.Proofs.Tables

/-!
# Reading bit field arrays back

The header of an encoded table tells where every cell stands, whatever bytes follow the
table. A cell is read whole; of its bits, the lowest 64 make the word that a header reads.
-/

namespace BinaryLayout

namespace Table

/-- A cell that ends within the bytes behind the header is read from its bits. -/
theorem Header.read_of_inside {header : Header} {table : List UInt8} {entry column : Nat}
    (known : column < header.columns) (starts : header.payloadOffset ≤ table.length)
    (lies : header.offset column + entry * header.stride + header.width column ≤
      8 * (table.length - header.payloadOffset)) :
    header.read table entry column =
      .ok (some (Bits.toWord (((Bytes.unpack (table.drop header.payloadOffset)).drop
        (header.offset column + entry * header.stride)).take (header.width column)))) := by
  have room : header.offset column + entry * header.stride + header.width column ≤
      8 * (table.drop header.payloadOffset).length := by rwa [List.length_drop]
  simp only [read]
  rw [if_neg (Nat.not_le.mpr known), if_neg (Nat.not_lt.mpr starts), if_pos (by omega),
    Window.read?_eq room]
  rfl

/-- A cell as it is read: its bits, and the word of the lowest 64 of them. -/
structure CellReading where
  low : UInt64
  bits : List Bool
  deriving DecidableEq

/-- Read a cell where the header says it stands. -/
def Header.cell? (header : Header) (table : List UInt8) (entry column : Nat) :
    Option CellReading :=
  let start := header.offset column + entry * header.stride
  match header.read table entry column with
  | .ok (some low) => some
      ⟨low, ((Bytes.unpack (table.drop header.payloadOffset)).drop start).take
        (header.width column)⟩
  | _ => none

/-- The word of a cell is what the header reads. -/
theorem Header.read_of_cell? {header : Header} {table : List UInt8} {entry column : Nat}
    {reading : CellReading} (found : header.cell? table entry column = some reading) :
    header.read table entry column = .ok (some reading.low) := by
  simp only [cell?] at found
  split at found
  · rename_i read
    obtain rfl := Option.some.inj found
    exact read
  · contradiction

/-- Read all cells of a table with a known number of columns and rows. -/
def read (table : List UInt8) (columns rows : Nat) : Option (List (List CellReading)) :=
  match Header.parse table columns with
  | .ok header => (List.range rows).mapM fun entry =>
      (List.range columns).mapM fun column => header.cell? table entry column
  | .error _ => none

/-- Every slot is read from its two bytes. -/
theorem slot_eq {slots : List Nat} {rest : List UInt8} (index : Nat)
    (inside : index < slots.length) (small : ∀ slot ∈ slots, slot < UInt16.size) :
    Header.slot (slots.flatMap (Bytes.littleEndian 2) ++ rest) index = slots[index] := by
  induction slots generalizing index with
  | nil => simp at inside
  | cons slot slots ih =>
    cases index with
    | zero =>
      have here := small slot (by simp)
      simp only [Header.slot, List.flatMap_cons, Nat.mul_zero, List.drop_zero, List.append_assoc]
      rw [List.take_append_of_le_length (by simp), List.take_of_length_le (by simp),
        Bytes.ofLittleEndian_littleEndian, Nat.mod_eq_of_lt (by simpa [UInt16.size] using here)]
      rfl
    | succ index =>
      have behind := ih index (by simpa using inside)
        fun other present => small other (by simp [present])
      rw [List.getElem_cons_succ, ← behind]
      simp only [Header.slot, List.flatMap_cons, List.append_assoc, Nat.mul_succ]
      rw [Nat.add_comm, ← List.drop_drop, List.drop_left' (by simp)]

/-- Columns start behind the columns before them. -/
theorem bounds_getElem? {start : Nat} {widths : List Nat} {index : Nat}
    (inside : index ≤ widths.length) :
    (bounds start widths)[index]? = some (start + (widths.take index).sum) := by
  induction widths generalizing start index with
  | nil =>
    obtain rfl : index = 0 := by simpa using inside
    rfl
  | cons width rest ih =>
    cases index with
    | zero => rfl
    | succ index =>
      rw [bounds, List.getElem?_cons_succ, ih (by simpa using inside), List.take_succ_cons,
        List.sum_cons, Nat.add_assoc]

/-- No bound is above the end of an entry. -/
theorem bounds_le {start : Nat} {widths : List Nat} :
    ∀ bound ∈ bounds start widths, bound ≤ start + widths.sum := by
  induction widths generalizing start with
  | nil => simp [bounds]
  | cons width rest ih =>
    intro bound present
    rcases List.mem_cons.mp present with rfl | inRest
    · omega
    · have behind := ih bound inRest
      simp only [List.sum_cons]
      omega

/-- The header as it is known to a reader of the first columns. -/
def Header.firsts (header : Header) (few : Nat) : Header :=
  ⟨header.stride, header.bounds.take (few + 1)⟩

/-- A reader of the first columns parses the first slots. -/
theorem parse_firsts {widths : List Nat} {few : Nat} {rest : List UInt8}
    (small : widths.sum < UInt16.size) (fewer : few ≤ widths.length) :
    Header.parse ((widths.sum :: bounds 0 widths).flatMap (Bytes.littleEndian 2) ++ rest) few =
      .ok (Header.firsts ⟨widths.sum, bounds 0 widths⟩ few) := by
  have slots : ∀ slot ∈ widths.sum :: bounds 0 widths, slot < UInt16.size := by
    intro slot present
    rcases List.mem_cons.mp present with rfl | inBounds
    · exact small
    · have := bounds_le slot inBounds
      omega
  have enough : headerLength few ≤
      ((widths.sum :: bounds 0 widths).flatMap (Bytes.littleEndian 2) ++ rest).length := by
    simp only [List.length_append, length_slots, List.length_cons, length_bounds, headerLength]
    omega
  have first : (List.range (few + 1)).map (fun column =>
      Header.slot ((widths.sum :: bounds 0 widths).flatMap (Bytes.littleEndian 2) ++ rest)
        (column + 1)) = (bounds 0 widths).take (few + 1) := by
    apply List.ext_getElem
    · simp
      omega
    · intro index inside inside'
      have known : index < (bounds 0 widths).length := by
        simp only [List.length_take, lt_min_iff] at inside'
        exact inside'.2
      rw [List.getElem_map, List.getElem_range, slot_eq _ (by simpa using known) slots,
        List.getElem_cons_succ, List.getElem_take]
  rw [Header.parse, if_pos enough, slot_eq 0 (by simp) slots, first]
  rfl

/-- The header of a table is parsed as it was written. -/
theorem parse_eq {widths : List Nat} {rest : List UInt8} (small : widths.sum < UInt16.size) :
    Header.parse ((widths.sum :: bounds 0 widths).flatMap (Bytes.littleEndian 2) ++ rest)
      widths.length = .ok ⟨widths.sum, bounds 0 widths⟩ := by
  rw [parse_firsts small le_rfl, Header.firsts, List.take_of_length_le (by simp)]

section Parsed

variable {widths : List Nat} {column : Nat}

theorem offset_eq (inside : column ≤ widths.length) :
    Header.offset ⟨widths.sum, bounds 0 widths⟩ column = (widths.take column).sum := by
  simp [Header.offset, bounds_getElem? inside]

theorem width_eq (inside : column < widths.length) :
    Header.width ⟨widths.sum, bounds 0 widths⟩ column = widths[column] := by
  rw [Header.width, offset_eq (by omega), offset_eq (by omega), List.take_succ_eq_append_getElem inside,
    List.sum_append, List.sum_singleton, Nat.add_sub_cancel_left]

/-- A column lies within its entry. -/
theorem column_le (inside : column < widths.length) :
    (widths.take column).sum + widths[column] ≤ widths.sum := by
  have split := congrArg List.sum (List.take_append_drop (column + 1) widths)
  rw [List.sum_append, List.take_succ_eq_append_getElem inside, List.sum_append,
    List.sum_singleton] at split
  omega

end Parsed

/-- Dropping the parts before one leaves it and what is behind it. -/
theorem drop_flatten {parts : List (List Bool)} {index : Nat} (inside : index < parts.length)
    (tail : List Bool) :
    (parts.flatten ++ tail).drop ((parts.map List.length).take index).sum =
      parts[index] ++ ((parts.drop (index + 1)).flatten ++ tail) := by
  induction parts generalizing index with
  | nil => simp at inside
  | cons part parts ih =>
    cases index with
    | zero => simp
    | succ index =>
      have behind := @ih index (by simpa using inside)
      rw [List.map_cons, List.take_succ_cons, List.sum_cons, ← List.drop_drop, List.flatten_cons,
        List.append_assoc, List.drop_left' rfl, behind]
      rfl

/-- A list is mapped when every item has its image. -/
theorem mapM_eq_some {α β : Type} {step : α → Option β} {items : List α} {results : List β}
    (each : List.Forall₂ (fun item result => step item = some result) items results) :
    items.mapM step = some results := by
  induction each with
  | nil => rfl
  | cons here _ ih => simp [here, ih]

/-- Indices in order are mapped when each of them has its image. -/
theorem mapM_range_eq_some {β : Type} {step : Nat → Option β} {results : List β}
    (each : ∀ index (inside : index < results.length), step index = some results[index]) :
    (List.range results.length).mapM step = some results := by
  refine mapM_eq_some (List.forall₂_iff_get.mpr ⟨by simp, fun index inRange inside => ?_⟩)
  simpa using each index inside

section Encoded

variable {widths : List Nat} {grid : List (List (List Bool))} {rest : List UInt8}

/-- The bytes of a table with this grid, and others behind it. -/
def stored (widths : List Nat) (grid : List (List (List Bool))) (rest : List UInt8) :
    List UInt8 :=
  (widths.sum :: bounds 0 widths).flatMap (Bytes.littleEndian 2) ++
    (Bytes.pack (grid.map List.flatten).flatten ++ rest)

/-- Behind the header the cells stand row by row, with zeros up to the last whole byte, then
    the other bytes. -/
theorem unpack_payload :
    Bytes.unpack ((stored widths grid rest).drop
      (Header.payloadOffset ⟨widths.sum, bounds 0 widths⟩)) =
        Bits.extend (grid.map List.flatten).flatten
          (8 * (((grid.map List.flatten).flatten.length + 7) / 8)) ++ Bytes.unpack rest := by
  have header : ((widths.sum :: bounds 0 widths).flatMap (Bytes.littleEndian 2)).length =
      Header.payloadOffset ⟨widths.sum, bounds 0 widths⟩ := by
    simp only [length_slots, List.length_cons, length_bounds, Header.payloadOffset]
    omega
  rw [stored, List.drop_left' header, Bytes.unpack_append, Bytes.unpack_pack]

/-- Behind the header the cells stand row by row, then other bits. -/
theorem exists_payload :
    ∃ tail, Bytes.unpack ((stored widths grid rest).drop
      (Header.payloadOffset ⟨widths.sum, bounds 0 widths⟩)) =
        (grid.map List.flatten).flatten ++ tail :=
  ⟨_, by rw [unpack_payload, Bits.extend, List.append_assoc]⟩

/-- A cell is found where the header says. -/
theorem window_cell (each : ∀ cells ∈ grid, cells.map List.length = widths) {entry column : Nat}
    (row : entry < grid.length) (inside : column < grid[entry].length) (tail : List Bool) :
    (((grid.map List.flatten).flatten ++ tail).drop
      ((widths.take column).sum + entry * widths.sum)).take grid[entry][column].length =
        grid[entry][column] := by
  have rows : ((grid.map List.flatten).map List.length) = List.replicate grid.length widths.sum := by
    refine List.eq_replicate_iff.mpr ⟨by simp, fun length present => ?_⟩
    simp only [List.mem_map, exists_exists_and_eq_and] at present
    obtain ⟨cells, inGrid, rfl⟩ := present
    rw [List.length_flatten, each cells inGrid]
  have start : entry * widths.sum =
      (((grid.map List.flatten).map List.length).take entry).sum := by
    rw [rows, List.take_replicate, List.sum_replicate_nat, Nat.min_eq_left row.le]
  have columns := each grid[entry] (List.getElem_mem row)
  rw [Nat.add_comm, ← List.drop_drop, start, drop_flatten (by simpa using row), List.getElem_map,
    ← columns, drop_flatten inside, List.take_left' rfl]

/-- Every cell of an encoded table is read where it was written. -/
theorem cell?_eq (each : ∀ cells ∈ grid, cells.map List.length = widths) {entry column : Nat}
    (row : entry < grid.length) (inside : column < grid[entry].length) :
    Header.cell? ⟨widths.sum, bounds 0 widths⟩ (stored widths grid rest) entry column =
      some ⟨Bits.toWord grid[entry][column], grid[entry][column]⟩ := by
  have columns := each grid[entry] (List.getElem_mem row)
  have count : grid[entry].length = widths.length := by rw [← columns, List.length_map]
  have width : widths[column] = grid[entry][column].length := by simp [← columns]
  obtain ⟨tail, payload⟩ := @exists_payload widths grid rest
  have lies : (widths.take column).sum + entry * widths.sum + widths[column] ≤
      (grid.map List.flatten).flatten.length := by
    have entries : (entry + 1) * widths.sum ≤ grid.length * widths.sum :=
      Nat.mul_le_mul_right _ row
    have inEntry := column_le (show column < widths.length by omega)
    rw [length_grid each, Nat.mul_comm widths.sum]
    rw [Nat.add_mul] at entries
    omega
  have length := congrArg List.length payload
  simp only [Bytes.length_unpack, List.length_append] at length
  have found := window_cell each row inside tail
  have header : Header.payloadOffset ⟨widths.sum, bounds 0 widths⟩ ≤
      (stored widths grid rest).length := by
    simp only [stored, List.length_append, length_slots, List.length_cons, length_bounds,
      Header.payloadOffset]
    omega
  have read : Header.read ⟨widths.sum, bounds 0 widths⟩ (stored widths grid rest) entry column =
      .ok (some (Bits.toWord grid[entry][column])) := by
    have known : column < Header.columns ⟨widths.sum, bounds 0 widths⟩ := by
      simp only [Header.columns, length_bounds]
      omega
    have ends : Header.offset ⟨widths.sum, bounds 0 widths⟩ column + entry * widths.sum +
        Header.width ⟨widths.sum, bounds 0 widths⟩ column ≤
          8 * ((stored widths grid rest).length -
            Header.payloadOffset ⟨widths.sum, bounds 0 widths⟩) := by
      rw [offset_eq (by omega), width_eq (by omega), ← List.length_drop]
      omega
    rw [Header.read_of_inside known header ends, offset_eq (by omega), width_eq (by omega),
      payload, width, found]
  rw [Header.cell?, read, offset_eq (by omega), width_eq (by omega), payload, width, found]

end Encoded

/-- An encoded table is read back cell by cell, whatever stands behind it. -/
theorem read_encode {rows : List (List Cell)} {columns : Nat} {bytes : List UInt8}
    (encoded : encode rows columns = .ok bytes) :
    ∃ widths grid, columnWidths rows columns = .ok widths ∧
      List.Forall₂ (Written widths) rows grid ∧ ∀ rest,
        read (bytes ++ rest) columns rows.length =
          some (grid.map (·.map fun bits => ⟨Bits.toWord bits, bits⟩)) := by
  obtain ⟨widths, grid, computed, small, written, each, rfl⟩ := encode_eq_ok encoded
  refine ⟨widths, grid, computed, written, fun rest => ?_⟩
  obtain ⟨rfl, -⟩ := columnWidths_eq_ok computed
  rw [List.append_assoc]
  simp only [read, parse_eq small, written.length_eq]
  rw [← List.length_map (fun cells : List (List Bool) =>
    cells.map fun bits => (⟨Bits.toWord bits, bits⟩ : CellReading))]
  refine mapM_range_eq_some fun entry inside => ?_
  have row : entry < grid.length := by simpa using inside
  have count : widths.length = grid[entry].length := by
    rw [← each grid[entry] (List.getElem_mem row), List.length_map]
  rw [List.getElem_map, count, ← List.length_map (fun bits : List Bool =>
    (⟨Bits.toWord bits, bits⟩ : CellReading))]
  refine mapM_range_eq_some fun column here => ?_
  rw [List.getElem_map]
  exact cell?_eq each row (by simpa using here)

end Table

namespace TableItem

/-- What is read of an item in a column of this width. A number is the word itself, a blob
    has zeros behind it. -/
def reading (width : Nat) : TableItem → Table.CellReading
  | int value => ⟨value.toUInt64, Bits.ofWord width value.toUInt64⟩
  | blob content => ⟨Bits.toWord content.bits, Bits.extend content.bits width⟩

/-- The digits of bits are read as these bits. -/
theorem ofDigits_toDigits (bits : List Bool) : Bits.ofDigits (Bits.toDigits bits) = .ok bits := by
  induction bits with
  | nil => rfl
  | cons bit rest ih =>
    have here : Bits.ofDigit (if bit then 1 else 0) = .ok bit := by cases bit <;> rfl
    simp only [Bits.ofDigits, Bits.toDigits, List.map_cons, List.mapM_cons] at ih ⊢
    rw [here, ih]
    rfl

/-- The bits of an item make up its reading. -/
theorem reading_eq {item : TableItem} {width : Nat} {bits : List Bool}
    (written : item.cell.bits width = .ok bits) :
    item.reading width = ⟨Bits.toWord bits, bits⟩ := by
  cases item with
  | int value =>
    simp only [cell, Table.Cell.bits, Bits.expand] at written
    split at written
    · rename_i fits
      obtain rfl := Except.ok.inj written
      rw [reading, Bits.toWord_ofWord fits]
    · simp at written
  | blob content =>
    simp only [cell, Table.Cell.bits, ofDigits_toDigits] at written
    split at written
    · simp at written
    · obtain rfl := Except.ok.inj written
      rw [reading, Bits.toWord_extend]

/-- The bits of a row make up the readings of its items. -/
theorem readings_eq {items : List TableItem} {widths : List Nat} {cells : List (List Bool)}
    (written : Table.Written widths (items.map cell) cells) :
    cells.map (fun bits => ⟨Bits.toWord bits, bits⟩) = List.zipWith reading widths items := by
  induction widths generalizing items cells with
  | nil =>
    obtain rfl : cells = [] := by simpa [Table.Written] using written
    rfl
  | cons width widths ih =>
    cases items with
    | nil =>
      obtain rfl : cells = [] := by simpa [Table.Written] using written
      rfl
    | cons item items =>
      cases written with
      | cons here later =>
        rw [List.map_cons, ih later, ← reading_eq here]
        rfl

end TableItem

namespace BitTable

/-- What is read of all rows. -/
def reading (table : BitTable) : List (List Table.CellReading) :=
  match table.columnWidths with
  | .ok widths => table.rows.map (List.zipWith TableItem.reading widths)
  | .error _ => []

/-- An encoded bit field array is read back, whatever stands behind it. -/
theorem read_bytes {table : BitTable} {bytes : List UInt8} (encoded : table.bytes = .ok bytes)
    (rest : List UInt8) :
    Table.read (bytes ++ rest) table.type.fields.length table.rows.length =
      some table.reading := by
  obtain ⟨widths, grid, computed, written, read⟩ := Table.read_encode (mapError_eq_ok.mp encoded)
  have known : table.columnWidths = .ok widths := mapError_eq_ok.mpr computed
  have rows := read rest
  rw [cells, List.length_map] at rows
  simp only [rows, reading, known, Option.some.injEq]
  clear computed read rows encoded known
  simp only [cells] at written
  generalize table.rows = rows at written
  induction grid generalizing rows with
  | nil =>
    obtain rfl : rows = [] := by simpa using written
    rfl
  | cons first grid ih =>
    cases rows with
    | nil => simp at written
    | cons row rows =>
      obtain ⟨here, later⟩ := List.forall₂_cons.mp written
      rw [List.map_cons, TableItem.readings_eq here, ih _ later]
      rfl

end BitTable
end BinaryLayout
