import BinaryLayout.Proofs.Success
import BinaryLayout.Table.Header
import Mathlib.Algebra.Ring.Nat

/-!
# What an encoded table holds

Encoding succeeds through three stages: the columns get their widths, the header gets
its slots, and every row is written as bits. The laws say what each stage leaves
behind. A table that is encoded is its header followed by the packed bits of a grid
whose cells have exactly the widths of their columns.
-/

namespace BinaryLayout.Table

/-- The cells of a row have room in the columns. -/
def Holds (widths : List Nat) (row : List Cell) : Prop :=
  List.Forall₂ (fun width cell => cell.required ≤ width) widths row

/-- Columns are at least as wide, one by one. -/
def Wider (narrow wide : List Nat) : Prop :=
  List.Forall₂ (· ≤ ·) narrow wide

theorem Wider.trans {first second third : List Nat} (step : Wider first second)
    (next : Wider second third) : Wider first third := by
  induction step generalizing third with
  | nil => exact next
  | cons here rest ih =>
    cases next with
    | cons here' later => exact .cons (Nat.le_trans here here') (ih later)

/-- A row has room in the columns that it widened. -/
theorem holds_widen {widths next : List Nat} {row : List Cell}
    (widened : widen widths row = .ok next) :
    Holds next row ∧ Wider widths next := by
  simp only [widen] at widened
  split at widened
  · rename_i sameLength
    obtain rfl := Except.ok.inj widened
    clear widened
    induction widths generalizing row with
    | nil => cases row <;> simp_all [Holds, Wider]
    | cons width rest ih =>
      cases row with
      | nil => simp at sameLength
      | cons cell cells =>
        obtain ⟨room, wider⟩ := @ih cells (by simpa using sameLength)
        exact ⟨.cons (Nat.le_max_right ..) room, .cons (Nat.le_max_left ..) wider⟩
  · simp at widened

/-- Wider columns hold what narrower ones hold. -/
theorem Holds.mono {narrow wide : List Nat} {row : List Cell} (room : Holds narrow row)
    (wider : Wider narrow wide) : Holds wide row := by
  induction wider generalizing row with
  | nil => exact room
  | cons first rest ih =>
    cases room with
    | cons here later => exact .cons (Nat.le_trans here first) (ih later)

/-- Columns that are widened row by row hold every row. -/
theorem holds_foldlM {rows : List (List Cell)} {start widths : List Nat}
    (folded : rows.foldlM widen start = .ok widths) :
    Wider start widths ∧ ∀ row ∈ rows, Holds widths row := by
  induction rows generalizing start with
  | nil =>
    obtain rfl : start = widths := by simpa [pure, Except.pure] using folded
    exact ⟨List.forall₂_same.mpr fun _ _ => Nat.le_refl _, by simp⟩
  | cons row rest ih =>
    obtain ⟨next, widened, later⟩ := bind_eq_ok.mp (by simpa using folded)
    obtain ⟨room, wider⟩ := holds_widen widened
    obtain ⟨widest, others⟩ := ih later
    constructor
    · exact wider.trans widest
    · exact List.forall_mem_cons.mpr ⟨room.mono widest, others⟩

/-- There are as many widths as columns, and they hold every row. -/
theorem columnWidths_eq_ok {rows : List (List Cell)} {columns : Nat} {widths : List Nat}
    (computed : columnWidths rows columns = .ok widths) :
    widths.length = columns ∧ ∀ row ∈ rows, Holds widths row := by
  obtain ⟨wider, room⟩ := holds_foldlM computed
  exact ⟨by simpa using wider.length_eq.symm, room⟩

/-- The bits of a cell fill its column. -/
theorem Cell.length_bits {cell : Cell} {width : Nat} {bits : List Bool}
    (written : cell.bits width = .ok bits) : bits.length = width := by
  cases cell with
  | number value =>
    simp only [Cell.bits, Bits.expand] at written
    split at written
    · obtain rfl := Except.ok.inj written
      simp [Bits.ofWord]
    · simp at written
  | digits sequence =>
    simp only [Cell.bits] at written
    split at written
    · simp at written
    · rename_i room
      obtain ⟨digits, read, rfl⟩ := map_eq_ok.mp written
      have same := (mapM_eq_ok.mp read).length_eq
      simp only [Bits.length_extend]
      omega

/-- The bits of a row, cell by cell. -/
def Written (widths : List Nat) (row : List Cell) (cells : List (List Bool)) : Prop :=
  List.Forall₂ (fun (column : Nat × Cell) bits => column.2.bits column.1 = .ok bits)
    (widths.zip row) cells

/-- The cells of a written row have the widths of the columns. -/
theorem Written.lengths {widths : List Nat} {row : List Cell} {cells : List (List Bool)}
    (written : Written widths row cells) (sameLength : row.length = widths.length) :
    cells.map List.length = widths := by
  induction widths generalizing row cells with
  | nil =>
    obtain rfl : cells = [] := by simpa [Written] using written
    rfl
  | cons width rest ih =>
    cases row with
    | nil => simp at sameLength
    | cons cell row =>
      cases written with
      | cons here later =>
        have behind := ih later (by simpa using sameLength)
        simp [Cell.length_bits here, behind]

/-- Rows are written one behind the other, each as the bits of its cells. -/
theorem rows_eq_ok {widths : List Nat} {rows : List (List Cell)} {entries : List (List Bool)}
    (written : rows.mapM (rowBits widths) = .ok entries) :
    ∃ grid, List.Forall₂ (Written widths) rows grid ∧ entries = grid.map List.flatten := by
  have each := mapM_eq_ok.mp written
  clear written
  induction each with
  | nil => exact ⟨[], .nil, rfl⟩
  | cons here _ ih =>
    obtain ⟨grid, rest, rfl⟩ := ih
    simp only [rowBits, bind_eq_ok, pure, Except.pure, Except.ok.injEq] at here
    obtain ⟨cells, cellsWritten, rfl⟩ := here
    exact ⟨cells :: grid, .cons (mapM_eq_ok.mp cellsWritten) rest, rfl⟩

@[simp] theorem stride_eq_sum (widths : List Nat) : stride widths = widths.sum :=
  List.sum_eq_foldr.symm

/-- The slots of a header: the distance of entries, then the bounds of the columns. -/
theorem headerSlots_eq_ok {widths slots : List Nat} :
    headerSlots widths = .ok slots ↔
      widths.sum < UInt16.size ∧ slots = widths.sum :: bounds 0 widths := by
  rw [← stride_eq_sum]
  by_cases small : stride widths < UInt16.size
  · rw [headerSlots, if_pos small, Except.ok.injEq, and_iff_right small, eq_comm]
  · rw [headerSlots, if_neg small]
    constructor
    · intro refused
      cases refused
    · rintro ⟨room, -⟩
      exact absurd room small

@[simp] theorem length_bounds (start : Nat) (widths : List Nat) :
    (bounds start widths).length = widths.length + 1 := by
  induction widths generalizing start with
  | nil => rfl
  | cons width rest ih => simp [bounds, ih]

/-- An encoded table is its header and the packed cells, row by row. -/
theorem encode_eq_ok {rows : List (List Cell)} {columns : Nat} {bytes : List UInt8}
    (encoded : encode rows columns = .ok bytes) :
    ∃ widths grid, columnWidths rows columns = .ok widths ∧ widths.sum < UInt16.size ∧
      List.Forall₂ (Written widths) rows grid ∧
      (∀ cells ∈ grid, cells.map List.length = widths) ∧
      bytes = (widths.sum :: bounds 0 widths).flatMap (Bytes.littleEndian 2) ++
        Bytes.pack (grid.map List.flatten).flatten := by
  simp only [encode, bind_eq_ok, pure, Except.pure, Except.ok.injEq] at encoded
  obtain ⟨widths, computed, slots, header, entries, written, rfl⟩ := encoded
  obtain ⟨small, rfl⟩ := headerSlots_eq_ok.mp header
  obtain ⟨grid, gridWritten, rfl⟩ := rows_eq_ok written
  obtain ⟨-, room⟩ := columnWidths_eq_ok computed
  refine ⟨widths, grid, computed, small, gridWritten, fun cells present => ?_, rfl⟩
  clear computed header written
  induction gridWritten with
  | nil => simp at present
  | @cons row first rows rest here _ ih =>
    rcases List.mem_cons.mp present with rfl | inRest
    · exact here.lengths (room row (by simp)).length_eq.symm
    · exact ih (fun row inRows => room row (by simp [inRows])) inRest

/-- Rows of cells of one list of widths take the sum of the widths each. -/
theorem length_grid {widths : List Nat} {grid : List (List (List Bool))}
    (each : ∀ cells ∈ grid, cells.map List.length = widths) :
    (grid.map List.flatten).flatten.length = widths.sum * grid.length := by
  induction grid with
  | nil => simp
  | cons cells rest ih =>
    rw [List.forall_mem_cons] at each
    simp only [List.map_cons, List.flatten_cons, List.length_append, List.length_cons, ih each.2,
      List.length_flatten, each.1, Nat.mul_succ]
    omega

/-- Every slot takes two bytes. -/
theorem length_slots (slots : List Nat) :
    (slots.flatMap (Bytes.littleEndian 2)).length = 2 * slots.length := by
  induction slots with
  | nil => rfl
  | cons slot rest ih =>
    simp only [List.flatMap_cons, List.length_append, ih, Bytes.length_littleEndian,
      List.length_cons]
    omega

/-- An encoded table has the announced length. -/
theorem length_encode {rows : List (List Cell)} {columns : Nat} {bytes : List UInt8}
    {widths : List Nat} (computed : columnWidths rows columns = .ok widths)
    (encoded : encode rows columns = .ok bytes) :
    bytes.length = encodedLength widths rows.length := by
  obtain ⟨widths', grid, computed', -, written, each, rfl⟩ := encode_eq_ok encoded
  obtain rfl : widths' = widths := Except.ok.inj (computed'.symm.trans computed)
  simp only [List.length_append, length_slots, Bytes.length_pack, length_grid each, encodedLength,
    stride_eq_sum, headerLength, List.length_cons, length_bounds, written.length_eq]
  omega

end BinaryLayout.Table
