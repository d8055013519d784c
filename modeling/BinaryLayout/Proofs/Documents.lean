import BinaryLayout.Proofs.Placement
import BinaryLayout.Proofs.TableRoundTrip

/-!
# Documents and their leaves

A value and the targets of its references, at every depth, are documents. The laws say what
the checks that were made at construction mean for packing them: every part has a size unless
that leaves the address space, every bit field has a word, and a bit field array has bytes
unless its entries are too wide. How long a document is follows from its types and links alone.
-/

namespace BinaryLayout

section Leaves

/-- The values of a built bit field fit their widths. -/
theorem BitField.Built.fits {field : BitField} (built : field.Built) :
    ∀ entry ∈ field.entries, Bits.fits entry.value.stored entry.width.toNat = true := by
  have appended {field next : BitField} {name : String} {width : UInt32} {value : FieldValue}
      (before : ∀ entry ∈ field.entries, Bits.fits entry.value.stored entry.width.toNat = true)
      (fit : Bits.fits value.stored width.toNat = true)
      (pushed : field.push name width value = .ok next) :
      ∀ entry ∈ next.entries, Bits.fits entry.value.stored entry.width.toNat = true := by
    obtain ⟨rfl, -⟩ := push_eq_ok pushed
    intro entry present
    rcases List.mem_append.mp present with old | new
    · exact before entry old
    · exact List.mem_singleton.mp new ▸ fit
  induction built with
  | declare declared =>
    simp only [BitField.declare, bind_eq_ok, pure, Except.pure, Except.ok.injEq] at declared
    obtain ⟨declaration, -, rfl⟩ := declared
    simp
  | add _ added ih => exact appended ih (fits_of_pushFitting added) (pushFitting_eq_ok added)
  | addSigned _ added ih => exact appended ih (fits_of_pushFitting added) (pushFitting_eq_ok added)
  | addMember _ _ added ih => exact appended ih (EnumMember.fits_required _) added

/-- A built bit field is packed. -/
theorem BitField.Built.exists_bytes {field : BitField} (built : field.Built) :
    ∃ bytes, field.bytes = .ok bytes := by
  have widths : field.type.word.widths = field.entries.map (·.width) := by
    simp [type, BitFieldType.word]
  have fit : ∀ pair ∈ field.entries.map (fun entry => (entry.value.stored, entry.width)),
      Bits.fits pair.1 pair.2.toNat = true := by
    simpa using built.fits
  obtain ⟨word, combined⟩ := WordFields.exists_combine fit 0
  refine ⟨field.type.word.bytes word, map_eq_ok.mpr ⟨word, mapError_eq_ok.mpr ?_, rfl⟩⟩
  rw [WordFields.pack, if_pos (by simp [widths]), widths, List.zip_map', combined]

/-- Bits of one entry of a bit field array: what the widest values of the columns require. -/
def BitTable.stride (table : BitTable) : Nat :=
  (Table.maxima table.cells table.type.fields.length).sum

/-- The rows of a built bit field array are complete, and the digits of their blobs are bits. -/
theorem BitTable.Built.cells {table : BitTable} (built : table.Built) :
    ∀ row ∈ table.cells, row.length = table.type.fields.length ∧
      ∀ cell ∈ row, cell.IsBinary := by
  have complete : ∀ row ∈ table.rows, row.length = table.type.fields.length := by
    induction built with
    | declare declared =>
      simp only [BitTable.declare, bind_eq_ok, pure, Except.pure, Except.ok.injEq] at declared
      obtain ⟨type, -, rfl⟩ := declared
      simp
    | push _ appended ih =>
      obtain ⟨enough, -, rfl⟩ := push_eq_ok.mp appended
      intro row present
      rcases List.mem_append.mp present with old | new
      · exact ih row old
      · obtain rfl := List.mem_singleton.mp new
        exact enough
  intro row present
  obtain ⟨items, inRows, rfl⟩ := List.mem_map.mp present
  refine ⟨by simpa using complete items inRows, fun cell inRow => ?_⟩
  obtain ⟨item, -, rfl⟩ := List.mem_map.mp inRow
  cases item with
  | int value => trivial
  | blob content =>
    intro digit inDigits
    obtain ⟨bit, -, rfl⟩ := List.mem_map.mp inDigits
    cases bit <;> decide

/-- Complete rows of bits are encoded unless their entries are too wide for the header. -/
theorem Table.encode_eq {rows : List (List Cell)} {columns : Nat}
    (checked : ∀ row ∈ rows, row.length = columns ∧ ∀ cell ∈ row, cell.IsBinary) :
    ((maxima rows columns).sum ≤ 65535 ∧ ∃ bytes, encode rows columns = .ok bytes) ∨
      (65535 < (maxima rows columns).sum ∧
        encode rows columns = .error (.strideOverflow (maxima rows columns).sum)) := by
  have complete : ∀ row ∈ rows, row.length = columns := fun row present => (checked row present).1
  rcases Nat.lt_or_ge 65535 (maxima rows columns).sum with wide | small
  · refine .inr ⟨wide, ?_⟩
    have refused : headerSlots (maxima rows columns) =
        .error (.strideOverflow (maxima rows columns).sum) := by
      rw [headerSlots, stride_eq_sum, if_neg (by rw [UInt16.size]; omega)]
    exact bind_eq_error.mpr (.inr ⟨_, columnWidths_of_complete complete,
      bind_eq_error.mpr (.inl refused)⟩)
  · exact .inl ⟨small, exists_encode_eq_ok
      ⟨complete, fun row present => (checked row present).2, small⟩⟩

/-- A built bit field array is packed unless its entries are too wide for the header. -/
theorem BitTable.Built.bytes_eq {table : BitTable} (built : table.Built) :
    (table.stride ≤ 65535 ∧ ∃ bytes, table.bytes = .ok bytes) ∨
      (65535 < table.stride ∧
        table.bytes = .error (.bitField table.type.name (.strideOverflow table.stride))) := by
  rcases Table.encode_eq built.cells with ⟨small, bytes, encoded⟩ | ⟨wide, refused⟩
  · exact .inl ⟨small, bytes, mapError_eq_ok.mpr encoded⟩
  · exact .inr ⟨wide, by rw [BitTable.bytes, refused]; rfl⟩

/-- Bytes of an encoded bit field array, counted without bound. -/
def BitTable.length (table : BitTable) : Nat :=
  Table.encodedLength (Table.maxima table.cells table.type.fields.length) table.rows.length

/-- A built bit field array announces its length. -/
theorem BitTable.Built.encodedLength_eq {table : BitTable} (built : table.Built) :
    table.encodedLength = checked .overflow table.length := by
  have computed : table.columnWidths = .ok (Table.maxima table.cells table.type.fields.length) :=
    mapError_eq_ok.mpr
      (Table.columnWidths_of_complete fun row present => (built.cells row present).1)
  rw [BitTable.encodedLength, computed]
  rfl

end Leaves

namespace Value

/-- A part that packing has no reason to refuse except for the width of its entries. -/
def Checked : Value → Prop
  | bitField field => field.Built
  | bitTable table => table.Built
  | _ => True

/-- All bit fields and bit field arrays within a value went through their checks. -/
def PartsChecked (value : Value) : Prop :=
  ∀ part, Within part value → part.Checked

theorem PartsChecked.within {part whole : Value} (checked : whole.PartsChecked)
    (inside : Within part whole) : part.PartsChecked :=
  fun _ deeper => checked _ (deeper.trans inside)

/-- A built bit field and a built bit field array went through their checks. -/
theorem Built.checked {value : Value} (built : value.Built) : value.Checked := by
  have certified := built.certified
  cases value with
  | bitField field => exact certified
  | bitTable table => exact certified
  | _ => trivial

/-- The parts of a built value went through their checks. -/
theorem Built.partsChecked {value : Value} (built : value.Built) : value.PartsChecked :=
  fun _ inside => (built.within inside).checked

mutual

/-- Bytes that a value takes in place, counted without bound. -/
def ownLength : Value → Nat
  | int integer => integer.kind.bytes
  | char _ => 1
  | null => 0
  | ref _ width => width.bytes
  | nullRef _ width => width.bytes
  | array element fixed _ items => element.width?.getD 0 * fixed.getD items.length
  | text content => content.fixed.getD content.bytes.length
  | blob fixed _ content => fixed.getD content.bytes.length
  | refTable _ fixed width items => width.bytes * fixed.getD items.length
  | bitField field => field.total.bytes
  | bitTable table => table.length
  | enum chosen => chosen.enumeration.width
  | struct ⟨_, members, _, _, _, _⟩ => membersLength members

/-- Bytes of members together, counted without bound. -/
def membersLength : List (Member Value) → Nat
  | [] => 0
  | ⟨_, _, value, _⟩ :: rest => value.ownLength + membersLength rest

end

/-- Members whose sizes are their lengths, as far as these are words, have their length
    together as a size, as far as that is a word. -/
theorem membersSize_eq {members : List (Member Value)} {start : Nat}
    (small : start < addressSpace)
    (sizes : ∀ member ∈ members,
      member.content.size = checked .overflow member.content.ownLength) :
    membersSize start members = checked .overflow (start + membersLength members) := by
  induction members generalizing start with
  | nil => exact (checked_of_lt small).symm
  | cons member rest ih =>
    rw [List.forall_mem_cons] at sizes
    rw [membersSize, membersLength, sizes.1, ← Nat.add_assoc]
    by_cases inside : start + member.content.ownLength < addressSpace
    · rw [checked_of_lt (show member.content.ownLength < addressSpace by omega)]
      show (checked LayoutError.overflow (start + member.content.ownLength) >>= _) = _
      rw [checked_of_lt inside]
      exact ih inside sizes.2
    · rw [checked_of_le (show addressSpace ≤
        start + member.content.ownLength + membersLength rest by omega)]
      refine bind_eq_error.mpr ?_
      by_cases alone : member.content.ownLength < addressSpace
      · refine .inr ⟨_, checked_of_lt alone, bind_eq_error.mpr (.inl ?_)⟩
        exact checked_of_le (Nat.le_of_not_lt inside)
      · exact .inl (checked_of_le (Nat.le_of_not_lt alone))

/-- Every part of a sound value has its length as its size once it went through its checks,
    as far as that is a word. -/
theorem Sound.size_eq {value : Value} (sound : value.Sound) (certain : value.PartsChecked) :
    value.size = checked .overflow value.ownLength := by
  have words (width : WordWidth) : width.bytes < addressSpace := by cases width <;> decide
  induction value using Value.induction
  case int integer => exact (checked_of_lt (words integer.kind.width)).symm
  case ref target width ih => exact (checked_of_lt (by cases width <;> decide)).symm
  case nullRef target width => exact (checked_of_lt (by cases width <;> decide)).symm
  case array element fixed align items ih =>
    cases sound with
    | array type _ _ _ _ =>
    cases type with
    | array _ _ _ sized _ =>
    obtain ⟨width, known⟩ := Option.isSome_iff_exists.mp sized
    rw [size_array known, ownLength, known]
    rfl
  case bitField field => exact (checked_of_lt (words field.total)).symm
  case bitTable table =>
    have built : table.Built := certain _ .self
    exact built.encodedLength_eq
  case enum chosen =>
    have narrow : chosen.enumeration.width < addressSpace := by
      rw [Enumeration.width]
      cases chosen.enumeration.storage with
      | int kind => exact words kind.width
      | char => decide
    exact (checked_of_lt narrow).symm
  case struct record ih =>
    cases sound with
    | struct _ sound =>
    have sizes : ∀ member ∈ record.members,
        member.content.size = checked .overflow member.content.ownLength :=
      fun member present => ih member present (sound member present)
        (certain.within (.member present .self))
    cases record
    exact (membersSize_eq (by decide) sizes).trans (by rw [Nat.zero_add]; rfl)
  all_goals rfl

/-- A document of a value: the value itself, or a document of what one of its links leads to. -/
inductive Document (part : Value) : Value → Prop
  | self : Document part part
  | target {whole : Value} {link : Link} (present : link ∈ whole.links 0 0)
      (inside : Document part link.target) : Document part whole

/-- A link leads to a smaller value. -/
theorem sizeOf_link {value : Value} {base position : Nat} :
    ∀ link ∈ value.links base position, sizeOf link.target < sizeOf value := by
  induction value using Value.induction generalizing base position <;> intro link present
  case ref target width ih =>
    obtain rfl := List.mem_singleton.mp present
    simp only [Value.ref.sizeOf_spec]
    omega
  case array element fixed align items ih =>
    obtain ⟨item, inItems, place, -, -, inside⟩ := mem_itemLinks present
    have deeper := ih item inItems link inside
    have smaller := List.sizeOf_lt_of_mem inItems
    simp only [Value.array.sizeOf_spec]
    omega
  case refTable target fixed width items ih =>
    have smaller := List.sizeOf_lt_of_mem (mem_entryLinks present).1
    simp only [Value.refTable.sizeOf_spec]
    omega
  case struct record ih =>
    rw [links_struct] at present
    obtain ⟨member, inMembers, inside⟩ := mem_memberLinks present
    have deeper := ih member inMembers link inside
    have smaller := List.sizeOf_lt_of_mem inMembers
    obtain ⟨name, members, align, announced, constants, enums⟩ := record
    obtain ⟨memberName, offset, content, isPadding⟩ := member
    simp only [Value.struct.sizeOf_spec, Record.mk.sizeOf_spec, Member.mk.sizeOf_spec] at *
    omega
  all_goals cases present

/-- The byte behind the last target, when links are resolved from a free byte on and the
    targets have the given lengths. -/
def reach (length : Value → Nat) (links : List Link) (free : Nat) : Nat :=
  links.foldl (fun free link => free + link.padding free + length link.target) free

/-- Bytes of a value as a document: its own, and for each of its links the padding and the
    document of the target. They are counted without bound. -/
def documentLength (value : Value) : Nat :=
  (value.links 0 0).attach.foldl
    (fun free link => free + link.1.padding free + documentLength link.1.target) value.ownLength
termination_by sizeOf value
decreasing_by exact sizeOf_link link.1 link.2

theorem documentLength_eq (value : Value) :
    value.documentLength = reach documentLength (value.links 0 0) value.ownLength := by
  rw [documentLength, reach]
  exact List.foldl_attach (l := value.links 0 0)
    (f := fun free link => free + link.padding free + documentLength link.target)

/-- Links with the distances to their targets, when the first target goes to a free byte and
    the targets have the given lengths. Distances are counted without bound. -/
def distances (length : Value → Nat) : List Link → (free : Nat) → List (Link × Nat)
  | [], _ => []
  | link :: rest, free =>
      (link, link.distance free) ::
        distances length rest (free + link.padding free + length link.target)

/-- The links of a value with the distances of their targets when the value is a document,
    counted without bound. -/
def places (value : Value) : List (Link × Nat) :=
  distances documentLength (value.links 0 0) value.ownLength

section Reach

variable {length : Value → Nat} {links : List Link} {free : Nat}

theorem reach_cons {link : Link} : reach length (link :: links) free =
    reach length links (free + link.padding free + length link.target) := rfl

end Reach

end Value
end BinaryLayout
