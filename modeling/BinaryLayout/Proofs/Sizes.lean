import BinaryLayout.Proofs.Compatibility
import BinaryLayout.Proofs.Parts
import BinaryLayout.Proofs.Tables
import BinaryLayout.Value.Pack

/-!
# Announced and written bytes

The size of a value comes from types, its bytes come from the data, and the two meet
in what arrays accept. The laws lead from the sizes of parts to the bytes that packing
writes for them, and from there to the free byte, which never falls behind the
position of the part that is packed next.
-/

namespace BinaryLayout

@[simp] theorem Run.fill_bytes (run : Run) (length : Nat) :
    (run.fill length).bytes = run.bytes ++ List.replicate (length - run.bytes.length) 0 := by
  unfold Run.fill
  split
  · rfl
  · simp [show length - run.bytes.length = 0 by omega]

namespace Blocks

@[simp] theorem join_nil : join [] = ⟨.empty, .empty⟩ := rfl

@[simp] theorem join_cons_inPlace (part : Blocks) (parts : List Blocks) :
    (join (part :: parts)).inPlace.bytes = part.inPlace.bytes ++ (join parts).inPlace.bytes := by
  simp [join, Run.join]

@[simp] theorem join_cons_referred (part : Blocks) (parts : List Blocks) :
    (join (part :: parts)).referred.bytes = part.referred.bytes ++ (join parts).referred.bytes := by
  simp [join, Run.join]

end Blocks

@[simp] theorem IntKind.length_store (kind : IntKind) (value : Int) :
    (kind.store value).length = kind.bytes := by
  simp [store]

theorem RefWidth.bytes_pos (width : RefWidth) : 0 < width.bytes := by
  cases width <;> decide

theorem IntKind.encode_eq_ok {kind : IntKind} {value : Int} {bytes : List UInt8} :
    kind.encode value = .ok bytes ↔ kind.contains value = true ∧ bytes = kind.store value := by
  by_cases inRange : kind.contains value = true <;> simp [encode, inRange, eq_comm]

@[simp] theorem EnumMember.length_bytes (chosen : EnumMember) :
    chosen.bytes.length = chosen.enumeration.width := by
  cases storage : chosen.enumeration.storage <;>
    simp [bytes, Enumeration.width, EnumStorage.store, EnumStorage.bytes, storage]

/-- A packed bit field takes the bytes of its word. -/
theorem BitField.length_bytes {field : BitField} {bytes : List UInt8}
    (packed : field.bytes = .ok bytes) : bytes.length = field.total.bytes := by
  obtain ⟨word, -, rfl⟩ := map_eq_ok.mp packed
  simp [WordFields.bytes, BitFieldType.word, BitField.type]

/-- An encoded bit field array takes the announced bytes. -/
theorem BitTable.length_bytes {table : BitTable} {bytes : List UInt8} {size : Nat}
    (sized : table.encodedLength = .ok size) (packed : table.bytes = .ok bytes) :
    bytes.length = size := by
  simp only [encodedLength, columnWidths, bind_eq_ok, mapError_eq_ok, checked_eq_ok] at sized
  obtain ⟨widths, computed, -, rfl⟩ := sized
  have length := Table.length_encode computed (mapError_eq_ok.mp packed)
  simpa [cells] using length

namespace Value

/-- The free byte is counted from a position that does not pass it. -/
theorem rebase_eq_ok {running position distance : Nat} :
    rebase running position = .ok distance ↔
      position ≤ running ∧ distance = running - position := by
  by_cases behind : position ≤ running <;> simp [rebase, behind, eq_comm]

theorem rebase_of_le {running position : Nat} (behind : position ≤ running) :
    rebase running position = .ok (running - position) :=
  rebase_eq_ok.mpr ⟨behind, rfl⟩

section Steps

attribute [local simp] packAt packItems packEntries packMembers size membersSize

variable {offset position running : Nat} {parts : List Blocks}

/-- The first item is packed, then the ones behind it, all at distances and up to a free byte
    that are words. -/
theorem packItems_cons {item : Value} {rest : List Value} :
    packItems (item :: rest) position running = .ok parts ↔
      ∃ part later, item.packAt (running - position) = .ok part ∧
        packItems rest (position + part.inPlace.bytes.length)
          (running + part.referred.bytes.length) = .ok later ∧ parts = part :: later ∧
        position ≤ running ∧ running + part.referred.bytes.length < addressSpace := by
  simp only [packItems, bind_eq_ok, rebase_eq_ok, checked_eq_ok, pure, Except.pure,
    Except.ok.injEq]
  grind

/-- The same for members, of which references resolve against the struct. -/
theorem packMembers_cons {member : Member Value} {rest : List (Member Value)} :
    packMembers (member :: rest) position running = .ok parts ↔
      ∃ part later, member.content.packAt
          (if member.content.isRef then running else running - position) = .ok part ∧
        packMembers rest (position + part.inPlace.bytes.length)
          (running + part.referred.bytes.length) = .ok later ∧ parts = part :: later ∧
        (member.content.isRef = false → position ≤ running) ∧
        running + part.referred.bytes.length < addressSpace := by
  cases direct : member.content.isRef <;>
    simp only [packMembers, direct, bind_eq_ok, rebase_eq_ok, checked_eq_ok, pure, Except.pure,
      Except.ok.injEq, Bool.false_eq_true, if_true, if_false] <;> grind

/-- An entry of a reference table at the free byte. -/
def packEntry (width : RefWidth) (item : Value) (running : Nat) : Except LayoutError Blocks :=
  if item.isNull then .ok (.ofBytes (width.kind.store 0))
  else resolve width item.type.align running (packWhole item (packAt item))

/-- The first entry is packed, then the ones behind it. -/
theorem packEntries_eq_bind {width : RefWidth} {item : Value} {rest : List Value} :
    packEntries width (item :: rest) running = (do
      let part ← packEntry width item running
      let running ← checked .overflow (running + part.referred.bytes.length)
      let parts ← packEntries width rest running
      return part :: parts) := by
  cases absent : item.isNull <;> simp [packEntries, packEntry, absent]

theorem packEntries_cons {width : RefWidth} {item : Value} {rest : List Value} :
    packEntries width (item :: rest) running = .ok parts ↔
      ∃ part later, packEntry width item running = .ok part ∧
        packEntries width rest (running + part.referred.bytes.length) = .ok later ∧
        parts = part :: later ∧ running + part.referred.bytes.length < addressSpace := by
  simp only [packEntries_eq_bind, bind_eq_ok, checked_eq_ok, pure, Except.pure,
    Except.ok.injEq]
  grind

/-- The distances that a reference can store are words. -/
theorem lt_of_contains {width : RefWidth} {distance : Nat}
    (inRange : width.kind.contains (distance : Int) = true) : distance < addressSpace := by
  have room : width.kind.max < (addressSpace : Int) := by cases width <;> decide
  simp only [IntKind.contains, Bool.and_eq_true, decide_eq_true_eq] at inRange
  omega

/-- A resolved reference: the target is packed, and where it goes can be stored. -/
theorem resolve_eq_ok {width : RefWidth} {align : Nat} {target : Except LayoutError Blocks}
    {blocks : Blocks} :
    resolve width align offset target = .ok blocks ↔
      ∃ data, target = .ok data ∧
        width.kind.contains ((offset + gap offset align : Nat) : Int) = true ∧
        blocks = ⟨⟨width.kind.store ((offset + gap offset align : Nat) : Int), false⟩,
          ⟨List.replicate (gap offset align) 0 ++ data.bytes, data.endsInBits⟩⟩ := by
  simp only [resolve, bind_eq_ok, pure, Except.pure, Except.ok.injEq, checked_eq_ok,
    IntKind.encode_eq_ok]
  constructor
  · rintro ⟨_, ⟨-, rfl⟩, data, packed, _, ⟨inRange, rfl⟩, rfl⟩
    exact ⟨data, packed, inRange, rfl⟩
  · rintro ⟨data, packed, inRange, rfl⟩
    exact ⟨_, ⟨lt_of_contains inRange, rfl⟩, data, packed, _, ⟨inRange, rfl⟩, rfl⟩

/-- A value packed on its own: it is no reference, and its free byte is its size. -/
theorem packWhole_eq_ok {value : Value} {packAt : Nat → Except LayoutError Blocks}
    {blocks : Blocks} :
    packWhole value packAt = .ok blocks ↔
      ∃ size inner, value.size = .ok size ∧ value.isRef = false ∧ packAt size = .ok inner ∧
        blocks = inner.combine := by
  simp only [packWhole, bind_eq_ok, pure, Except.pure]
  grind [bind_eq_ok]

end Steps

section Members

variable {members : List (Member Value)} {start total : Nat}

/-- Counting members on from a position adds what they take from zero on. -/
theorem membersSize_eq_ok (below : start < addressSpace) :
    membersSize start members = .ok total ↔
      ∃ own, membersSize 0 members = .ok own ∧ start + own < addressSpace ∧
        total = start + own := by
  induction members generalizing start total with
  | nil => simp [membersSize, below, eq_comm]
  | cons member rest ih =>
    simp only [membersSize, bind_eq_ok, checked_eq_ok, Nat.zero_add]
    constructor
    · rintro ⟨size, measured, _, ⟨near, rfl⟩, later⟩
      obtain ⟨own, rest, held, rfl⟩ := (ih near).mp later
      have here : size < addressSpace := by omega
      have both : size + own < addressSpace := by omega
      exact ⟨size + own, ⟨size, measured, size, ⟨here, rfl⟩,
        (ih here).mpr ⟨own, rest, both, rfl⟩⟩, by omega, by omega⟩
    · rintro ⟨_, ⟨size, measured, _, ⟨here, rfl⟩, later⟩, held, rfl⟩
      obtain ⟨own, rest, -, rfl⟩ := (ih here).mp later
      have near : start + size < addressSpace := by omega
      exact ⟨size, measured, start + size, ⟨near, rfl⟩,
        (ih near).mpr ⟨own, rest, by omega, by omega⟩⟩

/-- Members are as large as the first one and the others together. -/
theorem membersSize_cons {member : Member Value} :
    membersSize 0 (member :: members) = .ok total ↔
      ∃ first later, member.content.size = .ok first ∧ membersSize 0 members = .ok later ∧
        total = first + later ∧ first + later < addressSpace := by
  simp only [membersSize, bind_eq_ok, checked_eq_ok, Nat.zero_add]
  constructor
  · rintro ⟨first, measured, _, ⟨here, rfl⟩, later⟩
    obtain ⟨own, rest, held, rfl⟩ := (membersSize_eq_ok here).mp later
    exact ⟨first, own, measured, rest, rfl, held⟩
  · rintro ⟨first, own, measured, rest, rfl, held⟩
    have here : first < addressSpace := by omega
    exact ⟨first, measured, first, ⟨here, rfl⟩,
      (membersSize_eq_ok here).mpr ⟨own, rest, held, rfl⟩⟩

/-- Members in a row that end somewhere are as large together as the distance. -/
theorem membersSize_of_laid {finish : Nat}
    (laid : Consecutive start (memberTypes members) (some finish)) (held : finish < addressSpace)
    (sized : ∀ member ∈ members, ∀ width, member.content.type.width? = some width →
      member.content.size = .ok width) :
    ∃ total, membersSize 0 members = .ok total ∧ start + total = finish := by
  induction members generalizing start with
  | nil =>
    obtain rfl : finish = start := by simpa [memberTypes, Consecutive] using laid
    exact ⟨0, rfl, rfl⟩
  | cons member rest ih =>
    obtain ⟨-, tail⟩ := laid
    cases known : member.content.type.width? with
    | none => simp [known] at tail
    | some width =>
      rw [List.forall_mem_cons] at sized
      obtain ⟨later, measured, ends⟩ := @ih (start + width) (by simpa [known] using tail) sized.2
      exact ⟨width + later,
        membersSize_cons.mpr ⟨width, later, sized.1 width known, measured, rfl, by omega⟩,
        by omega⟩

end Members

/-- An array takes the width of its elements for each of its places. -/
theorem size_array {element : Ty} {width : Nat} (known : element.width? = some width)
    (fixed : Option Nat) (align : Nat) (items : List Value) :
    (array element fixed align items).size =
      checked .overflow (width * fixed.getD items.length) := by
  rw [size, Ty.width?_eq_some.mp known]
  rfl

/-- A value whose type is stored in place takes as many bytes as the type says, and asking for
    its size stops where asking for the width of the type does. -/
theorem Sound.size_eq_width {value : Value} (sound : value.Sound)
    (inPlace : value.isInPlace = true) : value.size = value.type.width := by
  induction value using Value.induction with
  | null => cases inPlace
  | array element fixed align items ih =>
    cases sound with
    | array type _ _ _ _ =>
    cases type with
    | array _ _ _ sized _ =>
    obtain ⟨width, known⟩ := Option.isSome_iff_exists.mp sized
    cases fixed with
    | none => cases inPlace
    | some count =>
      rw [size_array known, Value.type, Ty.width, Ty.width?_eq_some.mp known, Nat.mul_comm]
      rfl
  | text content =>
    cases fixed : content.fixed <;>
      simp [isInPlace, Value.type, Ty.isInPlace, fixed] at inPlace
    simp [size, Value.type, Ty.width, Ty.arrayWidth, fixed]
  | blob fixed align content =>
    cases fixed <;> simp [isInPlace, Value.type, Ty.isInPlace] at inPlace
    simp [size, Value.type, Ty.width, Ty.arrayWidth]
  | refTable target fixed place items ih =>
    cases fixed <;> simp [isInPlace, Value.type, Ty.isInPlace] at inPlace
    simp [size, Value.type, Ty.width, Nat.mul_comm]
  | bitTable table => cases inPlace
  | struct record ih =>
    cases sound with
    | struct shape sound =>
    obtain ⟨name, members, align, announced, constants, enums⟩ := record
    cases shape with
    | struct _ _ _ laid _ held =>
    obtain ⟨finish, placed, sized⟩ := laid
    cases announced with
    | none => cases inPlace
    | some width =>
      obtain rfl : some width = finish := sized rfl
      obtain ⟨total, measured, ends⟩ :=
        membersSize_of_laid placed (held width rfl) fun member present width known => by
          have stored := Ty.isInPlace_of_width (by rw [known]; rfl)
          rw [ih member present (sound member present) stored, ← Ty.width?_eq_some, known]
      obtain rfl : total = width := by omega
      exact measured
  | _ => rfl

/-- A value whose type has a width takes that many bytes. -/
theorem Sound.size_of_width {value : Value} (sound : value.Sound) {width : Nat}
    (known : value.type.width? = some width) : value.size = .ok width := by
  rw [sound.size_eq_width (Ty.isInPlace_of_width (by rw [known]; rfl)), ← Ty.width?_eq_some, known]

section Containers

variable {offset size : Nat} {blocks : Blocks}

/-- An array in place is its items, filled up to its size. -/
theorem packAt_array {element : Ty} {fixed : Option Nat} {align : Nat} {items : List Value}
    (sized : (Value.array element fixed align items).size = .ok size) :
    (Value.array element fixed align items).packAt offset = .ok blocks ↔
      ∃ parts, packItems items 0 offset = .ok parts ∧ blocks = (Blocks.join parts).fill size := by
  simp only [packAt, bind_eq_ok, pure, Except.pure, Except.ok.injEq, sized, exists_eq_left',
    eq_comm (a := blocks)]

/-- A reference table is its entries, filled up to its size. -/
theorem packAt_refTable {target : Ty} {fixed : Option Nat} {width : RefWidth}
    {items : List Value} (sized : (Value.refTable target fixed width items).size = .ok size) :
    (Value.refTable target fixed width items).packAt offset = .ok blocks ↔
      ∃ parts, packEntries width items offset = .ok parts ∧
        blocks = (Blocks.join parts).fill size := by
  simp only [packAt, bind_eq_ok, pure, Except.pure, Except.ok.injEq, sized, exists_eq_left',
    eq_comm (a := blocks)]

/-- A struct is its members, filled up to its size, whether that is announced or
    computed. -/
theorem Sound.packAt_struct {record : Record Value} (sound : (Value.struct record).Sound)
    (sized : (Value.struct record).size = .ok size) :
    (Value.struct record).packAt offset = .ok blocks ↔
      ∃ parts, packMembers record.members 0 offset = .ok parts ∧
        blocks = (Blocks.join parts).fill size := by
  obtain ⟨name, members, align, announced, constants, enums⟩ := record
  have computed : membersSize 0 members = .ok size := sized
  cases announced with
  | none => simp only [packAt, bind_eq_ok, pure, Except.pure, Except.ok.injEq, computed,
      exists_eq_left', eq_comm (a := blocks)]
  | some width =>
    obtain rfl : width = size := Except.ok.inj ((sound.size_of_width rfl).symm.trans sized)
    simp only [packAt, bind_eq_ok, pure, Except.pure, Except.ok.injEq, exists_eq_left',
      eq_comm (a := blocks)]

end Containers

/-- What packing at an offset not below the size writes in place has that size. -/
def Exact (value : Value) : Prop :=
  ∀ offset size blocks, value.size = .ok size → size ≤ offset → value.packAt offset = .ok blocks →
    blocks.inPlace.bytes.length = size

section Lengths

variable {offset position running : Nat} {parts : List Blocks}

/-- Items of one width are written in that width each. -/
theorem length_packItems {items : List Value} {width : Nat}
    (exact : ∀ item ∈ items, item.Exact) (sized : ∀ item ∈ items, item.size = .ok width)
    (behind : position + width * items.length ≤ running)
    (packed : packItems items position running = .ok parts) :
    (Blocks.join parts).inPlace.bytes.length = width * items.length := by
  induction items generalizing position running parts with
  | nil =>
    obtain rfl : parts = [] := by simpa [packItems, eq_comm] using packed
    rfl
  | cons item rest ih =>
    obtain ⟨part, later, first, others, rfl, -⟩ := packItems_cons.mp packed
    simp only [List.length_cons, Nat.mul_succ] at behind ⊢
    rw [List.forall_mem_cons] at exact sized
    have here := exact.1 _ _ _ sized.1 (by omega) first
    have behind' := ih exact.2 sized.2 (by omega) others
    simp only [Blocks.join_cons_inPlace, List.length_append, here, behind']
    omega

/-- Entries take the width of a reference each. -/
theorem length_packEntries {width : RefWidth} {items : List Value}
    (packed : packEntries width items running = .ok parts) :
    (Blocks.join parts).inPlace.bytes.length = width.bytes * items.length := by
  induction items generalizing running parts with
  | nil =>
    obtain rfl : parts = [] := by simpa [packEntries, eq_comm] using packed
    rfl
  | cons item rest ih =>
    obtain ⟨part, later, first, others, rfl, -⟩ := packEntries_cons.mp packed
    have here : part.inPlace.bytes.length = width.bytes := by
      unfold packEntry at first
      split at first
      · obtain rfl := Except.ok.inj first
        simp [Blocks.ofBytes, RefWidth.bytes]
      · obtain ⟨data, -, -, rfl⟩ := resolve_eq_ok.mp first
        simp [RefWidth.bytes]
    simp only [Blocks.join_cons_inPlace, List.length_append, here, ih others, List.length_cons,
      Nat.mul_succ]
    omega

/-- Members are written in their sizes, one behind the other. -/
theorem length_packMembers {members : List (Member Value)} {total : Nat}
    (exact : ∀ member ∈ members, member.content.Exact)
    (sized : membersSize 0 members = .ok total) (behind : position + total ≤ running)
    (packed : packMembers members position running = .ok parts) :
    (Blocks.join parts).inPlace.bytes.length = total := by
  induction members generalizing position running parts total with
  | nil =>
    obtain rfl : parts = [] := by simpa [packMembers, eq_comm] using packed
    obtain rfl : 0 = total := by simpa [membersSize] using sized
    rfl
  | cons member rest ih =>
    obtain ⟨part, later, first, others, rfl, -⟩ := packMembers_cons.mp packed
    obtain ⟨size, remaining, measured, measured', rfl, -⟩ := membersSize_cons.mp sized
    rw [List.forall_mem_cons] at exact
    have here := exact.1 _ _ _ measured (by split <;> omega) first
    have behind' := ih exact.2 measured' (by omega) others
    simp only [Blocks.join_cons_inPlace, List.length_append, here, behind']

end Lengths

/-- Items of a uniform array take as many bytes as the element type says. -/
theorem Sound.item_size {element : Ty} {fixed : Option Nat} {align : Nat} {items : List Value}
    (sound : (Value.array element fixed align items).Sound)
    (uniform : (Value.array element fixed align items).Uniform) :
    ∃ width, element.width? = some width ∧ ∀ item ∈ items, item.size = .ok width := by
  cases sound with
  | array type _ items _ _ =>
  cases type with
  | array _ _ _ sized _ =>
    obtain ⟨width, known⟩ := Option.isSome_iff_exists.mp sized
    refine ⟨width, known, fun item present => (items item present).size_of_width ?_⟩
    exact (uniform _ _ _ _ .self item present).trans known

/-- A number of elements that fits is not above the capacity. -/
theorem Fits.le_getD {length : Nat} {fixed : Option Nat} (fits : Fits length fixed) :
    length ≤ fixed.getD length := by
  cases fixed with
  | none => exact Nat.le_refl _
  | some capacity => exact fits capacity rfl

/-- Sound uniform values are written in their sizes. -/
theorem Sound.exact {value : Value} (sound : value.Sound) (uniform : value.Uniform) :
    value.Exact := by
  induction value using Value.induction <;> intro offset size blocks sized enough packed
  case int integer =>
    obtain rfl := Except.ok.inj packed
    obtain rfl := Except.ok.inj sized
    simp [Blocks.ofBytes, Integer.bytes]
  case char byte =>
    obtain rfl := Except.ok.inj packed
    obtain rfl := Except.ok.inj sized
    rfl
  case null =>
    obtain rfl := Except.ok.inj packed
    obtain rfl := Except.ok.inj sized
    rfl
  case ref target width ih =>
    obtain ⟨data, -, -, rfl⟩ := resolve_eq_ok.mp packed
    obtain rfl := Except.ok.inj sized
    simp [RefWidth.bytes]
  case nullRef target width =>
    obtain rfl := Except.ok.inj packed
    obtain rfl := Except.ok.inj sized
    simp [Blocks.ofBytes, RefWidth.bytes]
  case array element fixed align items ih =>
    obtain ⟨width, known, itemSizes⟩ := sound.item_size uniform
    obtain ⟨parts, stored, rfl⟩ := (packAt_array sized).mp packed
    obtain ⟨-, rfl⟩ := checked_eq_ok.mp ((size_array known ..).symm.trans sized)
    cases sound with
    | array type fits sound _ _ =>
    have room := Nat.mul_le_mul_left width (Fits.le_getD fits)
    have written := length_packItems (fun item present => ih item present (sound item present)
      (uniform.item item present)) itemSizes (by omega) stored
    simp only [Blocks.fill, Run.fill_bytes, List.length_append, List.length_replicate, written]
    omega
  case text content =>
    obtain rfl := Except.ok.inj packed
    obtain ⟨-, rfl⟩ := checked_eq_ok.mp sized
    cases sound with
    | text fits _ =>
    have room := Fits.le_getD fits
    cases fixed : content.fixed <;> simp [Blocks.fill, Blocks.ofBytes, fixed] at room ⊢
    omega
  case blob fixed align content =>
    obtain rfl := Except.ok.inj packed
    obtain ⟨-, rfl⟩ := checked_eq_ok.mp sized
    cases sound with
    | blob fits _ =>
    have room := Fits.le_getD fits
    cases fixed <;> simp [Blocks.fill, Blocks.ofBits] at room ⊢
    omega
  case refTable target fixed width items ih =>
    obtain ⟨parts, stored, rfl⟩ := (packAt_refTable sized).mp packed
    obtain ⟨-, rfl⟩ := checked_eq_ok.mp sized
    cases sound with
    | refTable _ fits _ _ =>
    have room := Nat.mul_le_mul_left width.bytes (Fits.le_getD fits)
    have written := length_packEntries stored
    simp only [Blocks.fill, Run.fill_bytes, List.length_append, List.length_replicate, written]
    omega
  case bitField field =>
    obtain ⟨bytes, stored, rfl⟩ := map_eq_ok.mp packed
    obtain rfl := Except.ok.inj sized
    exact BitField.length_bytes stored
  case bitTable table =>
    obtain ⟨bytes, stored, rfl⟩ := map_eq_ok.mp packed
    exact BitTable.length_bytes sized stored
  case enum chosen =>
    obtain rfl := Except.ok.inj packed
    obtain rfl := Except.ok.inj sized
    simp [Blocks.ofBytes]
  case struct record ih =>
    obtain ⟨parts, stored, rfl⟩ := (sound.packAt_struct sized).mp packed
    cases sound with
    | struct _ sound =>
    have exact : ∀ member ∈ record.members, member.content.Exact := fun member present =>
      ih member present (sound member present) (uniform.member member present)
    obtain ⟨name, members, align, announced, constants, enums⟩ := record
    have written := length_packMembers exact sized (by omega) stored
    simp [Blocks.fill, written]

mutual

/-- Packing a value at an offset counts the free byte `running` from `position`. -/
inductive Rebases : Value → (offset running position : Nat) → Prop
  | target {target : Value} {width : RefWidth} {offset size running position : Nat}
      (sized : target.size = .ok size) (direct : target.isRef = false)
      (inside : Rebases target size running position) :
      Rebases (.ref target width) offset running position
  | array {element : Ty} {fixed : Option Nat} {align offset running position : Nat}
      {items : List Value} (inside : ItemsRebase items 0 offset running position) :
      Rebases (.array element fixed align items) offset running position
  | refTable {target : Ty} {fixed : Option Nat} {width : RefWidth}
      {offset running position : Nat} {items : List Value}
      (inside : EntriesRebase width items offset running position) :
      Rebases (.refTable target fixed width items) offset running position
  | struct {record : Record Value} {offset running position : Nat}
      (inside : MembersRebase record.members 0 offset running position) :
      Rebases (.struct record) offset running position

/-- The same for items that are packed from a position and a free byte on. -/
inductive ItemsRebase : List Value → (start free running position : Nat) → Prop
  | here {item : Value} {rest : List Value} {start free : Nat} :
      ItemsRebase (item :: rest) start free free start
  | first {item : Value} {rest : List Value} {start free offset running position : Nat}
      (counted : rebase free start = .ok offset) (inside : Rebases item offset running position) :
      ItemsRebase (item :: rest) start free running position
  | later {item : Value} {rest : List Value} {start free offset running position : Nat}
      {part : Blocks} (counted : rebase free start = .ok offset)
      (packed : item.packAt offset = .ok part)
      (inside : ItemsRebase rest (start + part.inPlace.bytes.length)
        (free + part.referred.bytes.length) running position) :
      ItemsRebase (item :: rest) start free running position

/-- The same for entries of a reference table: only their targets count anew. -/
inductive EntriesRebase : RefWidth → List Value → (free running position : Nat) → Prop
  | first {width : RefWidth} {item : Value} {rest : List Value}
      {size free running position : Nat} (present : item.isNull = false)
      (sized : item.size = .ok size) (direct : item.isRef = false)
      (inside : Rebases item size running position) :
      EntriesRebase width (item :: rest) free running position
  | later {width : RefWidth} {item : Value} {rest : List Value} {free running position : Nat}
      {part : Blocks} (packed : packEntry width item free = .ok part)
      (inside : EntriesRebase width rest (free + part.referred.bytes.length) running position) :
      EntriesRebase width (item :: rest) free running position

/-- The same for members, of which references resolve against the struct. -/
inductive MembersRebase : List (Member Value) → (start free running position : Nat) → Prop
  | here {member : Member Value} {rest : List (Member Value)} {start free : Nat}
      (direct : member.content.isRef = false) : MembersRebase (member :: rest) start free free start
  | first {member : Member Value} {rest : List (Member Value)}
      {start free offset running position : Nat}
      (counted : (if member.content.isRef then .ok free else rebase free start) = .ok offset)
      (inside : Rebases member.content offset running position) :
      MembersRebase (member :: rest) start free running position
  | later {member : Member Value} {rest : List (Member Value)}
      {start free offset running position : Nat} {part : Blocks}
      (counted : (if member.content.isRef then .ok free else rebase free start) = .ok offset)
      (packed : member.content.packAt offset = .ok part)
      (inside : MembersRebase rest (start + part.inPlace.bytes.length)
        (free + part.referred.bytes.length) running position) :
      MembersRebase (member :: rest) start free running position

end

/-- No part of a value that is packed at an offset not below its size starts behind the
    free byte. -/
def NeverBehind (value : Value) : Prop :=
  ∀ offset size running position, value.size = .ok size → size ≤ offset →
    Rebases value offset running position → position ≤ running

section Behind

variable {start free running position : Nat}

/-- Items of one width: the ones still to come always have room before the free byte. -/
theorem ItemsRebase.le {items : List Value} {width : Nat}
    (inside : ItemsRebase items start free running position)
    (exact : ∀ item ∈ items, item.Exact) (kept : ∀ item ∈ items, item.NeverBehind)
    (sized : ∀ item ∈ items, item.size = .ok width)
    (room : start + width * items.length ≤ free) : position ≤ running := by
  induction items generalizing start free with
  | nil => cases inside
  | cons item rest ih =>
    simp only [List.length_cons, Nat.mul_succ] at room
    rw [List.forall_mem_cons] at exact kept sized
    cases inside with
    | here => omega
    | first counted inside =>
      obtain ⟨-, rfl⟩ := rebase_eq_ok.mp counted
      exact kept.1 _ width _ _ sized.1 (by omega) inside
    | later counted packed inside =>
      obtain ⟨-, rfl⟩ := rebase_eq_ok.mp counted
      have written := exact.1 _ _ _ sized.1 (by omega) packed
      exact ih inside exact.2 kept.2 sized.2 (by omega)

/-- Entries start their targets anew. -/
theorem EntriesRebase.le {items : List Value} {width : RefWidth}
    (inside : EntriesRebase width items free running position)
    (kept : ∀ item ∈ items, item.NeverBehind) : position ≤ running := by
  induction items generalizing free with
  | nil => cases inside
  | cons item rest ih =>
    rw [List.forall_mem_cons] at kept
    cases inside with
    | first _ sized _ inside => exact kept.1 _ _ _ _ sized (Nat.le_refl _) inside
    | later _ inside => exact ih inside kept.2

/-- Members: the ones still to come always have room before the free byte. -/
theorem MembersRebase.le {members : List (Member Value)} {total : Nat}
    (inside : MembersRebase members start free running position)
    (exact : ∀ member ∈ members, member.content.Exact)
    (kept : ∀ member ∈ members, member.content.NeverBehind)
    (sized : membersSize 0 members = .ok total) (room : start + total ≤ free) :
    position ≤ running := by
  induction members generalizing start free total with
  | nil => cases inside
  | cons member rest ih =>
    obtain ⟨size, remaining, measured, measured', rfl, -⟩ := membersSize_cons.mp sized
    have enough {offset : Nat}
        (counted : (if member.content.isRef then .ok free else rebase free start) = .ok offset) :
        size ≤ offset := by
      split at counted
      · obtain rfl := Except.ok.inj counted
        omega
      · obtain ⟨-, rfl⟩ := rebase_eq_ok.mp counted
        omega
    rw [List.forall_mem_cons] at exact kept
    cases inside with
    | here => omega
    | first counted inside => exact kept.1 _ size _ _ measured (enough counted) inside
    | later counted packed inside =>
      have written := exact.1 _ _ _ measured (enough counted) packed
      exact ih inside exact.2 kept.2 measured' (by omega)

end Behind

/-- Packing a sound uniform value never counts from behind the free byte. -/
theorem Sound.neverBehind {value : Value} (sound : value.Sound) (uniform : value.Uniform) :
    value.NeverBehind := by
  induction value using Value.induction <;>
    intro offset size running position sized enough inside
  case ref target width ih =>
    cases sound with
    | ref _ sound _ =>
    cases inside with
    | target measured _ inside =>
      exact ih sound uniform.target _ _ _ _ measured (Nat.le_refl _) inside
  case array element fixed align items ih =>
    obtain ⟨width, known, itemSizes⟩ := sound.item_size uniform
    obtain ⟨-, rfl⟩ := checked_eq_ok.mp ((size_array known ..).symm.trans sized)
    cases sound with
    | array _ fits sound _ _ =>
    have room := Nat.mul_le_mul_left width (Fits.le_getD fits)
    cases inside with
    | array inside =>
      exact inside.le (fun item present => (sound item present).exact (uniform.item item present))
        (fun item present => ih item present (sound item present) (uniform.item item present))
        itemSizes (by omega)
  case refTable target fixed width items ih =>
    cases sound with
    | refTable _ _ sound _ =>
    cases inside with
    | refTable inside =>
      exact inside.le fun item present =>
        ih item present (sound item present) (uniform.entry item present)
  case struct record ih =>
    cases sound with
    | struct _ sound =>
    cases inside with
    | struct inside =>
      exact inside.le
        (fun member present => (sound member present).exact (uniform.member member present))
        (fun member present => ih member present (sound member present)
          (uniform.member member present))
        (by cases record; exact sized) (by omega)
  all_goals cases inside

/-- The items of every array in place take the bytes that its element type declares. -/
def ItemsAsDeclared (value : Value) : Prop :=
  ∀ element fixed align items, Within (.array element fixed align items) value →
    ∀ item ∈ items, item.size = element.width

/-- Items take the declared bytes exactly when their types are as wide as declared. -/
theorem Sound.itemsAsDeclared_iff {value : Value} (sound : value.Sound) :
    value.ItemsAsDeclared ↔ value.Uniform := by
  constructor
  · intro declared element fixed align items inside item present
    have size := declared _ _ _ _ inside item present
    cases sound.within inside with
    | array _ _ items _ inPlace =>
    rw [(items item present).size_eq_width (inPlace item present)] at size
    rw [Ty.width?, Ty.width?, size]
  · intro uniform element fixed align items inside item present
    obtain ⟨width, known, sizes⟩ := (sound.within inside).item_size (uniform.within inside)
    rw [sizes item present, Ty.width?_eq_some.mp known]

/-- What is announced about the bytes of a value in place: packing at any offset not
    below the size counts from no position behind the free byte and writes as many bytes
    as the size says, a width of the type is that size, and the items of every array take
    the width of its element type. -/
structure AsAnnounced (value : Value) : Prop where
  behind : value.NeverBehind
  written : ∀ offset blocks, value.pack (some offset) = .ok blocks →
    value.size = .ok blocks.inPlace.bytes.length
  width : ∀ width, value.type.width? = some width → value.size = .ok width
  items : value.ItemsAsDeclared

/-- A packed value has a size that is not above the offset. -/
theorem pack_eq_ok {value : Value} {offset : Nat} {blocks : Blocks} :
    value.pack (some offset) = .ok blocks ↔
      ∃ size, value.size = .ok size ∧ size ≤ offset ∧ value.packAt offset = .ok blocks := by
  simp only [pack, bind_eq_ok]
  grind

/-- A built value takes the bytes that are announced exactly when the items of its arrays
    have types as wide as the element types. -/
theorem asAnnounced_iff_uniform {value : Value} (built : value.Built) :
    value.AsAnnounced ↔ value.Uniform := by
  have sound := built.sound
  constructor
  · intro announced
    exact sound.itemsAsDeclared_iff.mp announced.items
  · intro uniform
    refine ⟨sound.neverBehind uniform, fun offset blocks packed => ?_,
      fun width => sound.size_of_width, sound.itemsAsDeclared_iff.mpr uniform⟩
    obtain ⟨size, sized, enough, packed⟩ := pack_eq_ok.mp packed
    rw [sound.exact uniform _ _ _ sized enough packed, sized]

section Uneven

set_option maxRecDepth 10000

/-- An array of one struct of 32-bit integers. -/
def boxed (names : List String) : Value :=
  array (zeros names).type (some 1) 4 [zeros names]

/-- Such an array is built when its struct is. -/
theorem boxed_built {names : List String} (built : (zeros names).Built)
    (made : arrayOf (zeros names).type [zeros names] (some 1) none = .ok (boxed names)) :
    (boxed names).Built := by
  refine .arrayOf (.ofValue built) (fun item present => ?_) made
  exact List.mem_singleton.mp present ▸ built

/-- An array of equal structs takes the bytes that are announced. -/
theorem boxed_asAnnounced : (boxed ["x"]).AsAnnounced := by
  refine (asAnnounced_iff_uniform (boxed_built (zeros_built rfl) rfl)).mpr ?_
  intro element fixed align items inside item present
  cases inside with
  | self => exact List.mem_singleton.mp present ▸ rfl
  | item _ _ _ inItems deeper =>
    obtain rfl := List.mem_singleton.mp inItems
    cases deeper with
    | member inMembers deepest =>
      obtain rfl := List.mem_singleton.mp inMembers
      cases deepest

/-- Two arrays of one struct each, the second struct twice as large as the first. -/
def unevenPair : Value :=
  array (Ty.oneOf ["x"]) none 4 [boxed ["x"], boxed ["x", "y"]]

/-- The pair can be built, announces eight bytes and is written in twelve. -/
theorem unevenPair_longer :
    unevenPair.Built ∧ unevenPair.size = .ok 8 ∧
      (unevenPair.pack (some 8)).map (·.inPlace.bytes.length) = .ok 12 ∧
      ¬ unevenPair.AsAnnounced := by
  have built : unevenPair.Built := by
    refine .sequence ?_
      (show Value.sequence [boxed ["x"], boxed ["x", "y"]] none = _ from rfl)
    simp only [List.mem_cons, List.not_mem_nil, or_false, forall_eq_or_imp, forall_eq]
    exact ⟨boxed_built (zeros_built rfl) rfl, boxed_built (zeros_built rfl) rfl⟩
  have sized : unevenPair.size = .ok 8 := rfl
  have longer : (unevenPair.pack (some 8)).map (·.inPlace.bytes.length) = .ok 12 := rfl
  refine ⟨built, sized, longer, fun announced => ?_⟩
  obtain ⟨blocks, packed, length⟩ := map_eq_ok.mp longer
  have size := announced.written 8 blocks packed
  rw [length, sized] at size
  simp at size

end Uneven

end Value
end BinaryLayout
