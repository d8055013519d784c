import BinaryLayout.Proofs.Reader
import BinaryLayout.Proofs.Sizes

/-!
# Packed values are read back

A buffer that holds both blocks of a packed value where its offsets expect them gives the
value back. One invariant goes through all depths: the bytes of a part stand at its
position, and what its references point into stands at the free byte, counted from the
record that resolves them.
-/

namespace BinaryLayout

/-- A buffer has these bytes from a position on. -/
def HoldsAt (buffer : List UInt8) (position : Nat) (bytes : List UInt8) : Prop :=
  bytes <+: buffer.drop position

namespace HoldsAt

variable {buffer first second bytes : List UInt8} {position count : Nat}

theorem left (holds : HoldsAt buffer position (first ++ second)) : HoldsAt buffer position first :=
  (List.prefix_append first second).trans holds

theorem right (holds : HoldsAt buffer position (first ++ second)) :
    HoldsAt buffer (position + first.length) second := by
  obtain ⟨rest, whole⟩ := holds
  refine ⟨rest, ?_⟩
  rw [← List.drop_drop, ← whole, List.append_assoc, List.drop_left' rfl]

theorem append (holds : HoldsAt buffer position first)
    (behind : HoldsAt buffer (position + first.length) second) :
    HoldsAt buffer position (first ++ second) := by
  obtain ⟨rest, whole⟩ := holds
  obtain ⟨rest', whole'⟩ := behind
  refine ⟨rest', ?_⟩
  rw [← List.drop_drop, ← whole, List.drop_left' rfl] at whole'
  rw [List.append_assoc, whole', whole]

/-- Bytes that a buffer holds are read from it. -/
theorem bytes?_eq (holds : HoldsAt buffer position bytes) (length : bytes.length = count) :
    bytes? buffer position count = some bytes := by
  have found : (buffer.drop position).take count = bytes :=
    length ▸ (List.prefix_iff_eq_take.mp holds).symm
  simp [bytes?, found, length]

end HoldsAt

/-- A number of a literal's storage is loaded as it was stored. -/
theorem EnumStorage.load_store {storage : EnumStorage} {value : Int}
    (inRange : storage.contains value = true) : storage.load (storage.store value) = value := by
  cases storage with
  | int kind => exact IntKind.load_store inRange
  | char =>
    simp only [contains, Bool.and_eq_true, decide_eq_true_eq] at inRange
    simp only [load, store, Bytes.ofLittleEndian_littleEndian]
    omega

/-- A stored zero leads nowhere. -/
theorem follow_null {buffer : List UInt8} {width : RefWidth} {base position : Nat}
    {target : Nat → Option Reading} (stored : HoldsAt buffer position (width.kind.store 0)) :
    follow buffer width base position target = some .null := by
  have zero : width.kind.load (width.kind.store 0) = 0 := by cases width <;> rfl
  rw [follow, stored.bytes?_eq (by simp [RefWidth.bytes])]
  simp [zero]

/-- Where the blocks of a part stand in a buffer: its own bytes at a position, and what its
    references point into at the free byte, counted from a base. -/
structure Blocks.LaidAt (buffer : List UInt8) (base position offset : Nat) (blocks : Blocks) :
    Prop where
  inPlace : HoldsAt buffer position blocks.inPlace.bytes
  referred : HoldsAt buffer (base + offset) blocks.referred.bytes

namespace Blocks.LaidAt

variable {buffer : List UInt8} {base position offset : Nat} {part : Blocks} {parts : List Blocks}

/-- The first of joined parts stands where all of them start. -/
theorem first (laid : (join (part :: parts)).LaidAt buffer base position offset) :
    part.LaidAt buffer base position offset := by
  obtain ⟨inPlace, referred⟩ := laid
  rw [join_cons_inPlace] at inPlace
  rw [join_cons_referred] at referred
  exact ⟨inPlace.left, referred.left⟩

/-- The other parts stand behind the first one, with their free byte behind its block. -/
theorem later (laid : (join (part :: parts)).LaidAt buffer base position offset) :
    (join parts).LaidAt buffer base (position + part.inPlace.bytes.length)
      (offset + part.referred.bytes.length) := by
  obtain ⟨inPlace, referred⟩ := laid
  rw [join_cons_inPlace] at inPlace
  rw [join_cons_referred] at referred
  refine ⟨inPlace.right, ?_⟩
  rw [← Nat.add_assoc]
  exact referred.right

/-- A part that resolves against its own place counts the free byte from there. -/
theorem rebase (laid : part.LaidAt buffer base (base + position) offset)
    (behind : position ≤ offset) :
    part.LaidAt buffer (base + position) (base + position) (offset - position) := by
  obtain ⟨inPlace, referred⟩ := laid
  refine ⟨inPlace, ?_⟩
  rwa [show base + position + (offset - position) = base + offset by omega]

/-- Zeros that fill a part up stand behind it. -/
theorem unfill {size : Nat} (laid : (part.fill size).LaidAt buffer base position offset) :
    part.LaidAt buffer base position offset ∧
      HoldsAt buffer (position + part.inPlace.bytes.length)
        (List.replicate (size - part.inPlace.bytes.length) 0) := by
  obtain ⟨inPlace, referred⟩ := laid
  rw [Blocks.fill, Run.fill_bytes] at inPlace
  exact ⟨⟨inPlace.left, referred⟩, inPlace.right⟩

end Blocks.LaidAt

namespace Value

@[simp] theorem length_plans (items : List Value) : (plans items).length = items.length := by
  induction items with
  | nil => rfl
  | cons item rest ih => simp [plans, ih]

section Standing

variable {buffer : List UInt8} {base start free position : Nat}

/-- The blocks of a value stand where some offset expects them. Only a reference counts from
    the base, every other value from its own position. -/
def StandsAt (buffer : List UInt8) (value : Value) (base position : Nat) : Prop :=
  ∃ offset size blocks, value.size = .ok size ∧ size ≤ offset ∧
    value.packAt offset = .ok blocks ∧
    blocks.LaidAt buffer (if value.isRef then base else position) position offset

/-- The bytes of a reference lead from a base to a place. -/
def LeadsTo (buffer : List UInt8) (width : RefWidth) (base position place : Nat) : Prop :=
  ∃ bytes, bytes? buffer position width.bytes = some bytes ∧
    (place : Int) = base + width.kind.load bytes

/-- A reference leads behind a free byte to its target. -/
theorem StandsAt.target {target : Value} {width : RefWidth} (exact : target.Exact)
    (stands : StandsAt buffer (.ref target width) base position) :
    ∃ free, 0 < free ∧ target.isRef = false ∧
      LeadsTo buffer width base position (base + (free + gap free target.type.align)) ∧
      StandsAt buffer target (base + (free + gap free target.type.align))
        (base + (free + gap free target.type.align)) := by
  obtain ⟨offset, own, blocks, measured, enough, resolved, laid⟩ := stands
  obtain rfl := Except.ok.inj measured
  obtain ⟨data, whole, inRange, rfl⟩ := resolve_eq_ok.mp resolved
  obtain ⟨size, inner, sized, direct, packed, rfl⟩ := packWhole_eq_ok.mp whole
  obtain ⟨stored, referred⟩ := laid
  have positive : 0 < offset := Nat.lt_of_lt_of_le width.bytes_pos enough
  refine ⟨offset, positive, direct, ?_⟩
  generalize gap offset target.type.align = padding at inRange stored referred
  simp only [Blocks.combine, Blocks.bytes, Run.empty, List.append_nil] at referred
  constructor
  · have loaded : width.kind.load (width.kind.store (offset + padding : Nat)) =
        ((offset + padding : Nat) : Int) := IntKind.load_store inRange
    refine ⟨_, stored.bytes?_eq (by simp [RefWidth.bytes]), ?_⟩
    rw [loaded, Int.natCast_add]
  · have written := exact size size inner sized (Nat.le_refl _) packed
    have behind := referred.right
    simp only [isRef, if_true, List.length_replicate, Nat.add_assoc] at behind
    refine ⟨size, size, inner, sized, Nat.le_refl _, packed, behind.left, ?_⟩
    rw [ite_self]
    exact written ▸ behind.right

/-- Items stand at multiples of their width. -/
theorem packItems_stand {items : List Value} {width : Nat} {parts : List Blocks}
    (exact : ∀ item ∈ items, item.Exact) (sized : ∀ item ∈ items, item.size = .ok width)
    (behind : start + width * items.length ≤ free)
    (packed : packItems items start free = .ok parts)
    (laid : (Blocks.join parts).LaidAt buffer base (base + start) free) :
    ∀ index item, items[index]? = some item →
      StandsAt buffer item (base + start + index * width) (base + start + index * width) := by
  induction items generalizing start free parts with
  | nil => simp
  | cons first rest ih =>
    obtain ⟨part, later, here, others, rfl, -⟩ := packItems_cons.mp packed
    simp only [List.length_cons, Nat.mul_succ] at behind
    rw [List.forall_mem_cons] at exact sized
    have written := exact.1 _ _ _ sized.1 (by omega) here
    intro index item found
    cases index with
    | zero =>
      obtain rfl : first = item := by simpa using found
      rw [Nat.zero_mul, Nat.add_zero]
      refine ⟨_, _, part, sized.1, by omega, here, ?_⟩
      rw [ite_self]
      exact laid.first.rebase (by omega)
    | succ index =>
      have next := ih exact.2 sized.2 (by omega) others
        (by simpa only [Nat.add_assoc] using laid.later) index item (by simpa using found)
      rw [written] at next
      rwa [Nat.succ_mul, Nat.add_comm (index * width), ← Nat.add_assoc, Nat.add_assoc base]

/-- An entry of a reference table is a reference to its item, or leads nowhere. -/
theorem packEntry_eq (width : RefWidth) (item : Value) (free : Nat) :
    packEntry width item free = (item.refTo width).packAt free := by
  rw [packEntry, refTo]
  split
  · rfl
  · rfl

/-- Entries stand one behind the other, all counting from the same base. -/
theorem packEntries_stand {items : List Value} {width : RefWidth} {parts : List Blocks}
    (enough : width.bytes ≤ free) (packed : packEntries width items free = .ok parts)
    (laid : (Blocks.join parts).LaidAt buffer base position free) :
    ∀ index item, items[index]? = some item →
      StandsAt buffer (item.refTo width) base (position + index * width.bytes) := by
  induction items generalizing position free parts with
  | nil => simp
  | cons first rest ih =>
    obtain ⟨part, later, here, others, rfl, -⟩ := packEntries_cons.mp packed
    rw [packEntry_eq] at here
    have size : (first.refTo width).size = .ok width.bytes := by
      rw [refTo]
      split <;> rfl
    have written : part.inPlace.bytes.length = width.bytes := by
      rw [refTo] at here
      split at here
      · obtain rfl := Except.ok.inj here
        simp [Blocks.ofBytes, RefWidth.bytes]
      · obtain ⟨data, -, -, rfl⟩ := resolve_eq_ok.mp here
        simp [RefWidth.bytes]
    intro index item found
    cases index with
    | zero =>
      obtain rfl : first = item := by simpa using found
      rw [Nat.zero_mul, Nat.add_zero]
      have direct : (first.refTo width).isRef = true := by
        rw [refTo]
        split <;> rfl
      refine ⟨free, width.bytes, part, size, enough, here, ?_⟩
      rw [if_pos direct]
      exact laid.first
    | succ index =>
      have next := ih (by omega) others laid.later index item (by simpa using found)
      rw [written] at next
      rwa [Nat.succ_mul, Nat.add_comm (index * width.bytes), ← Nat.add_assoc]

/-- Members stand at their offsets. -/
theorem packMembers_stand {members : List (Member Value)} {total : Nat} {finish : Option Nat}
    {parts : List Blocks} (exact : ∀ member ∈ members, member.content.Exact)
    (widths : ∀ member ∈ members, ∀ width, member.content.type.width? = some width →
      member.content.size = .ok width)
    (placed : Consecutive start (memberTypes members) finish)
    (sized : membersSize 0 members = .ok total) (behind : start + total ≤ free)
    (packed : packMembers members start free = .ok parts)
    (laid : (Blocks.join parts).LaidAt buffer base (base + start) free) :
    ∀ member ∈ members, StandsAt buffer member.content base (base + member.offset) := by
  induction members generalizing start free total finish parts with
  | nil => simp
  | cons member rest ih =>
    obtain ⟨part, later, here, others, rfl, -⟩ := packMembers_cons.mp packed
    obtain ⟨size, remaining, measured, measured', rfl, -⟩ := membersSize_cons.mp sized
    obtain ⟨position, tail⟩ := placed
    have enough : size ≤ if member.content.isRef then free else free - start := by
      split <;> omega
    rw [List.forall_mem_cons] at exact widths
    have written := exact.1 _ _ _ measured enough here
    obtain ⟨finish', placed'⟩ : ∃ finish', Consecutive (start + size) (memberTypes rest) finish' := by
      cases known : member.content.type.width? with
      | none =>
        obtain ⟨ends, -⟩ : memberTypes rest = [] ∧ finish = none := by simpa [known] using tail
        exact ⟨some (start + size), by rw [ends]; rfl⟩
      | some width =>
        obtain rfl : width = size :=
          Except.ok.inj ((widths.1 width known).symm.trans measured)
        exact ⟨finish, by simpa [known] using tail⟩
    have stands' := ih exact.2 widths.2 (by rwa [written]) measured' (by omega) others
      (by simpa only [Nat.add_assoc] using laid.later)
    obtain rfl : member.offset = start := position
    refine List.forall_mem_cons.mpr ⟨⟨_, _, part, measured, enough, here, ?_⟩, stands'⟩
    split
    · exact laid.first
    · exact laid.first.rebase (by omega)

variable {fixed : Option Nat} {items : List Value}

/-- The items of an array stand at multiples of the width of its elements, and zeros stand
    behind them. -/
theorem Sound.array_stands {element : Ty} {align : Nat}
    (sound : (Value.array element fixed align items).Sound)
    (uniform : (Value.array element fixed align items).Uniform)
    (stands : StandsAt buffer (.array element fixed align items) base position) :
    ∃ width, element.width? = some width ∧
      (∀ index item, items[index]? = some item →
        StandsAt buffer item (position + index * width) (position + index * width)) ∧
      HoldsAt buffer (position + width * items.length)
        (List.replicate (width * spare fixed items.length) 0) := by
  obtain ⟨offset, size, blocks, sized, enough, packed, laid⟩ := stands
  obtain ⟨width, known, itemSizes⟩ := sound.item_size uniform
  obtain ⟨parts, stored, rfl⟩ := (packAt_array sized).mp packed
  obtain ⟨-, rfl⟩ := checked_eq_ok.mp ((size_array known ..).symm.trans sized)
  cases sound with
  | array type fits sound _ _ =>
  have room := Nat.mul_le_mul_left width (Fits.le_getD fits)
  have exact : ∀ item ∈ items, item.Exact := fun item present =>
    (sound item present).exact (uniform.item item present)
  have written := length_packItems exact itemSizes (by omega) stored
  obtain ⟨laid, unused⟩ := laid.unfill
  have rest : width * fixed.getD items.length - width * items.length =
      width * spare fixed items.length := by rw [spare, Nat.mul_sub]
  rw [written, rest] at unused
  exact ⟨width, known, packItems_stand exact itemSizes (by omega) stored laid, unused⟩

/-- The entries of a reference table stand one behind the other, counting from the table, and
    zeros stand behind them. -/
theorem Sound.refTable_stands {target : Ty} {width : RefWidth}
    (sound : (Value.refTable target fixed width items).Sound)
    (stands : StandsAt buffer (.refTable target fixed width items) base position) :
    (∀ index item, items[index]? = some item →
      StandsAt buffer (item.refTo width) position (position + index * width.bytes)) ∧
    HoldsAt buffer (position + width.bytes * items.length)
      (List.replicate (width.bytes * spare fixed items.length) 0) := by
  obtain ⟨offset, size, blocks, sized, enough, packed, laid⟩ := stands
  obtain ⟨parts, stored, rfl⟩ := (packAt_refTable sized).mp packed
  obtain ⟨-, rfl⟩ := checked_eq_ok.mp sized
  cases sound with
  | refTable _ fits sound _ =>
  obtain ⟨laid, unused⟩ := laid.unfill
  have rest : width.bytes * fixed.getD items.length - width.bytes * items.length =
      width.bytes * spare fixed items.length := by rw [spare, Nat.mul_sub]
  rw [length_packEntries stored, rest] at unused
  refine ⟨?_, unused⟩
  -- A table without entries may be packed at zero, where no offset could be stored.
  cases items with
  | nil => simp
  | cons first others =>
    have room := Nat.mul_le_mul_left width.bytes (Fits.le_getD fits)
    simp only [List.length_cons, Nat.mul_succ] at room enough
    exact packEntries_stand (by omega) stored laid

/-- The members of a struct stand at their offsets. -/
theorem Sound.struct_stands {record : Record Value} (sound : (Value.struct record).Sound)
    (uniform : (Value.struct record).Uniform)
    (stands : StandsAt buffer (.struct record) base position) :
    ∀ member ∈ record.members,
      StandsAt buffer member.content position (position + member.offset) := by
  obtain ⟨offset, size, blocks, sized, enough, packed, laid⟩ := stands
  obtain ⟨parts, stored, rfl⟩ := (sound.packAt_struct sized).mp packed
  cases sound with
  | struct type sound =>
  have exact : ∀ member ∈ record.members, member.content.Exact := fun member present =>
    (sound member present).exact (uniform.member member present)
  have widths : ∀ member ∈ record.members, ∀ width,
      member.content.type.width? = some width → member.content.size = .ok width :=
    fun member present width => (sound member present).size_of_width
  obtain ⟨name, members, align, announced, constants, enums⟩ := record
  cases type with
  | struct _ _ _ placed _ =>
  obtain ⟨finish, placed, -⟩ := placed
  exact packMembers_stand exact widths placed sized (by omega) stored laid.unfill.1

end Standing

section Reading

/-- Where the blocks of a value stand as its offset expects them, a reader finds the value. -/
def Recovered (value : Value) : Prop :=
  ∀ buffer base position offset size blocks, value.size = .ok size → size ≤ offset →
    value.packAt offset = .ok blocks →
    blocks.LaidAt buffer (if value.isRef then base else position) position offset →
    value.plan.read buffer base position = some value.reading

section Steps

variable {buffer : List UInt8} {base position : Nat}

/-- A reader finds a value where it stands. -/
theorem Recovered.read {value : Value} (recovered : value.Recovered)
    (stands : StandsAt buffer value base position) :
    value.plan.read buffer base position = some value.reading := by
  obtain ⟨offset, size, blocks, sized, enough, packed, laid⟩ := stands
  exact recovered buffer base position offset size blocks sized enough packed laid

/-- A reference leads to its target. -/
theorem follow_target {target : Value} {width : RefWidth} (recovered : target.Recovered)
    (exact : target.Exact) (stands : StandsAt buffer (.ref target width) base position) :
    follow buffer width base position (fun start => target.plan.read buffer start start) =
      some (.ref target.reading) := by
  obtain ⟨free, positive, -, ⟨bytes, found, leads⟩, there⟩ := stands.target exact
  have present : width.kind.load bytes ≠ 0 := by omega
  have place : ((base : Int) + width.kind.load bytes).toNat? =
      some (base + (free + gap free target.type.align)) := by
    rw [← leads]
    rfl
  rw [follow, found, Option.bind_some]
  simp only [if_neg present, place, Option.bind_some, recovered.read there, Option.map_some]

/-- A null reference leads nowhere. -/
theorem follow_nullRef {target : Ty} {width : RefWidth} {read : Nat → Option Reading}
    (stands : StandsAt buffer (.nullRef target width) base position) :
    follow buffer width base position read = some .null := by
  obtain ⟨offset, size, blocks, -, -, packed, laid⟩ := stands
  obtain rfl := Except.ok.inj packed
  exact follow_null laid.inPlace

/-- Items that stand at multiples of a width are read there. -/
theorem readItems_of_stands {items : List Value} {width : Nat}
    (recovered : ∀ item ∈ items, item.Recovered)
    (stands : ∀ index item, items[index]? = some item →
      StandsAt buffer item (position + index * width) (position + index * width)) :
    Plan.readItems buffer width (plans items) position = some (readings items) := by
  induction items generalizing position with
  | nil => rfl
  | cons item rest ih =>
    rw [List.forall_mem_cons] at recovered
    have here := stands 0 item rfl
    rw [Nat.zero_mul, Nat.add_zero] at here
    have behind : Plan.readItems buffer width (plans rest) (position + width) =
        some (readings rest) := by
      refine ih recovered.2 fun index other found => ?_
      have next := stands (index + 1) other (by simpa using found)
      rwa [Nat.succ_mul, Nat.add_comm (index * width), ← Nat.add_assoc] at next
    simp only [plans, Plan.readItems, recovered.1.read here, behind, readings]
    rfl

/-- Entries that stand one behind the other lead to their items, or nowhere where there is
    none. -/
theorem readTargets_of_stands {items : List Value} {width : RefWidth}
    (recovered : ∀ item ∈ items, item.Recovered) (exact : ∀ item ∈ items, item.Exact)
    (stands : ∀ index item, items[index]? = some item →
      StandsAt buffer (item.refTo width) base (position + index * width.bytes)) :
    Plan.readTargets buffer width (plans items) base position =
      some (targetReadings items) := by
  induction items generalizing position with
  | nil => rfl
  | cons item rest ih =>
    rw [List.forall_mem_cons] at recovered exact
    have entry := stands 0 item rfl
    rw [Nat.zero_mul, Nat.add_zero] at entry
    have here : follow buffer width base position
          (fun start => item.plan.read buffer start start) =
        some (if item.isNull then .null else .ref item.reading) := by
      rw [refTo] at entry
      split at entry
      · rename_i absent
        rw [follow_nullRef entry, if_pos absent]
      · rename_i present
        rw [follow_target recovered.1 exact.1 entry, if_neg present]
    have behind : Plan.readTargets buffer width (plans rest) base (position + width.bytes) =
        some (targetReadings rest) := by
      refine ih recovered.2 exact.2 fun index other found => ?_
      have next := stands (index + 1) other (by simpa using found)
      rwa [Nat.succ_mul, Nat.add_comm (index * width.bytes), ← Nat.add_assoc] at next
    simp only [plans, Plan.readTargets, here, behind, targetReadings]
    rfl

/-- Members that stand at their offsets are read there. -/
theorem readMembers_of_stands {members : List (Member Value)}
    (recovered : ∀ member ∈ members, member.content.Recovered)
    (stands : ∀ member ∈ members, StandsAt buffer member.content base (base + member.offset)) :
    Plan.readMembers buffer (memberPlans members) base =
      some (memberReadings members) := by
  induction members with
  | nil => rfl
  | cons member rest ih =>
    rw [List.forall_mem_cons] at recovered stands
    obtain ⟨name, offset, content, isPadding⟩ := member
    simp only [memberPlans, Plan.readMembers, recovered.1.read stands.1,
      ih recovered.2 stands.2, memberReadings]
    rfl

end Steps

/-- Bytes that are filled up to a fixed size are read with the zeros behind them. -/
theorem bytes?_filled {buffer bytes : List UInt8} {position : Nat} {fixed : Option Nat}
    (fits : Fits bytes.length fixed)
    (holds : HoldsAt buffer position
      (bytes ++ List.replicate (fixed.getD 0 - bytes.length) 0)) :
    bytes? buffer position (fixed.getD bytes.length) =
      some (bytes ++ List.replicate (spare fixed bytes.length) 0) := by
  have unused : fixed.getD 0 - bytes.length = spare fixed bytes.length := by
    cases fixed <;> simp [spare]
  have room := Fits.le_getD fits
  rw [unused] at holds
  refine holds.bytes?_eq ?_
  rw [List.length_append, List.length_replicate, spare]
  omega

section Containers

variable {fixed : Option Nat} {items : List Value}

/-- An array in place is found when its items are. -/
theorem Sound.array_recovered {element : Ty} {align : Nat}
    (sound : (Value.array element fixed align items).Sound)
    (uniform : (Value.array element fixed align items).Uniform)
    (recovered : ∀ item ∈ items, item.Recovered) :
    (Value.array element fixed align items).Recovered := by
  intro buffer base position offset size blocks sized enough packed laid
  obtain ⟨width, known, stands, unused⟩ :=
    sound.array_stands uniform ⟨offset, size, blocks, sized, enough, packed, laid⟩
  have found := readItems_of_stands recovered stands
  simp only [plan, Plan.read, reading, known, Option.getD_some, length_plans,
    unused.bytes?_eq List.length_replicate, found]
  rfl

/-- A reference table is found when its targets are. -/
theorem Sound.refTable_recovered {target : Ty} {width : RefWidth}
    (sound : (Value.refTable target fixed width items).Sound)
    (uniform : (Value.refTable target fixed width items).Uniform)
    (recovered : ∀ item ∈ items, item.Recovered) :
    (Value.refTable target fixed width items).Recovered := by
  intro buffer base position offset size blocks sized enough packed laid
  obtain ⟨stands, unused⟩ :=
    sound.refTable_stands ⟨offset, size, blocks, sized, enough, packed, laid⟩
  have exact : ∀ item ∈ items, item.Exact := by
    cases sound with
    | refTable _ _ sound _ =>
      exact fun item present => (sound item present).exact (uniform.entry item present)
  have found := readTargets_of_stands recovered exact stands
  rw [plan, Plan.read, length_plans, unused.bytes?_eq List.length_replicate, found]
  rfl

/-- A struct is found when its members are. -/
theorem Sound.struct_recovered {record : Record Value} (sound : (Value.struct record).Sound)
    (uniform : (Value.struct record).Uniform)
    (recovered : ∀ member ∈ record.members, member.content.Recovered) :
    (Value.struct record).Recovered := by
  intro buffer base position offset size blocks sized enough packed laid
  have stands := sound.struct_stands uniform ⟨offset, size, blocks, sized, enough, packed, laid⟩
  obtain ⟨name, members, align, announced, constants, enums⟩ := record
  rw [plan, Plan.read, readMembers_of_stands recovered stands]
  rfl

end Containers

/-- A reader finds what a sound uniform value stores. -/
theorem Sound.recovered {value : Value} (sound : value.Sound) (uniform : value.Uniform) :
    value.Recovered := by
  induction value using Value.induction <;>
    intro buffer base position offset size blocks sized enough packed laid
  case int integer =>
    obtain rfl := Except.ok.inj packed
    have found : bytes? buffer position integer.kind.bytes = some integer.bytes :=
      laid.inPlace.bytes?_eq (by simp [Blocks.ofBytes, Integer.bytes])
    have loaded : integer.kind.load integer.bytes = integer.value :=
      IntKind.load_store integer.inRange
    rw [plan, Plan.read, found, Option.map_some, reading, loaded]
  case char byte =>
    obtain rfl := Except.ok.inj packed
    obtain ⟨rest, whole⟩ := laid.inPlace
    have found : (buffer.drop position)[0]? = some byte := by rw [← whole]; rfl
    rw [plan, Plan.read, reading, ← Nat.add_zero position, ← List.getElem?_drop, found]
    rfl
  case null => rfl
  case ref target width ih =>
    have inside : Within target (.ref target width) := .target width .self
    have recovered := ih (sound.within inside) (uniform.within inside)
    have exact := (sound.within inside).exact (uniform.within inside)
    exact follow_target recovered exact ⟨offset, size, blocks, sized, enough, packed, laid⟩
  case nullRef target width =>
    exact follow_nullRef ⟨offset, size, blocks, sized, enough, packed, laid⟩
  case array element fixed align items ih =>
    have recovered : ∀ item ∈ items, item.Recovered := fun item present =>
      have inside : Within item _ := .item element fixed align present .self
      ih item present (sound.within inside) (uniform.within inside)
    exact sound.array_recovered uniform recovered buffer base position offset size blocks sized
      enough packed laid
  case text content =>
    obtain rfl := Except.ok.inj packed
    cases sound with
    | text fits _ =>
    rw [plan, Plan.read,
      bytes?_filled fits (by simpa [Blocks.fill, Blocks.ofBytes] using laid.inPlace)]
    rfl
  case blob fixed align content =>
    obtain rfl := Except.ok.inj packed
    cases sound with
    | blob fits _ =>
    rw [plan, Plan.read,
      bytes?_filled fits (by simpa [Blocks.fill, Blocks.ofBits] using laid.inPlace)]
    rfl
  case refTable target fixed width items ih =>
    have recovered : ∀ item ∈ items, item.Recovered := fun item present =>
      have inside : Within item _ := .entry target fixed width present .self
      ih item present (sound.within inside) (uniform.within inside)
    exact sound.refTable_recovered uniform recovered buffer base position offset size blocks sized
      enough packed laid
  case bitField field =>
    obtain ⟨bytes, stored, rfl⟩ := map_eq_ok.mp packed
    have found : bytes? buffer position field.type.bytes = some bytes :=
      laid.inPlace.bytes?_eq (BitField.length_bytes stored)
    cases sound with
    | bitField room _ =>
    rw [plan, Plan.read, found, reading, ← BitField.decode_bytes room stored]
    rfl
  case bitTable table =>
    obtain ⟨bytes, stored, rfl⟩ := map_eq_ok.mp packed
    obtain ⟨rest, whole⟩ := laid.inPlace
    rw [plan, Plan.read, ← whole, Blocks.ofBits, BitTable.read_bytes stored rest]
    rfl
  case enum chosen =>
    obtain rfl := Except.ok.inj packed
    cases sound with
    | enum inRange _ =>
    have found : bytes? buffer position chosen.enumeration.storage.bytes = some chosen.bytes :=
      laid.inPlace.bytes?_eq (by simp [Blocks.ofBytes, Enumeration.width])
    have loaded : chosen.enumeration.storage.load chosen.bytes = chosen.value.toInt :=
      EnumStorage.load_store inRange
    rw [plan, Plan.read, found, reading, ← loaded]
    rfl
  case struct record ih =>
    have recovered : ∀ member ∈ record.members, member.content.Recovered :=
      fun member present =>
        have inside : Within member.content _ := .member present .self
        ih member present (sound.within inside) (uniform.within inside)
    exact sound.struct_recovered uniform recovered buffer base position offset size blocks sized
      enough packed laid

end Reading

end Value
end BinaryLayout
