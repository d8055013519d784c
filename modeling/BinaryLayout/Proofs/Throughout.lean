import BinaryLayout.Proofs.Construction

/-!
# What holds within every built type

Well-formedness is a property of a type as a whole. Other properties are about single types, and
a built type should have them at every depth. Only bit fields, bit field arrays and structs are
made by operations of their own; a property of what these make, which merging keeps, therefore
holds of everything within any built type.
-/

namespace BinaryLayout

namespace Ty

/-- Every type within a type, the type included, has a property. -/
def Throughout (P : Ty → Prop) (type : Ty) : Prop :=
  ∀ part ∈ type.tree, P part

/-- Types that operations of their own make. -/
def isMade : Ty → Bool
  | bitField _ => true
  | bitTable _ => true
  | struct _ => true
  | _ => false

/-- What is to be shown about a property of single types. -/
structure Law (P : Ty → Prop) : Prop where
  plain : ∀ type, type.isMade = false → P type
  declaredField : ∀ {name bits type}, BitFieldType.declare name bits = .ok type → P (bitField type)
  field : ∀ {field : BitField}, field.Built → P (bitField field.type)
  declaredTable : ∀ {name fields type}, BitTableType.declare name fields = .ok type →
    P (bitTable type)
  table : ∀ {table : BitTable}, table.Built → P (bitTable table.type)
  openRecord : ∀ {draft : Draft}, draft.Built → P draft.openRecord.type
  finalize : ∀ {draft : Draft} {align value}, draft.Built → draft.finalize align = .ok value →
    P value.type
  merge : ∀ {record members}, LaidAlike members record.members → P (struct record) →
    P (struct { record with members })

namespace Throughout

variable {P : Ty → Prop} {type part target element : Ty}

/-- A property holds throughout a type when it holds of the type and throughout its parts. -/
theorem iff_contained :
    type.Throughout P ↔ (∀ part ∈ type.contained, part.Throughout P) ∧ P type := by
  unfold Throughout
  rw [tree_eq]
  simp only [List.forall_mem_append, List.forall_mem_flatMap, List.forall_mem_singleton]

theorem self (holds : type.Throughout P) : P type :=
  (iff_contained.mp holds).2

theorem contained (holds : type.Throughout P) : ∀ part ∈ type.contained, part.Throughout P :=
  (iff_contained.mp holds).1

/-- Types within a type inherit what holds throughout it. -/
theorem tree (holds : type.Throughout P) (inside : part ∈ type.tree) : part.Throughout P :=
  fun inner deeper => holds inner (tree_trans deeper inside)

/-- The members of a struct inherit what holds throughout it. -/
theorem member {record : Record Ty} (holds : (struct record).Throughout P) :
    ∀ member ∈ record.members, member.content.Throughout P :=
  fun _ present => holds.contained _ (List.mem_append_left _ (List.mem_map_of_mem present))

/-- Types without parts. -/
theorem leaf (empty : type.contained = []) (own : P type) : type.Throughout P :=
  iff_contained.mpr ⟨by simp [empty], own⟩

section Laws

variable (law : Law P)

include law

theorem null : Ty.null.Throughout P :=
  leaf rfl (law.plain _ rfl)

theorem int (kind : IntKind) : (Ty.int kind).Throughout P :=
  leaf rfl (law.plain _ rfl)

theorem char : Ty.char.Throughout P :=
  leaf rfl (law.plain _ rfl)

/-- Enumerations contain only their storage. -/
theorem enum (type : Enumeration) : (Ty.enum type).Throughout P := by
  refine iff_contained.mpr ⟨?_, law.plain _ rfl⟩
  rw [Ty.contained, List.forall_mem_singleton]
  cases type.storage with
  | int kind => exact int law kind
  | char => exact char law

/-- Bit fields contain only enumerations. -/
theorem bitField {type : BitFieldType} (own : P (Ty.bitField type)) :
    (Ty.bitField type).Throughout P := by
  refine iff_contained.mpr ⟨fun part direct => ?_, own⟩
  obtain ⟨field, -, chosen⟩ := List.mem_filterMap.mp direct
  cases kind : field.kind with
  | enum enumeration =>
    obtain rfl : Ty.enum enumeration = part := by simpa [kind] using chosen
    exact enum law enumeration
  | _ => simp [kind] at chosen

/-- Structs contain their members and the enumerations that they declare. -/
theorem struct {record : Record Ty} (members : ∀ member ∈ record.members, member.content.Throughout P)
    (own : P (Ty.struct record)) : (Ty.struct record).Throughout P := by
  refine iff_contained.mpr ⟨?_, own⟩
  rw [Ty.contained, List.forall_mem_append, List.forall_mem_map, List.forall_mem_map]
  exact ⟨members, fun enumeration _ => enum law enumeration⟩

/-- An unknown target adds nothing to what holds throughout a type. -/
theorem target_iff (only : type.contained = if target.isNull then [] else [target])
    (own : P type) : type.Throughout P ↔ target.Throughout P := by
  rw [iff_contained, only]
  by_cases unknown : target.isNull
  · rw [if_pos unknown, isNull_eq_true.mp unknown]
    exact ⟨fun _ => null law, fun _ => ⟨by simp, own⟩⟩
  · rw [if_neg unknown, List.forall_mem_singleton]
    exact and_iff_left own

theorem ref_iff {width : RefWidth} : (ref target width).Throughout P ↔ target.Throughout P :=
  target_iff law rfl (law.plain _ rfl)

theorem refTable_iff {fixed : Option Nat} {width : RefWidth} :
    (refTable target fixed width).Throughout P ↔ target.Throughout P :=
  target_iff law rfl (law.plain _ rfl)

theorem array_iff {fixed : Option Nat} {align : Nat} :
    (array element fixed align).Throughout P ↔ element.Throughout P := by
  rw [iff_contained, Ty.contained, List.forall_mem_singleton]
  exact and_iff_left (law.plain _ rfl)

/-- What holds throughout two types holds throughout their common type. -/
theorem merge {a b c : Ty} (first : a.Throughout P) (second : b.Throughout P)
    (merged : a.merge b = .ok c) : c.Throughout P := by
  induction a using Ty.induction generalizing b c with
  | int kind => obtain ⟨-, rfl⟩ := merge_int.mp merged; exact first
  | char => obtain ⟨-, rfl⟩ := merge_char.mp merged; exact first
  | null => obtain ⟨-, rfl⟩ := merge_null.mp merged; exact first
  | ref target width ih =>
    obtain ⟨other, common, rfl, targets, rfl⟩ := merge_ref.mp merged
    rw [ref_iff law] at first second ⊢
    rcases known_eq_ok.mp targets with ⟨-, rfl⟩ | ⟨-, -, rfl⟩ | ⟨-, -, inner⟩
    · exact second
    · exact first
    · exact ih first second inner
  | array element fixed align ih =>
    obtain ⟨other, common, rfl, elements, rfl⟩ := merge_array.mp merged
    rw [array_iff law] at first second ⊢
    rcases unlessSame_eq_ok.mp elements with ⟨-, rfl⟩ | ⟨-, inner⟩
    · exact first
    · exact ih first second inner
  | refTable target fixed width ih =>
    obtain ⟨other, common, rfl, rfl, targets⟩ := merge_refTable.mp merged
    rw [refTable_iff law] at first second ⊢
    rcases targets with ⟨-, rfl⟩ | ⟨-, inner, -⟩
    · exact first
    · rcases known_eq_ok.mp inner with ⟨-, rfl⟩ | ⟨-, -, rfl⟩ | ⟨-, -, inner⟩
      · exact second
      · exact first
      · exact ih first second inner
  | bitField type => obtain ⟨-, rfl⟩ := merge_bitField.mp merged; exact first
  | bitTable type => obtain ⟨-, rfl⟩ := merge_bitTable.mp merged; exact first
  | enum type => obtain ⟨-, rfl⟩ := merge_enum.mp merged; exact first
  | struct record ih =>
    obtain ⟨other, members, rfl, -, -, names, parts, rfl⟩ := merge_struct.mp merged
    refine struct law (fun member present => ?_)
      (law.merge (mergeMembers_laidAlike parts names) first.self)
    obtain ⟨a, ina, b, inb, part⟩ := mergeMembers_mem parts names member present
    rcases unlessSame_eq_ok.mp part with ⟨-, same⟩ | ⟨-, inner⟩
    · exact same ▸ first.member a ina
    · exact ih a ina (first.member a ina) (second.member b inb) inner

/-- The same for a common type in which either side may be unknown. -/
theorem mergeKnown {a b c : Ty} (first : a.Throughout P) (second : b.Throughout P)
    (merged : a.mergeKnown b = .ok c) : c.Throughout P := by
  rcases known_eq_ok.mp merged with ⟨-, rfl⟩ | ⟨-, -, rfl⟩ | ⟨-, -, inner⟩
  · exact second
  · exact first
  · exact merge law first second inner

end Laws

end Throughout

end Ty

namespace Value

variable {P : Ty → Prop} (law : Ty.Law P)

include law

/-- Another alignment keeps what holds throughout the type of an array. -/
theorem realign_throughout {value next : Value} {align : Nat} (holds : value.type.Throughout P)
    (made : value.realign align = .ok next) : next.type.Throughout P := by
  have aligned {element : Ty} {fixed : Option Nat} {before place : Nat}
      (holds : (Ty.array element fixed before).Throughout P) :
      (Ty.array element fixed place).Throughout P :=
    (Ty.Throughout.array_iff law).mpr ((Ty.Throughout.array_iff law).mp holds)
  rcases realign_eq_ok made with rfl | ⟨element, fixed, before, items, place, rfl, -, rfl⟩ |
    ⟨content, place, rfl, -, rfl⟩ | ⟨fixed, before, content, place, rfl, -, rfl⟩
  · exact holds
  · exact aligned holds
  · exact aligned holds
  · exact aligned holds

/-- What holds throughout the types of items and the declared element type holds throughout the
    type of an array in place. -/
theorem arrayOf_throughout {element : Ty} {items : List Value} {fixed : Option Nat} {value : Value}
    (declared : element.Throughout P) (holds : ∀ item ∈ items, item.type.Throughout P)
    (made : arrayOf element items fixed none = .ok value) : value.type.Throughout P := by
  obtain ⟨common, place, -, folded, -, rfl⟩ := arrayOf_eq_ok made
  refine (Ty.Throughout.array_iff law).mpr (foldlM_invariant _ folded declared ?_)
  exact fun state item next present before step => before.merge law (holds item present) step

/-- What holds throughout the types of items holds throughout the type of a reference table. -/
theorem refTableOf_throughout {items : List Value} {fixed : Option Nat} {width : RefWidth}
    {value : Value} (holds : ∀ item ∈ items, item.type.Throughout P)
    (made : refTableOf items fixed width = .ok value) : value.type.Throughout P := by
  obtain ⟨first, target, present, -, folded, -, rfl⟩ := refTableOf_eq_ok made
  refine (Ty.Throughout.refTable_iff law).mpr (foldlM_invariant _ folded (holds first present) ?_)
  intro state item next present before step
  split at step
  · contradiction
  · exact (holds item present).mergeKnown law before step

/-- What holds throughout the type of a target holds throughout the type of a reference. -/
theorem refTo_throughout {target : Value} (width : RefWidth) (holds : target.type.Throughout P) :
    (target.refTo width).type.Throughout P := by
  rw [refTo]
  split
  · exact (Ty.Throughout.ref_iff law).mpr (.null law)
  · exact (Ty.Throughout.ref_iff law).mpr holds

end Value

/-- A property holds throughout the types of the members of a draft. -/
def Draft.Throughout (P : Ty → Prop) (draft : Draft) : Prop :=
  ∀ member ∈ draft.members, member.content.type.Throughout P

namespace Draft.Throughout

variable {P : Ty → Prop} (law : Ty.Law P) {draft : Draft}

include law

/-- Padding is made of integers. -/
theorem padTo (holds : draft.Throughout P) (position align : Nat) :
    (draft.padTo position align).Throughout P := by
  intro member present
  rcases mem_padTo present with old | zero
  · exact holds member old
  · rw [zero]
    exact .int law _

/-- What holds throughout the type of an added value holds of the draft. -/
theorem addInPlace {next : Draft} {name : String} {value : Value} (holds : draft.Throughout P)
    (content : value.type.Throughout P) (added : draft.addInPlace name value = .ok next) :
    next.Throughout P := by
  obtain ⟨cursor, _, -, -, rfl⟩ := place_eq_ok (place_of_addInPlace added)
  intro member present
  rcases List.mem_append.mp present with old | new
  · exact holds.padTo law _ _ member old
  · obtain rfl := List.mem_singleton.mp new
    exact content

/-- A draft freezes into a struct of the types of its members. -/
theorem freeze (holds : draft.Throughout P) {size : Option Nat}
    (own : P (draft.freeze size).type) : (draft.freeze size).type.Throughout P := by
  refine .struct law (fun member present => ?_) own
  obtain ⟨source, inside, rfl⟩ := Value.mem_memberTypes present
  exact holds source inside

/-- A draft is finalized into a struct of the types of its members. -/
theorem finalize {align : Nat} {value : Value} (holds : draft.Throughout P) (own : P value.type)
    (made : draft.finalize align = .ok value) : value.type.Throughout P := by
  obtain ⟨cursor, -, -, -, rfl⟩ := finalize_eq_ok made
  exact (holds.padTo law cursor align).freeze law own

end Draft.Throughout

section Built

variable {P : Ty → Prop}

mutual

/-- A lawful property holds throughout built types. -/
theorem Ty.Built.throughout (law : Ty.Law P) {type : Ty} : type.Built → type.Throughout P
  | .int kind => .int law kind
  | .char => .char law
  | .null => .null law
  | .ref _ before => (Ty.Throughout.ref_iff law).mpr (before.throughout law)
  | .arrayOf before made => by
      obtain ⟨align, -, made⟩ := bind_eq_ok.mp made
      obtain rfl := Except.ok.inj made
      exact (Ty.Throughout.array_iff law).mpr (before.throughout law)
  | .refTableOf before made => by
      rw [Ty.refTableOf] at made
      split at made
      · contradiction
      · obtain rfl := Except.ok.inj made
        exact (Ty.Throughout.refTable_iff law).mpr (before.throughout law)
  | .bitField declared => .bitField law (law.declaredField declared)
  | .bitTable declared => .leaf rfl (law.declaredTable declared)
  | .enum _ => .enum law _
  | .ofValue before => before.throughout law
  | .merge first second merged => (first.throughout law).merge law (second.throughout law) merged
  | .part before inside => (before.throughout law).tree inside

/-- A lawful property holds throughout the types of built values. -/
theorem Value.Built.throughout (law : Ty.Law P) {value : Value} :
    value.Built → value.type.Throughout P
  | .int integer => .int law integer.kind
  | .char _ => .char law
  | .null => .null law
  | .refTo width before => Value.refTo_throughout law width (before.throughout law)
  | .nullRef _ before => (Ty.Throughout.ref_iff law).mpr (before.throughout law)
  | .arrayOf declared before made =>
      Value.arrayOf_throughout law (declared.throughout law)
        (fun item present => (before item present).throughout law) made
  | .realign before made => Value.realign_throughout law (before.throughout law) made
  | .stringOf made => by
      obtain ⟨array, -, rfl⟩ := map_eq_ok.mp made
      exact (Ty.Throughout.array_iff law).mpr (.char law)
  | .blobOf made => by
      obtain ⟨place, -, -, rfl⟩ := Value.blobOf_eq_ok made
      exact (Ty.Throughout.array_iff law).mpr (.char law)
  | .refTableOf before made =>
      Value.refTableOf_throughout law (fun item present => (before item present).throughout law) made
  | .bitField before => .bitField law (law.field before)
  | .bitTable before => .leaf rfl (law.table before)
  | .enum _ => .enum law _
  | .openRecord before => (before.throughout law).freeze law (law.openRecord before)
  | .finalize before made => (before.throughout law).finalize law (law.finalize before made) made

/-- A lawful property holds throughout the types of the members of built drafts. -/
theorem Draft.Built.throughout (law : Ty.Law P) {draft : Draft} :
    draft.Built → draft.Throughout P
  | .declare declared => by
      obtain ⟨_, -, same⟩ := bind_eq_ok.mp declared
      obtain rfl := Except.ok.inj same
      intro member present
      cases present
  | .addInPlace before content added =>
      (before.throughout law).addInPlace law (content.throughout law) added
  | .addConstant before added => by
      obtain ⟨constants, rfl⟩ := Draft.addConstant_eq_ok added
      exact before.throughout law
  | .addConstants before added => by
      obtain ⟨constants, rfl⟩ := Draft.addConstants_eq_ok added
      exact before.throughout law
  | .declareEnum before _ => before.throughout law

end

end Built

end BinaryLayout
