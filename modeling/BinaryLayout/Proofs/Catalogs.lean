import BinaryLayout.Proofs.Outlines
import BinaryLayout.Ty.Catalog

/-!
# What a catalog records

A catalog keeps one entry for every unique name and merges later types into it. The
laws say what an insertion leaves behind, and from there that the entry of a name
states the layout of every type collected under it and knows every target that one of
them knows. That the offsets agree is not checked by merging: it follows because the
parts of a type are collected before it, so that parts of one name have one outline.
-/

namespace BinaryLayout

namespace Ty

/-- What a declaration states apart from the types of its members. -/
inductive Shape where
  | record (size : Option Nat) (places : List (String × Nat))
  | enum (type : Enumeration)
  | bitField (type : BitFieldType)
  | bitTable (type : BitTableType)
  | undeclared

/-- Size and member places of a struct; the whole of any other declaration. -/
def shape : Ty → Shape
  | struct record => .record record.size (record.members.map Member.place)
  | enum type => .enum type
  | bitField type => .bitField type
  | bitTable type => .bitTable type
  | _ => .undeclared

/-- The member at an index of a struct is a reference to a known target. -/
def KnowsTarget (type : Ty) (index : Nat) : Prop :=
  ∃ record member, type = struct record ∧ record.members[index]? = some member ∧
    member.content.isKnownRef = true

/-- A merged type has the shape of the first one. -/
theorem merge_shape {a b c : Ty} (merged : a.merge b = .ok c) : c.shape = a.shape := by
  cases a with
  | int kind => obtain ⟨-, rfl⟩ := merge_int.mp merged; rfl
  | char => obtain ⟨-, rfl⟩ := merge_char.mp merged; rfl
  | null => obtain ⟨-, rfl⟩ := merge_null.mp merged; rfl
  | ref target width => obtain ⟨-, -, -, -, rfl⟩ := merge_ref.mp merged; rfl
  | array element fixed align => obtain ⟨-, -, -, -, rfl⟩ := merge_array.mp merged; rfl
  | refTable target fixed width => obtain ⟨-, -, -, rfl, -⟩ := merge_refTable.mp merged; rfl
  | bitField type => obtain ⟨-, rfl⟩ := merge_bitField.mp merged; rfl
  | bitTable type => obtain ⟨-, rfl⟩ := merge_bitTable.mp merged; rfl
  | enum type => obtain ⟨-, rfl⟩ := merge_enum.mp merged; rfl
  | struct record =>
    obtain ⟨other, members, rfl, -, -, names, parts, rfl⟩ := merge_struct.mp merged
    simp [shape, (mergeMembers_laidAlike parts names).places]

/-- The types of the members of a struct. -/
def contents : Ty → List Ty
  | struct record => record.members.map (·.content)
  | _ => []

theorem knowsTarget_iff {type : Ty} {index : Nat} : type.KnowsTarget index ↔
    ∃ content, type.contents[index]? = some content ∧ content.isKnownRef = true := by
  cases type <;> simp [KnowsTarget, contents]

/-- At every index, types that merge have three contents, the last one merged from the others,
    or none. -/
theorem merge_contents {a b c : Ty} (merged : a.merge b = .ok c) (index : Nat) :
    (a.contents[index]? = none ∧ b.contents[index]? = none ∧ c.contents[index]? = none) ∨
      ∃ x y z, a.contents[index]? = some x ∧ b.contents[index]? = some y ∧
        c.contents[index]? = some z ∧ unlessSame x.merge x y = .ok z ∧
        a.uniqueName = b.uniqueName := by
  cases a with
  | int kind => obtain ⟨rfl, rfl⟩ := merge_int.mp merged; simp [contents]
  | char => obtain ⟨rfl, rfl⟩ := merge_char.mp merged; simp [contents]
  | null => obtain ⟨rfl, rfl⟩ := merge_null.mp merged; simp [contents]
  | ref target width => obtain ⟨-, -, rfl, -, rfl⟩ := merge_ref.mp merged; simp [contents]
  | array element fixed align =>
    obtain ⟨-, -, rfl, -, rfl⟩ := merge_array.mp merged
    simp [contents]
  | refTable target fixed width =>
    obtain ⟨-, -, rfl, rfl, -⟩ := merge_refTable.mp merged
    simp [contents]
  | bitField type => obtain ⟨rfl, rfl⟩ := merge_bitField.mp merged; simp [contents]
  | bitTable type => obtain ⟨rfl, rfl⟩ := merge_bitTable.mp merged; simp [contents]
  | enum type => obtain ⟨rfl, rfl⟩ := merge_enum.mp merged; simp [contents]
  | struct record =>
    obtain ⟨other, members, rfl, named, -, names, parts, rfl⟩ := merge_struct.mp merged
    have length := (mergeMembers_laidAlike parts names).length_eq
    have length' : record.members.length = other.members.length := by
      simpa using congrArg List.length names
    by_cases inside : index < members.length
    · have found := List.getElem?_eq_getElem inside
      obtain ⟨x, y, inFirst, inSecond, part⟩ := mergeMembers_getElem? parts names found
      exact .inr ⟨x.content, y.content, members[index].content, by simp [contents, inFirst],
        by simp [contents, inSecond], by simp [contents, found], part, named⟩
    · refine .inl ⟨?_, ?_, ?_⟩ <;> simp only [contents, List.getElem?_eq_none_iff, List.length_map]
      all_goals omega

/-- An entry states what a type states, and it may know more targets. -/
structure Refines (entry type : Ty) : Prop where
  below : type.Below entry
  shape : entry.shape = type.shape
  contents : ∀ (index : Nat) (content : Ty), type.contents[index]? = some content →
    ∃ known, entry.contents[index]? = some known ∧ content.Below known

/-- An entry states what a type states, and only the members may know more targets. -/
structure Tells (entry type : Ty) : Prop extends Refines entry type where
  outline : entry.outline = type.outline

namespace Refines

theorem refl (type : Ty) : Refines type type :=
  ⟨.refl type, rfl, fun _ content present => ⟨content, present, .refl content⟩⟩

theorem trans {a b c : Ty} (first : Refines a b) (second : Refines b c) : Refines a c := by
  refine ⟨second.below.trans first.below, first.shape.trans second.shape, ?_⟩
  intro index content present
  obtain ⟨middle, inMiddle, below⟩ := second.contents index content present
  obtain ⟨known, inFirst, below'⟩ := first.contents index middle inMiddle
  exact ⟨known, inFirst, below.trans below'⟩

/-- A known target stays known. -/
theorem targets {entry type : Ty} (refines : Refines entry type) (index : Nat)
    (knows : type.KnowsTarget index) : entry.KnowsTarget index := by
  obtain ⟨content, present, known⟩ := knowsTarget_iff.mp knows
  obtain ⟨better, inEntry, below⟩ := refines.contents index content present
  exact knowsTarget_iff.mpr ⟨better, inEntry, below.isKnownRef known⟩

end Refines

namespace Tells

theorem refl (type : Ty) : Tells type type :=
  ⟨.refl type, rfl⟩

theorem trans {a b c : Ty} (first : Tells a b) (second : Tells b c) : Tells a c :=
  ⟨first.toRefines.trans second.toRefines, first.outline.trans second.outline⟩

end Tells
end Ty

namespace Catalog

theorem get?_empty (name : String) : empty.get? name = none := rfl

/-- Behind an entry of a new name, the others are found as before. -/
theorem get?_append {catalog : Catalog} {type : Ty} {name : String}
    (absent : catalog.get? type.uniqueName = none) :
    (⟨catalog.entries ++ [(type.uniqueName, type)]⟩ : Catalog).get? name =
      if name = type.uniqueName then some type else catalog.get? name := by
  simp only [get?, List.find?_append, Option.map_eq_none_iff] at absent ⊢
  split
  · rename_i same
    simp [same, absent]
  · rename_i other
    simp [Ne.symm other]

/-- Replacing an entry changes what is found under its name and nothing else. -/
theorem get?_replace {catalog : Catalog} {replaced name : String} {before type : Ty}
    (found : catalog.get? replaced = some before) :
    (catalog.replace replaced type).get? name =
      if name = replaced then some type else catalog.get? name := by
  have named : (fun entry : String × Ty => decide
      ((if entry.1 = replaced then (replaced, type) else entry).1 = name)) =
      fun entry => decide (entry.1 = name) := by
    funext entry
    by_cases same : entry.1 = replaced <;> simp [same]
  simp only [get?, replace, List.find?_map, Function.comp_def, named, Option.map_map] at found ⊢
  split
  · rename_i same
    subst same
    obtain ⟨entry, present, -⟩ := Option.map_eq_some_iff.mp found
    have here := List.find?_some present
    simp_all
  · rename_i other
    refine Option.map_congr fun entry present => ?_
    have here := List.find?_some present
    simp_all

/-- What an insertion leaves behind: the entry of the name takes the type in, and all
    others stay. -/
theorem get?_insert {catalog next : Catalog} {type : Ty} (inserted : catalog.insert type = .ok next) :
    ∃ entry,
      ((catalog.get? type.uniqueName = none ∧ entry = type) ∨
        ∃ before, catalog.get? type.uniqueName = some before ∧ before.merge type = .ok entry) ∧
      ∀ name, next.get? name = if name = type.uniqueName then some entry else catalog.get? name := by
  simp only [insert] at inserted
  split at inserted
  · rename_i before found
    obtain ⟨entry, merged, rfl⟩ := map_eq_ok.mp inserted
    exact ⟨entry, .inr ⟨before, found, merged⟩, fun name => get?_replace found⟩
  · rename_i absent
    obtain rfl := Except.ok.inj inserted
    exact ⟨type, .inl ⟨absent, rfl⟩, fun name => get?_append absent⟩

/-- The entry of a type's name states what the type states. -/
def Records (catalog : Catalog) (type : Ty) : Prop :=
  ∃ entry, catalog.get? type.uniqueName = some entry ∧ entry.Tells type

/-- Every type within a type is recorded. -/
def Settled (catalog : Catalog) (type : Ty) : Prop :=
  ∀ part ∈ type.tree, catalog.Records part

/-- Every type that a type contains is settled. -/
def PartsSettled (catalog : Catalog) (type : Ty) : Prop :=
  ∀ part ∈ type.contained, catalog.Settled part

section Settled

variable {catalog : Catalog} {a b c : Ty}

/-- Recorded types of one name have one outline, and they are told by one entry. -/
theorem Records.agree (first : catalog.Records a) (second : catalog.Records b)
    (named : a.uniqueName = b.uniqueName) :
    a.outline = b.outline ∧ ∃ entry : Ty, entry.Tells a ∧ entry.Tells b := by
  obtain ⟨entry, found, told⟩ := first
  obtain ⟨entry', found', told'⟩ := second
  rw [named, found'] at found
  obtain rfl := Option.some.inj found
  exact ⟨told.outline.symm.trans told'.outline, _, told, told'⟩

theorem settled_iff :
    catalog.Settled a ↔ catalog.PartsSettled a ∧ catalog.Records a := by
  simp only [Settled, PartsSettled, Ty.tree_eq a, List.mem_append, List.mem_flatMap,
    List.mem_singleton]
  grind

/-- A type is settled in particular itself. -/
theorem Settled.self (settled : catalog.Settled a) : catalog.Records a :=
  (settled_iff.mp settled).2

/-- A common type that refines two recorded types is recorded: it goes by the name of one of
    them, and each of its members has the outline of a member of theirs. -/
theorem Records.merge (merged : a.merge b = .ok c) (first : catalog.Records a)
    (second : catalog.Records b) (left : c.Refines a) (right : c.Refines b) :
    catalog.Records c := by
  obtain ⟨entry, found, told⟩ := first
  obtain ⟨entry', found', told'⟩ := second
  have contents (index : Nat) (content : Ty) (present : c.contents[index]? = some content) :
      (∃ known, entry.contents[index]? = some known ∧ content.Below known) ∧
        ∃ known, entry'.contents[index]? = some known ∧ content.Below known := by
    rcases Ty.merge_contents merged index with ⟨-, -, absent⟩ | ⟨x, y, z, inA, inB, inC, part, named⟩
    · simp [absent] at present
    · obtain rfl := Option.some.inj (inC.symm.trans present)
      obtain rfl : entry = entry' := Option.some.inj ((named ▸ found).symm.trans found')
      rcases Ty.unlessSame_outline part with same | same
      · obtain ⟨known, inEntry, below⟩ := told.contents index x inA
        have below := (Ty.below_of_outline same).trans below
        exact ⟨⟨known, inEntry, below⟩, known, inEntry, below⟩
      · obtain ⟨known, inEntry, below⟩ := told'.contents index y inB
        have below := (Ty.below_of_outline same).trans below
        exact ⟨⟨known, inEntry, below⟩, known, inEntry, below⟩
  rcases Ty.merge_outline merged with same | same
  · have outline := told.outline.trans same.symm
    exact ⟨entry, Ty.uniqueName_eq_of_outline same ▸ found,
      ⟨Ty.below_of_outline outline.symm, told.shape.trans left.shape.symm,
        fun index content present => (contents index content present).1⟩, outline⟩
  · have outline := told'.outline.trans same.symm
    exact ⟨entry', Ty.uniqueName_eq_of_outline same ▸ found',
      ⟨Ty.below_of_outline outline.symm, told'.shape.trans right.shape.symm,
        fun index content present => (contents index content present).2⟩, outline⟩

/-- What merging keeps of types with settled parts: the common type refines both sides, and
    its parts are settled. -/
def MergesSettled (catalog : Catalog) (a : Ty) : Prop :=
  ∀ b c, a.merge b = .ok c → a.WellFormed → b.WellFormed → catalog.PartsSettled a →
    catalog.PartsSettled b → c.Refines a ∧ c.Refines b ∧ catalog.PartsSettled c

/-- A common type of settled types is settled itself. -/
theorem MergesSettled.settled (kept : catalog.MergesSettled a) (merged : a.merge b = .ok c)
    (sound : a.WellFormed) (sound' : b.WellFormed) (first : catalog.Settled a)
    (second : catalog.Settled b) : c.Refines a ∧ c.Refines b ∧ catalog.Settled c := by
  obtain ⟨firstParts, recorded⟩ := settled_iff.mp first
  obtain ⟨secondParts, recorded'⟩ := settled_iff.mp second
  obtain ⟨left, right, parts⟩ := kept b c merged sound sound' firstParts secondParts
  exact ⟨left, right, settled_iff.mpr ⟨parts, recorded.merge merged recorded' left right⟩⟩

/-- The same for parts that are merged on demand: parts of one name have one outline. -/
theorem MergesSettled.unlessSame (kept : catalog.MergesSettled a)
    (merged : Ty.unlessSame a.merge a b = .ok c) (sound : a.WellFormed) (sound' : b.WellFormed)
    (first : catalog.Settled a) (second : catalog.Settled b) :
    a.Below c ∧ b.Below c ∧ catalog.Settled c := by
  rcases Ty.unlessSame_eq_ok.mp merged with ⟨named, rfl⟩ | ⟨-, inner⟩
  · have same := (first.self.agree second.self named).1
    exact ⟨.refl _, Ty.below_of_outline same.symm, first⟩
  · obtain ⟨left, right, settled⟩ := kept.settled inner sound sound' first second
    exact ⟨left.below, right.below, settled⟩

/-- The same for targets, of which either may be unknown. -/
theorem MergesSettled.known (kept : catalog.MergesSettled a)
    (merged : Ty.known a.merge a b = .ok c) (sound : a.WellFormed) (sound' : b.WellFormed)
    (first : a.isNull = false → catalog.Settled a)
    (second : b.isNull = false → catalog.Settled b) :
    (a = .null ∨ a.Below c) ∧ (b = .null ∨ b.Below c) ∧
      (c.isNull = false → catalog.Settled c) := by
  rcases Ty.known_eq_ok.mp merged with ⟨rfl, rfl⟩ | ⟨-, rfl, rfl⟩ | ⟨known, known', inner⟩
  · exact ⟨.inl rfl, .inr (.refl _), second⟩
  · exact ⟨.inr (.refl _), .inl rfl, first⟩
  · obtain ⟨left, right, settled⟩ := kept.settled inner sound sound' (first known) (second known')
    exact ⟨.inr left.below, .inr right.below, fun _ => settled⟩

theorem partsSettled_ref {target : Ty} {width : RefWidth} :
    catalog.PartsSettled (.ref target width) ↔
      (target.isNull = false → catalog.Settled target) := by
  cases unknown : target.isNull <;> simp [PartsSettled, Ty.contained, unknown]

theorem partsSettled_refTable {target : Ty} {fixed : Option Nat} {width : RefWidth} :
    catalog.PartsSettled (.refTable target fixed width) ↔
      (target.isNull = false → catalog.Settled target) := by
  cases unknown : target.isNull <;> simp [PartsSettled, Ty.contained, unknown]

theorem partsSettled_array {element : Ty} {fixed : Option Nat} {align : Nat} :
    catalog.PartsSettled (.array element fixed align) ↔ catalog.Settled element := by
  simp [PartsSettled, Ty.contained]

theorem partsSettled_struct {record : Record Ty} :
    catalog.PartsSettled (.struct record) ↔
      (∀ member ∈ record.members, catalog.Settled member.content) ∧
        ∀ type ∈ record.enums, catalog.Settled (.enum type) := by
  simp only [PartsSettled, Ty.contained, List.mem_append, List.mem_map]
  grind

/-- Of tables, only the targets may know more. -/
theorem refines_refTable {fixed : Option Nat} {width : RefWidth} (below : a = .null ∨ a.Below c) :
    (Ty.refTable c fixed width).Refines (.refTable a fixed width) :=
  ⟨⟨rfl, rfl, below⟩, rfl, by simp [Ty.contents]⟩

/-- Structs that merge have one outline and one shape: their members are comparable one by one
    and follow one another in the same widths. -/
theorem struct_alike {record other : Record Ty} {members : List (Member Ty)}
    (sound : (Ty.struct record).WellFormed) (sound' : (Ty.struct other).WellFormed)
    (named : record.name = other.name) (sizes : record.size = other.size)
    (names : record.members.map (·.name) = other.members.map (·.name))
    (merged : Ty.mergeMembers record.members other.members = .ok members)
    (bounded : ∀ a ∈ record.members, ∀ b ∈ other.members, ∀ c,
      Ty.unlessSame a.content.merge a.content b.content = .ok c →
        a.content.Below c ∧ b.content.Below c) :
    (Ty.struct record).outline = (Ty.struct other).outline ∧
      (Ty.struct record).shape = (Ty.struct other).shape := by
  cases sound with
  | struct _ _ widest laid _ =>
  cases sound' with
  | struct _ _ widest' laid' _ =>
  obtain ⟨finish, placed, -⟩ := laid
  obtain ⟨finish', placed', -⟩ := laid'
  have pairs : List.Forall₂ (fun a b => a.content.align = b.content.align ∧
      a.content.width? = b.content.width?) record.members other.members := by
    refine Ty.mergeMembers_pairs merged names fun a ina b inb c part => ?_
    obtain ⟨left, right⟩ := bounded a ina b inb c part
    exact ⟨left.align.trans right.align.symm, left.width?.trans right.width?.symm⟩
  have aligns : record.align = other.align := by
    rw [widest, widest', widestAlign_congr (pairs.imp fun _ _ pair => pair.1)]
  have offsets := placed.offsets_eq placed' (pairs.imp fun _ _ pair => pair.2)
  have places : ∀ members : List (Member Ty), members.map Member.place =
      (members.map (·.name)).zip (members.map (·.offset)) := fun members =>
    List.zip_map' .. |>.symm
  exact ⟨by simp only [Ty.outline, named, aligns, sizes],
    by simp only [Ty.shape, sizes, places, names, offsets]⟩

/-- Structs are kept settled when their members are. -/
theorem MergesSettled.struct {record : Record Ty}
    (kept : ∀ member ∈ record.members, catalog.MergesSettled member.content) :
    catalog.MergesSettled (.struct record) := by
  intro b c merged sound sound' first second
  obtain ⟨other, members, rfl, named, sizes, names, parts, rfl⟩ := Ty.merge_struct.mp merged
  rw [partsSettled_struct] at first second ⊢
  have pairs : ∀ a ∈ record.members, ∀ b ∈ other.members, ∀ c,
      Ty.unlessSame a.content.merge a.content b.content = .ok c →
        a.content.Below c ∧ b.content.Below c ∧ catalog.Settled c := fun a ina b inb c part =>
    MergesSettled.unlessSame (kept a ina) part (sound.member a ina) (sound'.member b inb)
      (first.1 a ina) (second.1 b inb)
  obtain ⟨outline, shape⟩ := struct_alike sound sound' named sizes names parts
    fun a ina b inb c part => ⟨(pairs a ina b inb c part).1, (pairs a ina b inb c part).2.1⟩
  have common := Ty.merge_shape merged
  have contents {index : Nat} {x y z : Ty} (inA : (Ty.struct record).contents[index]? = some x)
      (inB : (Ty.struct other).contents[index]? = some y)
      (part : Ty.unlessSame x.merge x y = .ok z) : x.Below z ∧ y.Below z := by
    obtain ⟨a, ina, rfl⟩ : ∃ a, record.members[index]? = some a ∧ a.content = x := by
      simpa [Ty.contents] using inA
    obtain ⟨b, inb, rfl⟩ : ∃ b, other.members[index]? = some b ∧ b.content = y := by
      simpa [Ty.contents] using inB
    have below := pairs a (List.mem_of_getElem? ina) b (List.mem_of_getElem? inb) z part
    exact ⟨below.1, below.2.1⟩
  refine ⟨⟨Ty.below_of_outline rfl, common, fun index x present => ?_⟩,
    ⟨Ty.below_of_outline outline.symm, common.trans shape, fun index y present => ?_⟩,
    fun member present => ?_, first.2⟩
  · rcases Ty.merge_contents merged index with ⟨absent, -⟩ | ⟨x', y, z, inA, inB, inC, part, -⟩
    · simp [absent] at present
    · obtain rfl := Option.some.inj (inA.symm.trans present)
      exact ⟨z, inC, (contents inA inB part).1⟩
  · rcases Ty.merge_contents merged index with ⟨-, absent, -⟩ | ⟨x, y', z, inA, inB, inC, part, -⟩
    · simp [absent] at present
    · obtain rfl := Option.some.inj (inB.symm.trans present)
      exact ⟨z, inC, (contents inA inB part).2⟩
  · obtain ⟨a, ina, b, inb, part⟩ := Ty.mergeMembers_mem parts names member present
    exact (pairs a ina b inb _ part).2.2

/-- Merging keeps types settled. -/
theorem mergesSettled (catalog : Catalog) (type : Ty) : catalog.MergesSettled type := by
  induction type using Ty.induction <;> intro b c merged sound sound' first second
  case int kind => obtain ⟨rfl, rfl⟩ := Ty.merge_int.mp merged; exact ⟨.refl _, .refl _, first⟩
  case char => obtain ⟨rfl, rfl⟩ := Ty.merge_char.mp merged; exact ⟨.refl _, .refl _, first⟩
  case null => obtain ⟨rfl, rfl⟩ := Ty.merge_null.mp merged; exact ⟨.refl _, .refl _, first⟩
  case ref target width ih =>
    obtain ⟨other, common, rfl, targets, rfl⟩ := Ty.merge_ref.mp merged
    rw [partsSettled_ref] at first second ⊢
    cases sound with
    | ref _ sound =>
    cases sound' with
    | ref _ sound' =>
    obtain ⟨left, right, settled⟩ := MergesSettled.known ih targets sound sound' first second
    exact ⟨⟨⟨rfl, left⟩, rfl, by simp [Ty.contents]⟩, ⟨⟨rfl, right⟩, rfl, by simp [Ty.contents]⟩,
      settled⟩
  case array element fixed align ih =>
    obtain ⟨other, common, rfl, elements, rfl⟩ := Ty.merge_array.mp merged
    rw [partsSettled_array] at first second ⊢
    cases sound with
    | array _ sound _ _ _ =>
    cases sound' with
    | array _ sound' _ _ _ =>
    obtain ⟨left, right, settled⟩ :=
      MergesSettled.unlessSame ih elements sound sound' first second
    exact ⟨⟨⟨rfl, rfl, left⟩, rfl, by simp [Ty.contents]⟩,
      ⟨⟨rfl, rfl, right⟩, rfl, by simp [Ty.contents]⟩, settled⟩
  case refTable target fixed width ih =>
    obtain ⟨other, common, rfl, rfl, targets⟩ := Ty.merge_refTable.mp merged
    rw [partsSettled_refTable] at first second ⊢
    cases sound with
    | refTable _ _ sound _ =>
    cases sound' with
    | refTable _ _ sound' _ =>
    rcases targets with ⟨named, rfl⟩ | ⟨-, targets, -⟩
    · have alike := sound.isNull_eq_of_uniqueName sound' named
      refine ⟨.refl _, refines_refTable ?_, first⟩
      cases unknown : other.isNull with
      | true => exact .inl (Ty.isNull_eq_true.mp unknown)
      | false =>
        have settled := first (alike.trans unknown)
        exact .inr (Ty.below_of_outline (settled.self.agree (second unknown).self named).1.symm)
    · obtain ⟨left, right, settled⟩ := MergesSettled.known ih targets sound sound' first second
      exact ⟨refines_refTable left, refines_refTable right, settled⟩
  case bitField type =>
    obtain ⟨rfl, rfl⟩ := Ty.merge_bitField.mp merged
    exact ⟨.refl _, .refl _, first⟩
  case bitTable type =>
    obtain ⟨rfl, rfl⟩ := Ty.merge_bitTable.mp merged
    exact ⟨.refl _, .refl _, first⟩
  case enum type => obtain ⟨rfl, rfl⟩ := Ty.merge_enum.mp merged; exact ⟨.refl _, .refl _, first⟩
  case struct record ih => exact MergesSettled.struct ih b c merged sound sound' first second

/-- A common type of types of one name tells both of them. -/
theorem tells_of_merge (first : a.WellFormed) (second : b.WellFormed)
    (firstParts : catalog.PartsSettled a) (secondParts : catalog.PartsSettled b)
    (named : a.uniqueName = b.uniqueName) (merged : a.merge b = .ok c) :
    c.Tells a ∧ c.Tells b := by
  obtain ⟨left, right, -⟩ := mergesSettled catalog a b c merged first second firstParts secondParts
  have same : a.outline = b.outline := by
    rcases Ty.merge_outline merged with same | same
    · exact (second.outline_eq_of_below first
        (right.below.trans (Ty.below_of_outline same)) named.symm).symm
    · exact first.outline_eq_of_below second (left.below.trans (Ty.below_of_outline same)) named
  have outline : c.outline = a.outline := by
    rcases Ty.merge_outline merged with here | here
    · exact here
    · exact here.trans same.symm
  exact ⟨⟨left, outline⟩, right, outline.trans same⟩

end Settled

/-- Entries go by their own names, are well-formed, and everything within them is recorded in
    another catalog. -/
def SettledIn (catalog whole : Catalog) : Prop :=
  ∀ name entry, catalog.get? name = some entry →
    entry.uniqueName = name ∧ entry.WellFormed ∧ whole.Settled entry

/-- The invariant of collecting: everything within the entries is recorded by now. -/
def Coherent (catalog : Catalog) : Prop :=
  catalog.SettledIn catalog

/-- A later catalog states what an earlier one states. -/
def ExtendedBy (before behind : Catalog) : Prop :=
  ∀ name entry, before.get? name = some entry →
    ∃ next, behind.get? name = some next ∧ next.Tells entry

theorem coherent_empty : empty.Coherent :=
  fun name _ found => by simp [get?_empty] at found

namespace ExtendedBy

variable {before middle behind : Catalog} {type : Ty}

theorem refl (catalog : Catalog) : ExtendedBy catalog catalog :=
  fun _ entry found => ⟨entry, found, .refl entry⟩

theorem trans (first : ExtendedBy before middle) (second : ExtendedBy middle behind) :
    ExtendedBy before behind := by
  intro name entry found
  obtain ⟨next, found', told⟩ := first name entry found
  obtain ⟨last, found'', told'⟩ := second name next found'
  exact ⟨last, found'', told'.trans told⟩

theorem records (extended : ExtendedBy before behind) (recorded : before.Records type) :
    behind.Records type := by
  obtain ⟨entry, found, told⟩ := recorded
  obtain ⟨next, found', told'⟩ := extended _ entry found
  exact ⟨next, found', told'.trans told⟩

theorem settled (extended : ExtendedBy before behind) (settled : before.Settled type) :
    behind.Settled type :=
  fun part present => extended.records (settled part present)

end ExtendedBy

/-- Inserting a type whose parts are settled keeps the invariant, loses nothing, and
    records the type. -/
theorem Coherent.insert {catalog next : Catalog} {type : Ty} (coherent : catalog.Coherent)
    (sound : type.WellFormed) (parts : catalog.PartsSettled type)
    (inserted : catalog.insert type = .ok next) :
    next.Coherent ∧ ExtendedBy catalog next ∧ next.Records type := by
  obtain ⟨entry, origin, found⟩ := get?_insert inserted
  have here : next.get? type.uniqueName = some entry := by simp [found]
  obtain ⟨entrySound, told, entryParts, kept⟩ :
      entry.WellFormed ∧ entry.Tells type ∧ catalog.PartsSettled entry ∧
        ∀ before, catalog.get? type.uniqueName = some before → entry.Tells before := by
    rcases origin with ⟨absent, rfl⟩ | ⟨before, present, merged⟩
    · exact ⟨sound, .refl _, parts, by simp [absent]⟩
    · obtain ⟨same, beforeSound, settled⟩ := coherent _ before present
      have beforeParts := (settled_iff.mp settled).1
      obtain ⟨toldBefore, told⟩ := tells_of_merge beforeSound sound beforeParts parts same merged
      refine ⟨beforeSound.merge sound merged, told, (mergesSettled catalog before type entry merged
        beforeSound sound beforeParts parts).2.2, fun other present' => ?_⟩
      obtain rfl := Option.some.inj (present.symm.trans present')
      exact toldBefore
  have named := Ty.uniqueName_eq_of_outline told.outline
  have extended : ExtendedBy catalog next := by
    intro name before present
    by_cases same : name = type.uniqueName
    · subst same
      exact ⟨entry, here, kept before present⟩
    · exact ⟨before, by simp [found, same, present], .refl before⟩
  refine ⟨fun name other present => ?_, extended, entry, here, told⟩
  by_cases same : name = type.uniqueName
  · subst same
    obtain rfl := Option.some.inj (here.symm.trans present)
    refine ⟨named, entrySound, settled_iff.mpr ⟨?_, entry, named ▸ here, .refl entry⟩⟩
    exact fun part inside => extended.settled (entryParts part inside)
  · have before : catalog.get? name = some other := by simpa [found, same] using present
    obtain ⟨otherNamed, otherSound, settled⟩ := coherent name other before
    exact ⟨otherNamed, otherSound, extended.settled settled⟩

theorem insertAll_append {catalog next : Catalog} {first second : List Ty} :
    catalog.insertAll (first ++ second) = .ok next ↔
      ∃ middle, catalog.insertAll first = .ok middle ∧ middle.insertAll second = .ok next := by
  simp only [insertAll, List.foldlM_append, bind_eq_ok]

/-- What inserting the trees of some types leaves behind. -/
def Collects (types : List Ty) : Prop :=
  ∀ catalog next : Catalog, catalog.Coherent → catalog.insertAll (types.flatMap Ty.tree) = .ok next →
    next.Coherent ∧ ExtendedBy catalog next ∧ ∀ part ∈ types.flatMap Ty.tree, next.Records part

/-- Types whose trees are collected one by one are collected together. -/
theorem collects_of_each {types : List Ty} (each : ∀ type ∈ types, Collects [type]) :
    Collects types := by
  induction types with
  | nil =>
    intro catalog next coherent inserted
    obtain rfl : catalog = next := by simpa [insertAll, pure, Except.pure] using inserted
    exact ⟨coherent, .refl _, by simp⟩
  | cons type rest ih =>
    intro catalog next coherent inserted
    rw [List.flatMap_cons] at inserted
    obtain ⟨middle, first, later⟩ := insertAll_append.mp inserted
    obtain ⟨coherent', extended, recorded⟩ := each type (by simp) catalog middle coherent
      (by simpa using first)
    obtain ⟨coherent'', extended', recorded'⟩ :=
      ih (fun other present => each other (by simp [present])) middle next coherent' later
    refine ⟨coherent'', extended.trans extended', fun part present => ?_⟩
    rw [List.flatMap_cons] at present
    rcases List.mem_append.mp present with inFirst | inRest
    · exact extended'.records (recorded part (by simpa using inFirst))
    · exact recorded' part inRest

/-- A well-formed type is collected together with everything within it: its parts are
    settled when it is inserted itself. -/
theorem collects_of_wellFormed {type : Ty} (sound : type.WellFormed) : Collects [type] := by
  induction type using Ty.contained_induction with
  | step type ih =>
    intro catalog next coherent inserted
    simp only [List.flatMap_cons, List.flatMap_nil, List.append_nil, Ty.tree_eq type] at inserted ⊢
    obtain ⟨middle, first, last⟩ := insertAll_append.mp inserted
    have last : middle.insert type = .ok next := by
      simpa [insertAll, bind_eq_ok, pure, Except.pure] using last
    obtain ⟨coherent', extended, recorded⟩ := collects_of_each
      (fun part present => ih part present (sound.contained present)) catalog middle coherent first
    have parts : middle.PartsSettled type := fun part present inner inside =>
      recorded inner (List.mem_flatMap.mpr ⟨part, present, inside⟩)
    obtain ⟨coherent'', extended', itself⟩ := coherent'.insert sound parts last
    refine ⟨coherent'', extended.trans extended', fun part present => ?_⟩
    rcases List.mem_append.mp present with inParts | same
    · exact extended'.records (recorded part inParts)
    · exact List.mem_singleton.mp same ▸ itself

/-- Collecting well-formed types records every type within them. -/
theorem collect_records {roots : List Ty} {catalog : Catalog}
    (sound : ∀ root ∈ roots, root.WellFormed) (collected : collect roots = .ok catalog) :
    ∀ part ∈ roots.flatMap Ty.tree, catalog.Records part :=
  (collects_of_each (fun root present => collects_of_wellFormed (sound root present)) empty catalog
    coherent_empty collected).2.2

/-- An entry states nothing that was not stated under its name: its shape, and the outline of
    every member, come from types that were inserted. -/
structure Sourced (types : List Ty) (name : String) (entry : Ty) : Prop where
  shape : ∃ source ∈ types, source.uniqueName = name ∧ source.shape = entry.shape
  contents : ∀ (index : Nat) (content : Ty), entry.contents[index]? = some content →
    ∃ source ∈ types, source.uniqueName = name ∧
      ∃ known, source.contents[index]? = some known ∧ known.outline = content.outline

/-- Every target that an entry knows is known to a type that was inserted. -/
theorem Sourced.targets {types : List Ty} {name : String} {entry : Ty} {index : Nat}
    (sourced : Sourced types name entry) (knows : entry.KnowsTarget index) :
    ∃ source ∈ types, source.uniqueName = name ∧ source.KnowsTarget index := by
  obtain ⟨content, present, known⟩ := Ty.knowsTarget_iff.mp knows
  obtain ⟨source, inside, named, other, found, same⟩ := sourced.contents index content present
  refine ⟨source, inside, named, Ty.knowsTarget_iff.mpr ⟨other, found, ?_⟩⟩
  rwa [← Ty.outline_isKnownRef, same, Ty.outline_isKnownRef]

/-- All entries of a collection are sourced. -/
theorem collect_sourced {roots : List Ty} {catalog : Catalog}
    (collected : collect roots = .ok catalog) :
    ∀ name entry, catalog.get? name = some entry →
      Sourced (roots.flatMap Ty.tree) name entry := by
  refine foldlM_invariant
    (fun catalog : Catalog => ∀ name entry, catalog.get? name = some entry →
      Sourced (roots.flatMap Ty.tree) name entry) collected ?_ ?_
  · intro name entry found
    simp [get?_empty] at found
  · intro catalog type next present before inserted name other found
    obtain ⟨entry, origin, looked⟩ := get?_insert inserted
    by_cases same : name = type.uniqueName
    · subst same
      obtain rfl : entry = other := by simpa [looked] using found
      rcases origin with ⟨-, rfl⟩ | ⟨earlier, present', merged⟩
      · exact ⟨⟨entry, present, rfl, rfl⟩,
          fun index content inside => ⟨entry, present, rfl, content, inside, rfl⟩⟩
      · obtain ⟨⟨source, inside, named, shape⟩, sources⟩ := before _ earlier present'
        refine ⟨⟨source, inside, named, shape.trans (Ty.merge_shape merged).symm⟩, ?_⟩
        intro index content inEntry
        rcases Ty.merge_contents merged index with
          ⟨-, -, absent⟩ | ⟨x, y, z, inEarlier, inType, inMerged, part, -⟩
        · simp [absent] at inEntry
        · obtain rfl := Option.some.inj (inMerged.symm.trans inEntry)
          rcases Ty.unlessSame_outline part with outline | outline
          · rw [outline]
            exact sources index x inEarlier
          · exact ⟨type, present, rfl, y, inType, outline.symm⟩
    · exact before name other (by simpa [looked, same] using found)

end Catalog
end BinaryLayout
