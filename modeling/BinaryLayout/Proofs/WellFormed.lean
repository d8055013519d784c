import BinaryLayout.Proofs.Merging
import BinaryLayout.Ty.Contained

/-!
# Well-formed types

The invariants of types that no later proof establishes again: elements and targets
are no references, elements have a width, names can be declared, and the members of
a struct follow one another and determine its alignment. Merging keeps all of them,
and so does taking a type apart.
-/

namespace BinaryLayout

/-- A name that passes every check on names. -/
def Identifier.Declarable (name : String) : Prop :=
  Identifier.validate name = .ok ()

namespace Identifier

variable {name : String}

/-- What the checks on a declared name establish. -/
theorem Declarable.checked (declarable : Declarable name) :
    wellFormed name = true ∧ isKeyword name = false := by
  unfold Declarable validate at declarable
  cases found : issue? name with
  | some issue => simp [found] at declarable
  | none =>
    unfold issue? at found
    split_ifs at found with malformed ending keyword
    exact ⟨by simpa using malformed, by simpa using keyword⟩

/-- A keyword is no declarable name. -/
theorem Declarable.ne_keyword (declarable : Declarable name) {word : String}
    (keyword : isKeyword word = true) : name ≠ word := by
  rintro rfl
  simp [declarable.checked.2] at keyword

/-- A declared name starts with a letter or underscore, and goes on with those or digits. -/
theorem Declarable.exists_start (declarable : Declarable name) :
    ∃ first rest, name.toList = first :: rest ∧ isStart first = true ∧
      ∀ c ∈ rest, isRest c = true := by
  have form := declarable.checked.1
  unfold wellFormed at form
  cases letters : name.toList with
  | nil => simp [letters] at form
  | cons first rest =>
    simp only [letters, Bool.and_eq_true, List.all_eq_true] at form
    exact ⟨first, rest, rfl, form⟩

theorem Declarable.isRest (declarable : Declarable name) : ∀ c ∈ name.toList, isRest c = true := by
  obtain ⟨first, rest, letters, start, behind⟩ := declarable.exists_start
  rw [letters, List.forall_mem_cons]
  exact ⟨by simp [Identifier.isRest, start], behind⟩

/-- A character that declared names do not have is in none of them. -/
theorem Declarable.not_mem (declarable : Declarable name) {c : Char}
    (sign : Identifier.isRest c = false) : c ∉ name.toList := by
  intro present
  simp [declarable.isRest c present] at sign

end Identifier

/-- Members follow one another from a position on. One without a width is the last,
    and nothing is known of the end behind it. -/
def Consecutive : (start : Nat) → List (Member Ty) → (finish : Option Nat) → Prop
  | start, [], finish => finish = some start
  | start, member :: rest, finish =>
      member.offset = start ∧
        match member.content.width? with
        | some width => Consecutive (start + width) rest finish
        | none => rest = [] ∧ finish = none

/-- The widest alignment of some members, at least one. -/
def widestAlign (members : List (Member Ty)) : Nat :=
  (members.map (·.content.align)).foldr max 1

namespace Consecutive

/-- Members whose end is known can be followed by others. -/
theorem append {start middle : Nat} {first second : List (Member Ty)} {finish : Option Nat}
    (before : Consecutive start first (some middle))
    (behind : Consecutive middle second finish) :
    Consecutive start (first ++ second) finish := by
  induction first generalizing start with
  | nil =>
    obtain rfl : middle = start := by simpa [Consecutive] using before
    exact behind
  | cons member rest ih =>
    obtain ⟨offset, tail⟩ := before
    refine ⟨offset, ?_⟩
    cases known : member.content.width? with
    | none => simp [known] at tail
    | some width => exact ih (by simpa [known] using tail)

/-- Members with the same offsets and widths follow one another in the same way. -/
theorem of_laidAlike {start : Nat} {as bs : List (Member Ty)} {finish : Option Nat}
    (alike : Ty.LaidAlike as bs) (laid : Consecutive start bs finish) :
    Consecutive start as finish := by
  induction alike generalizing start with
  | nil => exact laid
  | @cons a b as bs first rest ih =>
    obtain ⟨-, offset, stored⟩ := first
    obtain ⟨position, tail⟩ := laid
    refine ⟨offset.trans position, ?_⟩
    rw [stored.width]
    cases known : b.content.width? with
    | none =>
      obtain ⟨rfl, ended⟩ : bs = [] ∧ finish = none := by simpa [known] using tail
      cases rest
      exact ⟨rfl, ended⟩
    | some width => exact ih (by simpa [known] using tail)

/-- The widths of members decide their offsets. -/
theorem offsets_eq {start : Nat} {as bs : List (Member Ty)} {first second : Option Nat}
    (one : Consecutive start as first) (other : Consecutive start bs second)
    (widths : List.Forall₂ (fun a b => a.content.width? = b.content.width?) as bs) :
    as.map (·.offset) = bs.map (·.offset) := by
  induction widths generalizing start with
  | nil => rfl
  | @cons a b as bs width rest ih =>
    obtain ⟨placed, tail⟩ := one
    obtain ⟨placed', tail'⟩ := other
    rw [width] at tail
    have behind : as.map (·.offset) = bs.map (·.offset) := by
      cases known : b.content.width? with
      | none =>
        obtain ⟨rfl, -⟩ : bs = [] ∧ _ := by simpa [known] using tail'
        cases rest
        rfl
      | some width =>
        exact ih (by simpa [known] using tail) (by simpa [known] using tail')
    simp [placed, placed', behind]

end Consecutive

theorem one_le_widestAlign (members : List (Member Ty)) : 1 ≤ widestAlign members := by
  induction members with
  | nil => simp [widestAlign]
  | cons member rest ih => simp only [widestAlign, List.map_cons, List.foldr_cons] at *; omega

theorem widestAlign_append (first second : List (Member Ty)) :
    widestAlign (first ++ second) = max (widestAlign first) (widestAlign second) := by
  induction first with
  | nil =>
    have positive := one_le_widestAlign second
    simp only [List.nil_append, widestAlign, List.map_nil, List.foldr_nil] at *
    omega
  | cons member rest ih =>
    simp only [widestAlign, List.cons_append, List.map_cons, List.foldr_cons] at *
    omega

/-- Only the alignments of members count, one by one. -/
theorem widestAlign_congr {as bs : List (Member Ty)}
    (aligns : List.Forall₂ (fun a b => a.content.align = b.content.align) as bs) :
    widestAlign as = widestAlign bs := by
  induction aligns with
  | nil => rfl
  | cons first rest ih =>
    simp only [widestAlign, List.map_cons, List.foldr_cons] at *
    rw [first, ih]

namespace Ty

/-- The invariants of a type. -/
inductive WellFormed : Ty → Prop
  | int (kind : IntKind) : WellFormed (int kind)
  | char : WellFormed char
  | null : WellFormed null
  | ref {target : Ty} (width : RefWidth) (sound : WellFormed target) :
      WellFormed (ref target width)
  | array {element : Ty} {align : Nat} (fixed : Option Nat) (sound : WellFormed element)
      (direct : element.isRef = false) (sized : element.width?.isSome)
      (wide : element.align ≤ align) : WellFormed (array element fixed align)
  | refTable {target : Ty} (fixed : Option Nat) (width : RefWidth) (sound : WellFormed target)
      (direct : target.isRef = false) : WellFormed (refTable target fixed width)
  | bitField {type : BitFieldType}
      (enums : ∀ field ∈ type.fields, ∀ enumeration, field.kind = .enum enumeration →
        Identifier.Declarable enumeration.name) : WellFormed (bitField type)
  | bitTable (type : BitTableType) : WellFormed (bitTable type)
  | enum {type : Enumeration} (declarable : Identifier.Declarable type.name) :
      WellFormed (enum type)
  | struct {record : Record Ty} (declarable : Identifier.Declarable record.name)
      (members : ∀ member ∈ record.members, WellFormed member.content)
      (widest : record.align = widestAlign record.members)
      (laid : ∃ finish, Consecutive 0 record.members finish ∧
        (record.size.isSome → record.size = finish))
      (enums : ∀ enumeration ∈ record.enums, Identifier.Declarable enumeration.name)
      (held : ∀ size, record.size = some size → size < addressSpace) :
      WellFormed (struct record)

/-- The common type of two well-formed types is well-formed. -/
theorem WellFormed.merge {a b c : Ty} (first : a.WellFormed) (second : b.WellFormed)
    (merged : a.merge b = .ok c) : c.WellFormed := by
  induction a using Ty.induction generalizing b c with
  | int kind => obtain ⟨-, rfl⟩ := merge_int.mp merged; exact first
  | char => obtain ⟨-, rfl⟩ := merge_char.mp merged; exact first
  | null => obtain ⟨-, rfl⟩ := merge_null.mp merged; exact first
  | ref target width ih =>
    obtain ⟨other, common, rfl, targets, rfl⟩ := merge_ref.mp merged
    cases first with
    | ref _ sound =>
    cases second with
    | ref _ sound' =>
    rcases known_eq_ok.mp targets with ⟨-, rfl⟩ | ⟨-, -, rfl⟩ | ⟨-, -, inner⟩
    · exact .ref width sound'
    · exact .ref width sound
    · exact .ref width (ih sound sound' inner)
  | array element fixed align ih =>
    obtain ⟨other, common, rfl, elements, rfl⟩ := merge_array.mp merged
    have alike := unlessSame_storedAlike elements
    cases first with
    | array _ sound direct sized wide =>
    cases second with
    | array _ sound' _ _ _ =>
    rcases unlessSame_eq_ok.mp elements with ⟨-, rfl⟩ | ⟨-, inner⟩
    · exact .array fixed sound direct sized wide
    · exact .array fixed (ih sound sound' inner) ((merge_isRef inner).2.trans direct)
        (by rw [alike.width]; exact sized) (by rw [alike.align]; exact wide)
  | refTable target fixed width ih =>
    obtain ⟨other, common, rfl, rfl, targets⟩ := merge_refTable.mp merged
    cases first with
    | refTable _ _ sound direct =>
    cases second with
    | refTable _ _ sound' direct' =>
    rcases targets with ⟨-, rfl⟩ | ⟨-, inner, isDirect⟩
    · exact .refTable fixed width sound direct
    · refine .refTable fixed width ?_ isDirect
      rcases known_eq_ok.mp inner with ⟨-, rfl⟩ | ⟨-, -, rfl⟩ | ⟨-, -, inner⟩
      · exact sound'
      · exact sound
      · exact ih sound sound' inner
  | bitField type => obtain ⟨-, rfl⟩ := merge_bitField.mp merged; exact first
  | bitTable type => obtain ⟨-, rfl⟩ := merge_bitTable.mp merged; exact first
  | enum type => obtain ⟨-, rfl⟩ := merge_enum.mp merged; exact first
  | struct record ih =>
    obtain ⟨other, members, rfl, -, -, names, parts, rfl⟩ := merge_struct.mp merged
    have alike := mergeMembers_laidAlike parts names
    cases first with
    | struct declarable sound widest laid enums held =>
    cases second with
    | struct _ sound' _ _ _ =>
    obtain ⟨finish, placed, sized⟩ := laid
    have aligns := widestAlign_congr (alike.imp fun _ _ same => same.2.2.align)
    refine .struct declarable ?_ (widest.trans aligns.symm)
      ⟨finish, .of_laidAlike alike placed, sized⟩ enums held
    intro member present
    obtain ⟨a, ina, b, inb, part⟩ := mergeMembers_mem parts names member present
    rcases unlessSame_eq_ok.mp part with ⟨-, same⟩ | ⟨-, inner⟩
    · exact same ▸ sound a ina
    · exact ih a ina (sound a ina) (sound' b inb) inner

/-- A common type in which either side may be unknown is well-formed. -/
theorem WellFormed.mergeKnown {a b c : Ty} (first : a.WellFormed) (second : b.WellFormed)
    (merged : a.mergeKnown b = .ok c) : c.WellFormed := by
  rcases known_eq_ok.mp merged with ⟨-, rfl⟩ | ⟨-, -, rfl⟩ | ⟨-, -, inner⟩
  · exact second
  · exact first
  · exact first.merge second inner

/-- A type with a width is stored in place. -/
theorem isInPlace_of_width {type : Ty} (sized : type.width?.isSome) : type.isInPlace = true := by
  cases type with
  | array element fixed align =>
    cases fixed with
    | none => simp [width?_array] at sized
    | some count => rfl
  | refTable target fixed width =>
    cases fixed with
    | none => simp [width?_refTable] at sized
    | some count => rfl
  | struct record =>
    cases size : record.size with
    | none => simp [width?, width, size, refuse, Except.toOption] at sized
    | some size => simp [isInPlace, Record.isFinalized, size]
  | null => cases sized
  | bitTable type => cases sized
  | _ => rfl

/-- A tree is made of the trees of the contained types and ends with the type. -/
theorem tree_eq (type : Ty) : type.tree = type.contained.flatMap tree ++ [type] := by
  have storage (storage : EnumStorage) : tree (ofStorage storage) = [ofStorage storage] := by
    cases storage <;> rfl
  have enums (types : List Enumeration) :
      (types.map enum).flatMap tree = types.flatMap enumTree := by
    simp [List.flatMap_map, tree]
  cases type with
  | ref target width =>
    by_cases unknown : target.isNull <;> simp [tree, contained, unknown]
  | refTable target fixed width =>
    by_cases unknown : target.isNull <;> simp [tree, contained, unknown]
  | bitField type =>
    simp only [tree, contained, fieldTrees]
    congr 1
    induction type.fields with
    | nil => rfl
    | cons field rest ih => cases kind : field.kind <;> simp [kind, ih, tree]
  | enum type => simp [tree, contained, enumTree, storage]
  | struct record =>
    have members (members : List (Member Ty)) :
        (members.map (·.content)).flatMap tree = memberTrees members := by
      induction members with
      | nil => rfl
      | cons member rest ih => simp [memberTrees, ih]
    cases record
    simp [tree, contained, members, enums]
  | _ => simp [tree, contained]

theorem self_mem_tree (type : Ty) : type ∈ type.tree := by
  rw [tree_eq]
  exact List.mem_append_right _ List.mem_cons_self

/-- What is within a contained type is within the type that contains it. -/
theorem mem_tree_of_contained {inner part type : Ty} (inside : part ∈ type.contained)
    (deep : inner ∈ part.tree) : inner ∈ type.tree := by
  rw [tree_eq]
  exact List.mem_append_left _ (List.mem_flatMap.mpr ⟨part, inside, deep⟩)

/-- Induction over types in which every contained type has the property, the
    enumerations of bit fields and structs included. -/
@[elab_as_elim]
theorem contained_induction {motive : Ty → Prop}
    (step : ∀ type, (∀ part ∈ type.contained, motive part) → motive type) (type : Ty) :
    motive type := by
  have storage (storage : EnumStorage) : motive (ofStorage storage) := by
    cases storage <;> exact step _ (by simp [ofStorage, contained])
  have enums (type : Enumeration) : motive (enum type) :=
    step _ (by simpa [contained] using storage type.storage)
  induction type using Ty.induction with
  | ref target width ih =>
    refine step _ fun part present => ?_
    by_cases unknown : target.isNull <;> simp [contained, unknown] at present
    exact present ▸ ih
  | array element fixed align ih => exact step _ (by simpa [contained] using ih)
  | refTable target fixed width ih =>
    refine step _ fun part present => ?_
    by_cases unknown : target.isNull <;> simp [contained, unknown] at present
    exact present ▸ ih
  | bitField type =>
    refine step _ fun part present => ?_
    obtain ⟨field, -, chosen⟩ := List.mem_filterMap.mp present
    cases kind : field.kind with
    | enum enumeration =>
      obtain rfl : Ty.enum enumeration = part := by simpa [kind] using chosen
      exact enums enumeration
    | _ => simp [kind] at chosen
  | enum type => exact enums type
  | struct record ih =>
    refine step _ fun part present => ?_
    rcases List.mem_append.mp present with inMembers | inEnums
    · obtain ⟨member, declared, rfl⟩ := List.mem_map.mp inMembers
      exact ih member declared
    · obtain ⟨enumeration, -, rfl⟩ := List.mem_map.mp inEnums
      exact enums enumeration
  | _ => exact step _ (by simp [contained])

/-- Types within types within a type are within it. -/
theorem tree_trans {inner part type : Ty} (deep : inner ∈ part.tree) (inside : part ∈ type.tree) :
    inner ∈ type.tree := by
  induction type using contained_induction with
  | step type ih =>
    rw [tree_eq] at inside
    rcases List.mem_append.mp inside with below | itself
    · obtain ⟨child, direct, deeper⟩ := List.mem_flatMap.mp below
      exact mem_tree_of_contained direct (ih child direct deeper)
    · obtain rfl := List.mem_singleton.mp itself
      exact deep

/-- What a well-formed type contains is well-formed. -/
theorem WellFormed.contained {type part : Ty} (sound : type.WellFormed)
    (present : part ∈ type.contained) : part.WellFormed := by
  have storage (storage : EnumStorage) : (ofStorage storage).WellFormed := by
    cases storage <;> constructor
  cases sound with
  | @ref target _ sound =>
    by_cases unknown : target.isNull <;> simp [Ty.contained, unknown] at present
    exact present ▸ sound
  | array _ sound _ _ _ =>
    obtain rfl : part = _ := by simpa [Ty.contained] using present
    exact sound
  | @refTable target _ _ sound _ =>
    by_cases unknown : target.isNull <;> simp [Ty.contained, unknown] at present
    exact present ▸ sound
  | bitField enums =>
    obtain ⟨field, declared, chosen⟩ := List.mem_filterMap.mp present
    cases kind : field.kind with
    | enum enumeration =>
      obtain rfl : Ty.enum enumeration = part := by simpa [kind] using chosen
      exact .enum (enums field declared enumeration kind)
    | _ => simp [kind] at chosen
  | enum declarable =>
    obtain rfl : part = _ := by simpa [Ty.contained] using present
    exact storage _
  | struct declarable members widest laid enums =>
    rcases List.mem_append.mp present with inMembers | inEnums
    · obtain ⟨member, declared, rfl⟩ := List.mem_map.mp inMembers
      exact members member declared
    · obtain ⟨enumeration, declared, rfl⟩ := List.mem_map.mp inEnums
      exact .enum (enums enumeration declared)
  | _ => simp [Ty.contained] at present

/-- The members of a well-formed struct are well-formed. -/
theorem WellFormed.member {record : Record Ty} (sound : (Ty.struct record).WellFormed) :
    ∀ member ∈ record.members, member.content.WellFormed := by
  cases sound
  assumption

/-- Every type within a well-formed one is well-formed. -/
theorem WellFormed.tree {type part : Ty} (sound : type.WellFormed)
    (present : part ∈ type.tree) : part.WellFormed := by
  induction type using contained_induction with
  | step type ih =>
    rw [tree_eq] at present
    rcases List.mem_append.mp present with inside | itself
    · obtain ⟨child, direct, deeper⟩ := List.mem_flatMap.mp inside
      exact ih child direct (sound.contained direct) deeper
    · exact List.mem_singleton.mp itself ▸ sound

end Ty
end BinaryLayout
