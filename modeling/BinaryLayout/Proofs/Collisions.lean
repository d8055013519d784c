import BinaryLayout.Proofs.Keys
import BinaryLayout.Proofs.Throughout

/-!
# Types of one name

Types are collected under their unique names, so types of one name should have one shape. All
pairs of one name that do not have it are listed here. A named type takes the name of an integer
or of a reference table; an enumeration and a struct share a name; a target is named like another
one with a size behind it; or elements of one name have different alignments, which the names of
their arrays do not show.
-/

namespace BinaryLayout

namespace Ty

/-- Bit fields and bit field arrays are declared with a name, like all that has one. -/
def NameDeclarable : Ty → Prop
  | bitField type => Identifier.Declarable type.name
  | bitTable type => Identifier.Declarable type.name
  | _ => True

end Ty

/-- Declared bit fields have a declarable name. -/
theorem BitFieldType.declare_declarable {name : String} {bits : UInt32} {type : BitFieldType}
    (declared : declare name bits = .ok type) : Identifier.Declarable type.name := by
  simp only [declare, bind_eq_ok, pure, Except.pure, Except.ok.injEq] at declared
  obtain ⟨_, valid, word, -, rfl⟩ := declared
  exact valid

/-- Fields leave the name of a bit field alone. -/
theorem BitField.Built.declarable {field : BitField} (built : field.Built) :
    Identifier.Declarable field.name := by
  induction built with
  | declare declared =>
    simp only [BitField.declare, bind_eq_ok, pure, Except.pure, Except.ok.injEq] at declared
    obtain ⟨type, declared, rfl⟩ := declared
    exact BitFieldType.declare_declarable declared
  | add _ added ih =>
    obtain ⟨rfl, -⟩ := push_eq_ok (pushFitting_eq_ok added)
    exact ih
  | addSigned _ added ih =>
    obtain ⟨rfl, -⟩ := push_eq_ok (pushFitting_eq_ok added)
    exact ih
  | addMember _ _ added ih =>
    obtain ⟨rfl, -⟩ := push_eq_ok added
    exact ih

/-- Declared bit field arrays have a declarable name. -/
theorem BitTableType.declare_declarable {name : String} {fields : List String}
    {type : BitTableType} (declared : declare name fields = .ok type) :
    Identifier.Declarable type.name := by
  simp only [declare, bind_eq_ok] at declared
  obtain ⟨_, valid, declared⟩ := declared
  split at declared
  · contradiction
  · obtain ⟨checked, -, same⟩ := bind_eq_ok.mp declared
    obtain rfl := Except.ok.inj same
    exact valid

/-- Rows leave the name of a bit field array alone. -/
theorem BitTable.Built.declarable {table : BitTable} (built : table.Built) :
    Identifier.Declarable table.type.name := by
  induction built with
  | declare declared =>
    simp only [BitTable.declare, bind_eq_ok, pure, Except.pure, Except.ok.injEq] at declared
    obtain ⟨type, declared, rfl⟩ := declared
    exact BitTableType.declare_declarable declared
  | push _ appended ih =>
    obtain ⟨-, -, rfl⟩ := push_eq_ok.mp appended
    exact ih

namespace Ty

/-- Names are checked when something is declared, and never change. -/
theorem nameDeclarable_law : Law NameDeclarable where
  plain type plain := by
    cases type with
    | bitField field => simp [isMade] at plain
    | bitTable table => simp [isMade] at plain
    | _ => trivial
  declaredField := BitFieldType.declare_declarable
  field built := built.declarable
  declaredTable := BitTableType.declare_declarable
  table built := built.declarable
  openRecord _ := trivial
  finalize _ made := by
    obtain ⟨cursor, -, -, -, rfl⟩ := Draft.finalize_eq_ok made
    trivial
  merge _ _ := trivial

section Signs

variable {type : Ty}

theorem isRef_eq_true : type.isRef = true ↔ ∃ target width, type = ref target width := by
  cases type <;> simp [isRef]

/-- The names of integer types have the letters of declared names. -/
theorem intKind_isRest (kind : IntKind) : ∀ c ∈ kind.name.toList, Identifier.isRest c = true := by
  obtain ⟨isSigned, width⟩ := kind
  apply List.all_eq_true.mp
  cases isSigned <;> cases width <;> decide

/-- Only the names of references have an arrow. -/
theorem arrow_mem_iff (sound : type.WellFormed) (names : type.Throughout NameDeclarable) :
    '>' ∈ type.uniqueName.toList ↔ type.isRef = true := by
  have digits (number : Nat) : '>' ∉ Nat.toDigits 10 number := fun present =>
    absurd (isDigit_toDigits number _ present) (by decide)
  have slots (fixed : Option Nat) : '>' ∉ slot fixed := fun present =>
    absurd (isDigit_slot fixed _ present) (by decide)
  have widths (numbers : List Nat) : '>' ∉ joined numbers := fun present =>
    absurd (mem_joined present) (by decide)
  induction type using Ty.induction with
  | int kind =>
    have absent : '>' ∉ kind.name.toList := fun present =>
      absurd (intKind_isRest kind _ present) (by decide)
    simp [uniqueName, absent, isRef]
  | char => decide
  | null => decide
  | ref target width _ => simp [uniqueName, isRef, toString_text]
  | array element fixed align ih =>
    cases sound with
    | array _ sound direct _ _ =>
    have inner := ih sound ((Throughout.array_iff nameDeclarable_law).mp names)
    rw [direct] at inner
    by_cases own : align = element.align
    · subst own
      simp [toList_uniqueName_array, inner, slots, isRef]
    · simp [toList_uniqueName_aligned own, inner, slots, digits, isRef]
  | refTable target fixed width ih =>
    cases sound with
    | refTable _ _ sound direct =>
    have inner := ih sound ((Throughout.refTable_iff nameDeclarable_law).mp names)
    rw [direct] at inner
    rw [toList_uniqueName_refTable]
    cases fixed <;> cases width <;> simp [inner, sizing, digits, isRef, RefWidth.label]
  | bitField type =>
    have name : '>' ∉ type.name.toList := Identifier.Declarable.not_mem names.self (by decide)
    simp [toList_uniqueName_bitField, name, widths, digits, isRef]
  | bitTable type =>
    have name : '>' ∉ type.name.toList := Identifier.Declarable.not_mem names.self (by decide)
    simp [uniqueName, name, isRef]
  | enum type =>
    cases sound with
    | enum declarable =>
      have name := declarable.not_mem (c := '>') (by decide)
      simp [uniqueName, name, isRef]
  | struct record _ =>
    cases sound with
    | struct declarable =>
      have name := declarable.not_mem (c := '>') (by decide)
      simp [uniqueName, name, isRef]

end Signs

/-- The name of an enumeration or a struct. -/
def declaredName? : Ty → Option String
  | enum type => some type.name
  | struct record => some record.name
  | _ => none

/-- Types are of one variant and agree on everything that is not the content of a named type. -/
inductive SameShape : Ty → Ty → Prop
  | int (kind : IntKind) : SameShape (int kind) (int kind)
  | char : SameShape char char
  | null : SameShape null null
  | ref {target other : Ty} (width : RefWidth) (targets : target.uniqueName = other.uniqueName) :
      SameShape (ref target width) (ref other width)
  | array {element other : Ty} (fixed : Option Nat) (align : Nat)
      (elements : element.uniqueName = other.uniqueName) :
      SameShape (array element fixed align) (array other fixed align)
  | refTable {target other : Ty} (fixed : Option Nat) (width : RefWidth)
      (targets : target.uniqueName = other.uniqueName) :
      SameShape (refTable target fixed width) (refTable other fixed width)
  | bitField {type other : BitFieldType} (names : type.name = other.name)
      (widths : type.fields.map (·.width) = other.fields.map (·.width))
      (words : type.total = other.total) : SameShape (bitField type) (bitField other)
  | bitTable {type other : BitTableType} (names : type.name = other.name) :
      SameShape (bitTable type) (bitTable other)
  | enum {type other : Enumeration} (names : type.name = other.name) :
      SameShape (enum type) (enum other)
  | struct {record other : Record Ty} (names : record.name = other.name) :
      SameShape (struct record) (struct other)

/-- Types get one unique name in spite of different shapes. -/
inductive Collides : Ty → Ty → Prop
  /-- A named type takes the name of an integer type. -/
  | intName {kind : IntKind} {type : Ty} (taken : type.declaredName? = some kind.name) :
      Collides (int kind) type
  | enumStruct {type : Enumeration} {record : Record Ty} (shared : type.name = record.name) :
      Collides (enum type) (struct record)
  /-- A named type takes the name of a reference table. -/
  | tableName {target type : Ty} {fixed : Option Nat} {width : RefWidth}
      (taken : type.declaredName? = some (refTable target fixed width).uniqueName) :
      Collides (refTable target fixed width) type
  /-- A bit field array takes the name of a reference table of bit field arrays. -/
  | bitTableName {target : Ty} {fixed : Option Nat} {width : RefWidth} {type : BitTableType}
      (taken : (refTable target fixed width).uniqueName = (bitTable type).uniqueName) :
      Collides (refTable target fixed width) (bitTable type)
  /-- A target takes the name of another one with the size of its table. -/
  | sizeInName {target other : Ty} {count : Nat} {width : RefWidth}
      (taken : other.uniqueName = target.uniqueName ++ s!"Size{count}") :
      Collides (refTable target (some count) width) (refTable other none width)
  /-- The alignments of arrays are those of their elements, and these differ. -/
  | elementAlign {element other : Ty} {fixed : Option Nat}
      (shared : element.uniqueName = other.uniqueName) (differ : element.align ≠ other.align) :
      Collides (array element fixed element.align) (array other fixed other.align)

theorem SameShape.symm {a b : Ty} (same : a.SameShape b) : b.SameShape a := by
  cases same with
  | int kind => exact .int kind
  | char => exact .char
  | null => exact .null
  | ref width targets => exact .ref width targets.symm
  | array fixed align elements => exact .array fixed align elements.symm
  | refTable fixed width targets => exact .refTable fixed width targets.symm
  | bitField names widths words => exact .bitField names.symm widths.symm words.symm
  | bitTable names => exact .bitTable names.symm
  | enum names => exact .enum names.symm
  | struct names => exact .struct names.symm

section Pairs

variable {a b type : Ty}

/-- A declared name is the unique name, and can be declared. -/
theorem WellFormed.of_declaredName? {name : String} (sound : type.WellFormed)
    (declared : type.declaredName? = some name) :
    type.uniqueName = name ∧ Identifier.Declarable name := by
  cases sound with
  | enum declarable =>
    obtain rfl := Option.some.inj declared
    exact ⟨rfl, declarable⟩
  | struct declarable =>
    obtain rfl := Option.some.inj declared
    exact ⟨rfl, declarable⟩
  | _ => simp [declaredName?] at declared

/-- Colliding types have one name and different shapes. -/
theorem Collides.spec (collides : a.Collides b) (sound : b.WellFormed) :
    a.uniqueName = b.uniqueName ∧ ¬ a.SameShape b := by
  cases collides with
  | intName taken =>
    refine ⟨(sound.of_declaredName? taken).1.symm, fun same => ?_⟩
    cases same
    simp [declaredName?] at taken
  | enumStruct shared => exact ⟨shared, nofun⟩
  | tableName taken =>
    refine ⟨(sound.of_declaredName? taken).1.symm, fun same => ?_⟩
    cases same
    simp [declaredName?] at taken
  | bitTableName taken => exact ⟨taken, nofun⟩
  | sizeInName taken => 
    exact ⟨by simp [uniqueName, tableEnding, taken, String.append_assoc, toString_text], nofun⟩
  | @elementAlign element other fixed shared differ =>
    refine ⟨by simp [uniqueName, shared], fun same => ?_⟩
    generalize element.align = align at same differ
    generalize other.align = align' at same differ
    cases same
    exact differ rfl

/-- Types of one name, one of which is an enumeration or a struct. -/
theorem sameShape_or_collides_of_declared {name : String} (sound : b.WellFormed)
    (declared : b.declaredName? = some name) (named : a.uniqueName = b.uniqueName) :
    a.SameShape b ∨ a.Collides b ∨ b.Collides a := by
  obtain ⟨rfl, declarable⟩ := sound.of_declaredName? declared
  rw [← named] at declarable declared
  -- The signs of the other types cannot be in a declared name.
  have without {c : Char} (sign : Identifier.isRest c = false) : c ∉ a.uniqueName.toList :=
    declarable.not_mem sign
  cases a with
  | int kind => exact .inr (.inl (.intName declared))
  | char => exact absurd rfl (declarable.ne_keyword (by decide))
  | null => exact absurd rfl (declarable.ne_keyword (by decide))
  | ref target width =>
    exact absurd (by simp [uniqueName, toString_text]) (without (c := '>') (by decide))
  | array element fixed align =>
    exact absurd (by cases fixed <;> simp [uniqueName, toString_text]) (without (c := '[') (by decide))
  | refTable target fixed width => exact .inr (.inl (.tableName declared))
  | bitField type =>
    exact absurd (by simp [toList_uniqueName_bitField]) (without (c := '(') (by decide))
  | bitTable type => exact absurd (by simp [uniqueName]) (without (c := ':') (by decide))
  | enum type =>
    cases b with
    | enum other => exact .inl (.enum named)
    | struct record => exact .inr (.inl (.enumStruct named))
    | _ => simp [declaredName?] at declared
  | struct record =>
    cases b with
    | enum other => exact .inr (.inr (.enumStruct named.symm))
    | struct other => exact .inl (.struct named)
    | _ => simp [declaredName?] at declared

/-- The last sign in the names of a variant, if it is always the same one. -/
def sign? : Ty → Option Char
  | int _ => some 't'
  | char => some 'r'
  | null => some 'd'
  | array element _ align => some (if align = element.align then ']' else '@')
  | refTable .. => some 'y'
  | bitField _ => some ')'
  | _ => none

theorem lastSign_of_sign? {c : Char} (known : type.sign? = some c) : LastSign type.uniqueName c := by
  cases type with
  | int kind =>
    obtain rfl := Option.some.inj known
    refine ⟨by decide, kind.name.toList.dropLast, [], ?_, by simp⟩
    obtain ⟨isSigned, width⟩ := kind
    cases isSigned <;> cases width <;> decide
  | char =>
    obtain rfl := Option.some.inj known
    exact ⟨by decide, ['c', 'h', 'a'], [], by decide, by simp⟩
  | null =>
    obtain rfl := Option.some.inj known
    exact ⟨by decide, ['v', 'o', 'i'], [], by decide, by simp⟩
  | array element fixed align =>
    obtain rfl := Option.some.inj known
    exact lastSign_array element fixed align
  | refTable target fixed width =>
    obtain rfl := Option.some.inj known
    exact lastSign_refTable target fixed width
  | bitField type =>
    obtain rfl := Option.some.inj known
    exact lastSign_bitField type
  | _ => simp [sign?] at known

/-- Arrays of one name. -/
theorem sameShape_or_collides_array {element other : Ty} {fixed fixed' : Option Nat}
    {align align' : Nat}
    (named : (array element fixed align).uniqueName = (array other fixed' align').uniqueName) :
    (array element fixed align).SameShape (array other fixed' align') ∨
      (array element fixed align).Collides (array other fixed' align') := by
  obtain ⟨rfl, elements, rfl | ⟨rfl, rfl⟩⟩ := array_of_uniqueName named
  · exact .inl (.array fixed align elements)
  · by_cases same : element.align = other.align
    · rw [same]
      exact .inl (.array fixed other.align elements)
    · exact .inr (.elementAlign elements same)

/-- Reference tables of one name. -/
theorem sameShape_or_collides_refTable {target other : Ty} {fixed fixed' : Option Nat}
    {width width' : RefWidth}
    (named : (refTable target fixed width).uniqueName = (refTable other fixed' width').uniqueName) :
    (refTable target fixed width).SameShape (refTable other fixed' width') ∨
      (refTable target fixed width).Collides (refTable other fixed' width') ∨
      (refTable other fixed' width').Collides (refTable target fixed width) := by
  obtain ⟨rfl, ⟨rfl, targets⟩ | ⟨count, rfl, rfl, taken⟩ | ⟨count, rfl, rfl, taken⟩⟩ :=
    refTable_of_uniqueName named
  · exact .inl (.refTable fixed width targets)
  · exact .inr (.inl (.sizeInName taken))
  · exact .inr (.inr (.sizeInName taken))

/-- Types of one name whose last signs are known. -/
theorem sameShape_or_collides_of_sign (known : a.sign?.isSome) (known' : b.sign?.isSome)
    (named : a.uniqueName = b.uniqueName) : a.SameShape b ∨ a.Collides b ∨ b.Collides a := by
  obtain ⟨c, first⟩ := Option.isSome_iff_exists.mp known
  obtain ⟨d, second⟩ := Option.isSome_iff_exists.mp known'
  have signs : a.sign? = b.sign? := by
    rw [first, second, (lastSign_of_sign? first).unique (named ▸ lastSign_of_sign? second)]
  cases a <;> cases b <;> simp only [sign?, Option.some.injEq] at signs known known'
  case int.int kind other =>
    obtain rfl := intKind_of_name named
    exact .inl (.int kind)
  case char.char => exact .inl .char
  case null.null => exact .inl .null
  case array.array => exact (sameShape_or_collides_array named).imp_right .inl
  case refTable.refTable => exact sameShape_or_collides_refTable named
  case bitField.bitField =>
    obtain ⟨names, widths, words⟩ := bitField_of_uniqueName named
    exact .inl (.bitField names widths words)
  all_goals grind

/-- The last sign of a bit field array's name is that of its declared name. -/
theorem lastSign_bitTable {table : BitTableType} (declarable : Identifier.Declarable table.name) :
    ∃ c, LastSign (bitTable table).uniqueName c ∧ Identifier.isStart c = true := by
  obtain ⟨c, last, start⟩ := declarable.exists_lastSign
  exact ⟨c, last.prepend "BitFieldArray:", start⟩

/-- Types of one name, one of which is a bit field array. -/
theorem sameShape_or_collides_of_bitTable {table : BitTableType}
    (declarable : Identifier.Declarable table.name) (direct : a.isRef = false)
    (unnamed : a.declaredName? = none) (named : a.uniqueName = (bitTable table).uniqueName) :
    a.SameShape (bitTable table) ∨ a.Collides (bitTable table) := by
  obtain ⟨c, last, start⟩ := lastSign_bitTable declarable
  have colon : ':' ∈ a.uniqueName.toList := by simp [named, uniqueName]
  have sign {d : Char} (known : a.sign? = some d) : Identifier.isStart d = true := by
    rwa [(lastSign_of_sign? known).unique (named ▸ last)]
  cases a with
  | int kind =>
    exact absurd (intKind_isRest kind _ colon) (by decide)
  | char => exact absurd colon (by decide)
  | null => exact absurd colon (by decide)
  | ref target width => simp [isRef] at direct
  | array element fixed align =>
    have start := sign rfl
    split at start <;> exact absurd start (by decide)
  | refTable target fixed width => exact .inr (.bitTableName named)
  | bitField type => exact absurd (sign rfl) (by decide)
  | bitTable other => exact .inl (.bitTable ((String.append_right_inj _).mp named))
  | enum type => simp [declaredName?] at unnamed
  | struct record => simp [declaredName?] at unnamed

/-- Apart from references and named types, only the last signs of bit field arrays vary. -/
theorem exists_bitTable (direct : type.isRef = false) (unnamed : type.declaredName? = none)
    (unknown : ¬ type.sign?.isSome) : ∃ table, type = bitTable table := by
  cases type with
  | bitTable table => exact ⟨table, rfl⟩
  | ref target width => simp [isRef] at direct
  | enum type => simp [declaredName?] at unnamed
  | struct record => simp [declaredName?] at unnamed
  | _ => simp [sign?] at unknown

/-- Built types of one name have one shape, or collide one way or the other. -/
theorem Built.sameShape_or_collides (first : a.Built) (second : b.Built)
    (named : a.uniqueName = b.uniqueName) : a.SameShape b ∨ a.Collides b ∨ b.Collides a := by
  have names := first.throughout nameDeclarable_law
  have names' := second.throughout nameDeclarable_law
  have flip (flipped : b.SameShape a ∨ b.Collides a ∨ a.Collides b) :
      a.SameShape b ∨ a.Collides b ∨ b.Collides a := by
    rcases flipped with same | back | forth
    · exact .inl same.symm
    · exact .inr (.inr back)
    · exact .inr (.inl forth)
  have refs : a.isRef = b.isRef := by
    rw [Bool.eq_iff_iff, ← arrow_mem_iff first.wellFormed names,
      ← arrow_mem_iff second.wellFormed names', named]
  cases direct : b.isRef with
  | true =>
    obtain ⟨other, width', rfl⟩ := isRef_eq_true.mp direct
    obtain ⟨target, width, rfl⟩ := isRef_eq_true.mp (refs.trans direct)
    obtain ⟨rfl, targets⟩ := ref_of_uniqueName named
    exact .inl (.ref width targets)
  | false =>
    rw [direct] at refs
    cases declared : b.declaredName? with
    | some name => exact sameShape_or_collides_of_declared second.wellFormed declared named
    | none =>
      cases declared' : a.declaredName? with
      | some name =>
        exact flip (sameShape_or_collides_of_declared first.wellFormed declared' named.symm)
      | none =>
        by_cases known : a.sign?.isSome
        · by_cases known' : b.sign?.isSome
          · exact sameShape_or_collides_of_sign known known' named
          · obtain ⟨table, rfl⟩ := exists_bitTable direct declared known'
            exact (sameShape_or_collides_of_bitTable names'.self refs declared' named).imp_right .inl
        · obtain ⟨table, rfl⟩ := exists_bitTable refs declared' known
          exact flip ((sameShape_or_collides_of_bitTable names.self direct declared
            named.symm).imp_right .inl)

/-- Types of one name have one shape exactly when they do not collide. -/
theorem sameShape_iff_not_collides (first : a.Built) (second : b.Built) :
    (a.uniqueName = b.uniqueName → a.SameShape b) ↔ ¬ (a.Collides b ∨ b.Collides a) := by
  constructor
  · rintro shape (forth | back)
    · obtain ⟨named, differ⟩ := forth.spec second.wellFormed
      exact differ (shape named)
    · obtain ⟨named, differ⟩ := back.spec first.wellFormed
      exact differ (shape named.symm).symm
  · intro apart named
    exact (first.sameShape_or_collides second named).resolve_right apart

end Pairs

section Boundary

/-- Two structs of one name have one shape, whatever their members are. -/
theorem zeros_sameShape :
    (Value.zeros ["x"]).type.uniqueName = (Value.zeros ["x", "y"]).type.uniqueName ∧
      (Value.zeros ["x"]).type.SameShape (Value.zeros ["x", "y"]).type ∧
      ¬ ((Value.zeros ["x"]).type.Collides (Value.zeros ["x", "y"]).type ∨
        (Value.zeros ["x", "y"]).type.Collides (Value.zeros ["x"]).type) := by
  have apart : ¬ ((Value.zeros ["x"]).type.Collides (Value.zeros ["x", "y"]).type ∨
      (Value.zeros ["x", "y"]).type.Collides (Value.zeros ["x"]).type) := by
    rintro (forth | back)
    · cases forth
    · cases back
  have named : (Value.zeros ["x"]).type.uniqueName = (Value.zeros ["x", "y"]).type.uniqueName := rfl
  refine ⟨named, (sameShape_iff_not_collides ?_ ?_).mpr apart named, apart⟩
  · exact .ofValue (Value.zeros_built rfl)
  · exact .ofValue (Value.zeros_built rfl)

/-- A struct that is named like an integer type. -/
def structNamedInt : Value :=
  .struct ⟨"int32_t", [⟨"x", 0, .nullRef .null .w32, false⟩], 4, some 4, .empty, []⟩

/-- The struct and the integer type have one unique name and cannot be merged. -/
theorem structNamedInt_collides :
    (int .int32).Built ∧ structNamedInt.type.Built ∧
      (int .int32).uniqueName = structNamedInt.type.uniqueName ∧
      ¬ (int .int32).SameShape structNamedInt.type ∧
      (int .int32).merge structNamedInt.type =
        .error (.incompatible "int32_t" "int32_t" "different kinds of type") := by
  have laid : Draft.layOut "int32_t" [("x", .nullRef .null .w32)] = .ok structNamedInt := rfl
  have built : structNamedInt.Built := by
    refine Draft.layOut_built (fun member present => ?_) laid
    obtain rfl := List.mem_singleton.mp present
    exact .nullRef .w32 .null
  refine ⟨.int _, .ofValue built, by decide, fun same => ?_, rfl⟩
  cases same

end Boundary

end Ty

end BinaryLayout
