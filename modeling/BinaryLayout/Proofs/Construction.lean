import BinaryLayout.Proofs.WellFormed
import BinaryLayout.Record.Draft

/-!
# Everything that can be built

Types, values and drafts depend on each other: a null reference may declare any type,
a value has a type, and a struct is a frozen draft. `Built` is generated by the
operations that a caller has, each with exactly the checks that the operation makes.
`Sound` is what these checks establish together. One induction over the operations
leads from the first to the second; all later proofs about built values start from
`Sound`.
-/

namespace BinaryLayout

/-- An enumeration that passed its checks. -/
def Enumeration.Declared (enumeration : Enumeration) : Prop :=
  ∃ name underlying members, Ty.declareEnum name underlying members = .ok enumeration

/-- Bit fields to which fields were added one after another. -/
inductive BitField.Built : BitField → Prop
  | declare {name : String} {bits : UInt32} {field : BitField}
      (declared : BitField.declare name bits = .ok field) : Built field
  | add {field next : BitField} {name : String} {value : UInt64} {width : UInt32}
      (before : Built field) (added : field.add name value width = .ok next) : Built next
  | addSigned {field next : BitField} {name : String} {value : Int64} {width : UInt32}
      (before : Built field) (added : field.addSigned name value width = .ok next) : Built next
  | addMember {field next : BitField} {name : String} {member : EnumMember}
      (before : Built field) (declared : member.enumeration.Declared)
      (added : field.addMember name member = .ok next) : Built next

/-- Bit field arrays to which rows were appended one after another. -/
inductive BitTable.Built : BitTable → Prop
  | declare {name : String} {fields : List String} {table : BitTable}
      (declared : BitTable.declare name fields = .ok table) : Built table
  | push {table next : BitTable} {row : List TableItem}
      (before : Built table) (appended : table.push row = .ok next) : Built next

mutual

/-- Types that can be written down, read off a value, merged, or taken out of another. -/
inductive Ty.Built : Ty → Prop
  | int (kind : IntKind) : Ty.Built (.int kind)
  | char : Ty.Built .char
  | null : Ty.Built .null
  | ref {target : Ty} (width : RefWidth) (before : Ty.Built target) :
      Ty.Built (.ref target width)
  | arrayOf {element type : Ty} {fixed align : Option Nat} (before : Ty.Built element)
      (made : Ty.arrayOf element fixed align = .ok type) : Ty.Built type
  | refTableOf {target type : Ty} {fixed : Option Nat} {width : RefWidth}
      (before : Ty.Built target) (made : Ty.refTableOf target fixed width = .ok type) :
      Ty.Built type
  | bitField {name : String} {bits : UInt32} {type : BitFieldType}
      (declared : BitFieldType.declare name bits = .ok type) : Ty.Built (.bitField type)
  | bitTable {name : String} {fields : List String} {type : BitTableType}
      (declared : BitTableType.declare name fields = .ok type) : Ty.Built (.bitTable type)
  | enum {type : Enumeration} (declared : type.Declared) : Ty.Built (.enum type)
  | ofValue {value : Value} (before : Value.Built value) : Ty.Built value.type
  | merge {a b type : Ty} (first : Ty.Built a) (second : Ty.Built b)
      (merged : a.merge b = .ok type) : Ty.Built type
  | part {whole type : Ty} (before : Ty.Built whole) (inside : type ∈ whole.tree) :
      Ty.Built type

/-- Values that can be made from data, types, other values and drafts. -/
inductive Value.Built : Value → Prop
  | int (integer : Integer) : Value.Built (.int integer)
  | char (byte : UInt8) : Value.Built (.char byte)
  | null : Value.Built .null
  | refTo {target : Value} (width : RefWidth) (before : Value.Built target) :
      Value.Built (target.refTo width)
  | nullRef {target : Ty} (width : RefWidth) (before : Ty.Built target) :
      Value.Built (.nullRef target width)
  | arrayOf {element : Ty} {items : List Value} {fixed : Option Nat} {value : Value}
      (declared : Ty.Built element) (before : ∀ item ∈ items, Value.Built item)
      (made : Value.arrayOf element items fixed none = .ok value) : Value.Built value
  | realign {value next : Value} {align : Nat} (before : Value.Built value)
      (made : value.realign align = .ok next) : Value.Built next
  | stringOf {content : String} {fixed : Option Nat} {terminated : Bool} {value : Value}
      (made : Value.stringOf content fixed terminated = .ok value) : Value.Built value
  | blobOf {content : Blob} {fixed align : Option Nat} {value : Value}
      (made : Value.blobOf content fixed align = .ok value) : Value.Built value
  | refTableOf {items : List Value} {fixed : Option Nat} {width : RefWidth} {value : Value}
      (before : ∀ item ∈ items, Value.Built item)
      (made : Value.refTableOf items fixed width = .ok value) : Value.Built value
  | bitField {field : BitField} (before : field.Built) : Value.Built (.bitField field)
  | bitTable {table : BitTable} (before : table.Built) : Value.Built (.bitTable table)
  | enum {chosen : EnumMember} (declared : chosen.enumeration.Declared) :
      Value.Built (.enum chosen)
  | openRecord {draft : Draft} (before : Draft.Built draft) : Value.Built draft.openRecord
  | finalize {draft : Draft} {align : Nat} {value : Value} (before : Draft.Built draft)
      (made : draft.finalize align = .ok value) : Value.Built value

/-- Drafts to which members, constants and enumerations were added. -/
inductive Draft.Built : Draft → Prop
  | declare {name : String} {draft : Draft} (declared : Draft.declare name = .ok draft) :
      Draft.Built draft
  | addInPlace {draft next : Draft} {name : String} {value : Value}
      (before : Draft.Built draft) (content : Value.Built value)
      (added : draft.addInPlace name value = .ok next) : Draft.Built next
  | addConstant {draft next : Draft} {name : String} {datum : Datum}
      (before : Draft.Built draft) (added : draft.addConstant name datum = .ok next) :
      Draft.Built next
  | addConstants {draft next : Draft} {ignorePrivate : Bool} {items : List (String × Datum)}
      (before : Draft.Built draft) (added : draft.addConstants ignorePrivate items = .ok next) :
      Draft.Built next
  | declareEnum {draft : Draft} {enumeration : Enumeration} (before : Draft.Built draft)
      (declared : enumeration.Declared) : Draft.Built (draft.declareEnum enumeration)

end

/-- A number of elements for which an array has room. -/
def Fits (length : Nat) (fixed : Option Nat) : Prop :=
  ∀ capacity, fixed = some capacity → length ≤ capacity

/-- What the checks on a value and on all its parts establish. -/
inductive Value.Sound : Value → Prop
  | int (integer : Integer) : Sound (.int integer)
  | char (byte : UInt8) : Sound (.char byte)
  | null : Sound .null
  | ref {target : Value} (width : RefWidth) (sound : Sound target)
      (present : target.isNull = false) : Sound (.ref target width)
  | nullRef {target : Ty} (width : RefWidth) (sound : target.WellFormed) :
      Sound (.nullRef target width)
  | array {element : Ty} {fixed : Option Nat} {align : Nat} {items : List Value}
      (type : (Ty.array element fixed align).WellFormed) (fits : Fits items.length fixed)
      (sound : ∀ item ∈ items, Sound item) (direct : ∀ item ∈ items, item.isRef = false)
      (inPlace : ∀ item ∈ items, item.isInPlace = true) :
      Sound (.array element fixed align items)
  | text {content : TextArray} (fits : Fits content.bytes.length content.fixed)
      (aligned : 1 ≤ content.align) : Sound (.text content)
  | blob {fixed : Option Nat} {align : Nat} {content : Blob}
      (fits : Fits content.bytes.length fixed) (aligned : 1 ≤ align) :
      Sound (.blob fixed align content)
  | refTable {target : Ty} {fixed : Option Nat} {width : RefWidth} {items : List Value}
      (type : (Ty.refTable target fixed width).WellFormed) (fits : Fits items.length fixed)
      (sound : ∀ item ∈ items, Sound item) (direct : ∀ item ∈ items, item.isRef = false) :
      Sound (.refTable target fixed width items)
  | bitField {field : BitField} (room : field.type.word.used ≤ field.total.bits)
      (type : (Ty.bitField field.type).WellFormed) : Sound (.bitField field)
  | bitTable (table : BitTable) : Sound (.bitTable table)
  | enum {chosen : EnumMember}
      (inRange : chosen.enumeration.storage.contains chosen.value.toInt = true)
      (declarable : Identifier.Declarable chosen.enumeration.name) : Sound (.enum chosen)
  | struct {record : Record Value} (type : (Value.struct record).type.WellFormed)
      (sound : ∀ member ∈ record.members, Sound member.content) : Sound (.struct record)

/-- What the checks on a draft establish. -/
structure Draft.Sound (draft : Draft) : Prop where
  declarable : Identifier.Declarable draft.name
  sound : ∀ member ∈ draft.members, member.content.Sound
  laid : Consecutive 0 (Value.memberTypes draft.members) draft.cursor
  widest : draft.align = widestAlign (Value.memberTypes draft.members)
  enums : ∀ enumeration ∈ draft.enums, Identifier.Declarable enumeration.name

/-- Checked members have names that can be declared and literals in the range of their
    storage. -/
theorem Enumeration.checkAll_passed {storage : EnumStorage}
    {checked members result : List (String × Int64)}
    (accepted : checkAll storage checked members = .ok result)
    (before : ∀ member ∈ checked,
      Identifier.Declarable member.1 ∧ storage.contains member.2.toInt = true) :
    ∀ member ∈ result, Identifier.Declarable member.1 ∧ storage.contains member.2.toInt = true := by
  induction members generalizing checked with
  | nil =>
    obtain rfl : checked = result := by simpa [checkAll] using accepted
    exact before
  | cons member rest ih =>
    obtain ⟨name, value⟩ := member
    simp only [checkAll, bind_eq_ok] at accepted
    obtain ⟨_, valid, accepted⟩ := accepted
    split at accepted
    · simp [refuse] at accepted
    · split at accepted
      · simp at accepted
      · rename_i inRange
        refine ih accepted fun earlier present => ?_
        rcases List.mem_append.mp present with old | new
        · exact before earlier old
        · obtain rfl := List.mem_singleton.mp new
          exact ⟨valid, by simpa using inRange⟩

/-- Declared enumerations and their members have declarable names, and the literals are in
    range. -/
theorem Enumeration.Declared.sound {enumeration : Enumeration} (declared : enumeration.Declared) :
    Identifier.Declarable enumeration.name ∧ ∀ member ∈ enumeration.members,
      Identifier.Declarable member.1 ∧ enumeration.storage.contains member.2.toInt = true := by
  obtain ⟨name, underlying, members, accepted⟩ := declared
  simp only [Ty.declareEnum, bind_eq_ok] at accepted
  obtain ⟨_, valid, accepted⟩ := accepted
  cases known : underlying.storage? with
  | none => simp [known, refuse] at accepted
  | some storage =>
    simp only [known, Enumeration.declare, bind_eq_ok] at accepted
    obtain ⟨-, -, accepted⟩ := accepted
    split at accepted
    · simp [refuse] at accepted
    · simp only [bind_eq_ok, pure, Except.pure, Except.ok.injEq] at accepted
      obtain ⟨checked, all, rfl⟩ := accepted
      exact ⟨valid, checkAll_passed all (by simp)⟩

/-- A field that is pushed goes behind the others and leaves room in the word. -/
theorem BitField.push_eq_ok {field next : BitField} {name : String} {width : UInt32}
    {value : FieldValue} (pushed : field.push name width value = .ok next) :
    next = ⟨field.name, field.total, field.entries ++ [⟨name, width, value⟩]⟩ ∧
      next.type.word.used ≤ next.total.bits := by
  simp only [push, bind_eq_ok, pure, Except.pure, Except.ok.injEq] at pushed
  obtain ⟨admitted, room, rfl⟩ := pushed
  refine ⟨rfl, ?_⟩
  simp only [BitFieldType.push] at room
  split at room
  · simp [refuse] at room
  · simp only [bind_eq_ok, mapError_eq_ok] at room
    obtain ⟨_, _, _, extended, _⟩ := room
    simp only [WordFields.push] at extended
    split at extended
    · simp at extended
    · split at extended
      · simp at extended
      · rename_i enough
        simpa [type, BitFieldType.word, WordFields.used] using enough

/-- Adding a value that fits is pushing it. -/
theorem BitField.pushFitting_eq_ok {field next : BitField} {name : String} {width : UInt32}
    {value : FieldValue} (added : field.pushFitting name width value = .ok next) :
    field.push name width value = .ok next := by
  unfold pushFitting at added
  split at added
  · exact added
  · simp at added

/-- A value that is added fits its width. -/
theorem BitField.fits_of_pushFitting {field next : BitField} {name : String} {width : UInt32}
    {value : FieldValue} (added : field.pushFitting name width value = .ok next) :
    Bits.fits value.stored width.toNat = true := by
  unfold pushFitting at added
  split at added
  · assumption
  · simp at added

/-- Pushing a field whose enumeration is declarable, if it has one, keeps the type
    well-formed. -/
theorem BitField.push_wellFormed {field next : BitField} {name : String} {width : UInt32}
    {value : FieldValue} (before : (Ty.bitField field.type).WellFormed)
    (declarable : ∀ enumeration, value.kind = .enum enumeration →
      Identifier.Declarable enumeration.name)
    (pushed : field.push name width value = .ok next) : (Ty.bitField next.type).WellFormed := by
  obtain ⟨rfl, -⟩ := push_eq_ok pushed
  cases before with
  | bitField enums =>
    refine .bitField fun entry present => ?_
    simp only [type, List.map_append, List.map_cons, List.map_nil, List.mem_append,
      List.mem_singleton] at present
    rcases present with old | rfl
    · exact enums entry old
    · exact declarable

/-- The fields of a built bit field have room in its word, and their type is
    well-formed. -/
theorem BitField.Built.sound {field : BitField} (built : field.Built) :
    field.type.word.used ≤ field.total.bits ∧ (Ty.bitField field.type).WellFormed := by
  induction built with
  | declare declared =>
    simp only [BitField.declare, bind_eq_ok, pure, Except.pure, Except.ok.injEq] at declared
    obtain ⟨declaration, -, rfl⟩ := declared
    exact ⟨by simp [BitField.type, BitFieldType.word, WordFields.used],
      .bitField (by simp [BitField.type])⟩
  | add _ added ih =>
    have pushed := pushFitting_eq_ok added
    exact ⟨(push_eq_ok pushed).2,
      push_wellFormed ih.2 (by simp [FieldValue.kind]) pushed⟩
  | addSigned _ added ih =>
    have pushed := pushFitting_eq_ok added
    exact ⟨(push_eq_ok pushed).2,
      push_wellFormed ih.2 (by simp [FieldValue.kind]) pushed⟩
  | addMember _ declared added ih =>
    refine ⟨(push_eq_ok added).2, push_wellFormed ih.2 ?_ added⟩
    rintro enumeration ⟨rfl⟩
    exact declared.sound.1

/-- A row goes behind the others when it has a value for every field and each of them passes. -/
theorem BitTable.push_eq_ok {table next : BitTable} {row : List TableItem} :
    table.push row = .ok next ↔ row.length = table.type.fields.length ∧
      (∀ item ∈ row, item.check = .ok ()) ∧ next = ⟨table.type, table.rows ++ [row]⟩ := by
  by_cases complete : row.length = table.type.fields.length
  · rw [push, if_neg (not_ne_iff.mpr complete), List.forM_eq_forM, bind_eq_ok,
      and_iff_right complete]
    simp only [forM_eq_ok, pure, Except.pure, Except.ok.injEq, exists_const, @eq_comm _ next]
  · simp [push, complete, refuse]

namespace Value

theorem memberTypes_append (first second : List (Member Value)) :
    memberTypes (first ++ second) = memberTypes first ++ memberTypes second := by
  simp [memberTypes_eq_map]

/-- The members of a type hold the types of the values' members. -/
theorem mem_memberTypes {members : List (Member Value)} {member : Member Ty}
    (present : member ∈ memberTypes members) :
    ∃ source ∈ members, member = ⟨source.name, source.offset, source.content.type,
      source.isPadding⟩ := by
  rw [memberTypes_eq_map] at present
  obtain ⟨source, inside, rfl⟩ := List.mem_map.mp present
  exact ⟨source, inside, rfl⟩

@[simp] theorem isNull_type (value : Value) : value.type.isNull = value.isNull := by
  cases value <;> simp [type, isNull, Ty.isNull]

@[simp] theorem isRef_type (value : Value) : value.type.isRef = value.isRef := by
  cases value <;> simp [type, isRef, Ty.isRef]

/-- Sound values have well-formed types. -/
theorem Sound.type {value : Value} (sound : value.Sound) : value.type.WellFormed := by
  induction sound with
  | int integer => exact .int _
  | char byte => exact .char
  | null => exact .null
  | ref width _ _ ih => exact .ref width ih
  | nullRef width sound => exact .ref width sound
  | array type => exact type
  | text fits aligned => exact .array _ .char rfl rfl aligned
  | blob fits aligned => exact .array _ .char rfl rfl aligned
  | refTable type => exact type
  | bitField room type => exact type
  | bitTable table => exact .bitTable _
  | enum inRange declarable => exact .enum declarable
  | struct type => exact type

/-- A checked number of elements has room. -/
theorem fits_of_checkCapacity {length : Nat} {fixed : Option Nat} {done : Unit}
    (checked : checkCapacity length fixed = .ok done) : Fits length fixed := by
  rintro capacity rfl
  simp only [checkCapacity] at checked
  split at checked
  · simp [refuse] at checked
  · omega

theorem checkCapacity_of_fits {length : Nat} {fixed : Option Nat} (fits : Fits length fixed) :
    checkCapacity length fixed = .ok () := by
  cases fixed with
  | none => rfl
  | some capacity => exact if_neg (by simpa using fits capacity rfl)

end Value

/-- An accepted alignment belongs to a direct, sized element and is not below its own. -/
theorem Ty.arrayAlign_eq_ok {element : Ty} {align : Option Nat} {place : Nat}
    (accepted : arrayAlign element align = .ok place) :
    element.isRef = false ∧ element.width?.isSome ∧ element.align ≤ place := by
  simp only [arrayAlign] at accepted
  split at accepted
  · simp [refuse] at accepted
  · rename_i direct
    obtain ⟨size, known, accepted⟩ := bind_eq_ok.mp accepted
    have sized : element.width?.isSome := by
      rw [width?_eq_some.mpr known]
      rfl
    refine ⟨by simpa using direct, sized, ?_⟩
    cases align with
    | none => simp_all [pure, Except.pure]
    | some requested =>
      simp only [pure, Except.pure] at accepted
      split at accepted
      · simp_all
      · simp [refuse] at accepted

namespace Value

/-- An array in place holds its items under an element type that they have in common. -/
theorem arrayOf_eq_ok {element : Ty} {items : List Value} {fixed align : Option Nat}
    {value : Value} (made : arrayOf element items fixed align = .ok value) :
    ∃ common place, Fits items.length fixed ∧ commonElement element items = .ok common ∧
      Ty.arrayAlign common align = .ok place ∧ value = array common fixed place items := by
  simp only [arrayOf, bind_eq_ok, pure, Except.pure, Except.ok.injEq] at made
  obtain ⟨_, checked, common, folded, place, accepted, rfl⟩ := made
  exact ⟨common, place, fits_of_checkCapacity checked, folded, accepted, rfl⟩

/-- A blob is stored with room for it and at some alignment. -/
theorem blobOf_eq_ok {content : Blob} {fixed align : Option Nat} {value : Value}
    (made : blobOf content fixed align = .ok value) :
    ∃ place, Fits content.bytes.length fixed ∧ 1 ≤ place ∧ value = blob fixed place content := by
  simp only [blobOf, bind_eq_ok, pure, Except.pure, Except.ok.injEq] at made
  obtain ⟨_, checked, place, accepted, rfl⟩ := made
  exact ⟨place, fits_of_checkCapacity checked, (Ty.arrayAlign_eq_ok accepted).2.2, rfl⟩

/-- A reference table holds its items under a target type that they have in common. -/
theorem refTableOf_eq_ok {items : List Value} {fixed : Option Nat} {width : RefWidth}
    {value : Value} (made : refTableOf items fixed width = .ok value) :
    ∃ first target, first ∈ items ∧ Fits items.length fixed ∧
      commonTarget first.type items = .ok target ∧ target.isRef = false ∧
      value = refTable target fixed width items := by
  cases items with
  | nil => simp [refTableOf, refuse] at made
  | cons first rest =>
    simp only [refTableOf, bind_eq_ok, pure, Except.pure, Except.ok.injEq] at made
    obtain ⟨_, checked, target, folded, _, accepted, rfl⟩ := made
    have direct : target.isRef = false := by
      rw [Ty.refTableOf] at accepted
      split at accepted
      · contradiction
      · simp_all
    exact ⟨first, target, List.mem_cons_self, fits_of_checkCapacity checked, folded, direct, rfl⟩

/-- Another alignment is given to arrays only and changes nothing else in them. -/
theorem realign_eq_ok {value next : Value} {align : Nat} (made : value.realign align = .ok next) :
    next = value ∨
    (∃ element fixed before items place, value = array element fixed before items ∧
      Ty.arrayAlign element (some align) = .ok place ∧
      next = array element fixed place items) ∨
    (∃ content place, value = text content ∧ 1 ≤ place ∧
      next = text { content with align := place }) ∨
    ∃ fixed before content place, value = blob fixed before content ∧ 1 ≤ place ∧
      next = blob fixed place content := by
  cases value with
  | array element fixed before items =>
    simp only [realign, bind_eq_ok, pure, Except.pure, Except.ok.injEq] at made
    obtain ⟨place, accepted, rfl⟩ := made
    exact .inr (.inl ⟨element, fixed, before, items, place, rfl, accepted, rfl⟩)
  | text content =>
    simp only [realign, bind_eq_ok, pure, Except.pure, Except.ok.injEq] at made
    obtain ⟨place, accepted, rfl⟩ := made
    exact .inr (.inr (.inl ⟨content, place, rfl, (Ty.arrayAlign_eq_ok accepted).2.2, rfl⟩))
  | blob fixed before content =>
    simp only [realign, bind_eq_ok, pure, Except.pure, Except.ok.injEq] at made
    obtain ⟨place, accepted, rfl⟩ := made
    exact .inr (.inr (.inr
      ⟨fixed, before, content, place, rfl, (Ty.arrayAlign_eq_ok accepted).2.2, rfl⟩))
  | _ =>
    simp only [realign, pure, Except.pure, Except.ok.injEq] at made
    exact .inl made.symm

/-- An array in place of sound items over a well-formed element type is sound. -/
theorem arrayOf_sound {element : Ty} {items : List Value} {fixed : Option Nat} {value : Value}
    (declared : element.WellFormed) (sound : ∀ item ∈ items, item.Sound)
    (made : arrayOf element items fixed none = .ok value) : value.Sound := by
  obtain ⟨common, align, fits, folded, accepted, rfl⟩ := arrayOf_eq_ok made
  obtain ⟨direct, sized, wide⟩ := Ty.arrayAlign_eq_ok accepted
  obtain ⟨⟨merged, kind, place⟩, itemsAlike⟩ :=
    foldlM_each
      (fun state : Ty => state.WellFormed ∧ state.isRef = element.isRef ∧
        state.isInPlace = element.isInPlace)
      (fun item : Value => item.isRef = element.isRef ∧ item.isInPlace = element.isInPlace)
      folded ⟨declared, rfl, rfl⟩
      fun state item next present ⟨before, stateKind, statePlace⟩ step => by
        obtain ⟨itemKind, nextKind⟩ := Ty.merge_isRef step
        have itemPlace : item.isInPlace = state.isInPlace := Ty.merge_isInPlace step
        exact ⟨⟨before.merge (sound item present).type step, nextKind.trans stateKind,
          (Ty.merge_storedAlike step).inPlace.trans statePlace⟩,
          (isRef_type item).symm.trans (itemKind.trans stateKind), itemPlace.trans statePlace⟩
  have stored : element.isInPlace = true := place.symm.trans (Ty.isInPlace_of_width sized)
  rw [kind] at direct
  exact .array (.array fixed merged (kind.trans direct) sized wide) fits sound
    (fun item present => (itemsAlike item present).1.trans direct)
    fun item present => (itemsAlike item present).2.trans stored

/-- Another alignment that is accepted keeps an array sound. -/
theorem realign_sound {value next : Value} {align : Nat} (sound : value.Sound)
    (made : value.realign align = .ok next) : next.Sound := by
  rcases realign_eq_ok made with rfl | ⟨element, fixed, before, items, place, rfl, accepted, rfl⟩ |
    ⟨content, place, rfl, positive, rfl⟩ | ⟨fixed, before, content, place, rfl, positive, rfl⟩
  · exact sound
  · obtain ⟨direct, sized, wide⟩ := Ty.arrayAlign_eq_ok accepted
    cases sound with
    | array type fits items itemsDirect inPlace =>
    cases type with
    | array _ element _ _ _ =>
    exact .array (.array fixed element direct sized wide) fits items itemsDirect inPlace
  · cases sound with
    | text fits _ => exact .text fits positive
  · cases sound with
    | blob fits _ => exact .blob fits positive

/-- A text that fits is sound. -/
theorem stringOf_sound {content : String} {fixed : Option Nat} {terminated : Bool}
    {value : Value} (made : stringOf content fixed terminated = .ok value) : value.Sound := by
  simp only [stringOf, map_eq_ok, TextArray.build, bind_eq_ok, pure, Except.pure,
    Except.ok.injEq] at made
  obtain ⟨array, ⟨_, checked, rfl⟩, rfl⟩ := made
  exact .text (fits_of_checkCapacity checked) (Nat.le_refl 1)

/-- A blob that fits is sound. -/
theorem blobOf_sound {content : Blob} {fixed align : Option Nat} {value : Value}
    (made : blobOf content fixed align = .ok value) : value.Sound := by
  obtain ⟨place, fits, positive, rfl⟩ := blobOf_eq_ok made
  exact .blob fits positive

/-- A reference table of sound items is sound. -/
theorem refTableOf_sound {items : List Value} {fixed : Option Nat} {width : RefWidth}
    {value : Value} (sound : ∀ item ∈ items, item.Sound)
    (made : refTableOf items fixed width = .ok value) : value.Sound := by
  obtain ⟨first, target, present, fits, folded, direct, rfl⟩ := refTableOf_eq_ok made
  obtain ⟨merged, itemsDirect⟩ :=
    foldlM_each Ty.WellFormed (fun item : Value => item.isRef = false) folded
      (sound first present).type fun state item next present before step => by
        split at step
        · simp [refuse] at step
        · rename_i itemDirect
          exact ⟨(sound item present).type.mergeKnown before step, by simpa using itemDirect⟩
  exact .refTable (.refTable fixed width merged direct) fits sound itemsDirect

/-- A reference to a sound value is sound. -/
theorem refTo_sound {target : Value} (width : RefWidth) (sound : target.Sound) :
    (target.refTo width).Sound := by
  simp only [refTo]
  split
  · exact .nullRef width .null
  · exact .ref width sound (by simp_all)

end Value

namespace Draft

/-- Padding bytes are zero bytes in a row. -/
theorem paddingRun_laid (taken : List String) (count offset start : Nat) :
    (∀ member ∈ (paddingRun taken count offset start).1, member.content = zeroByte) ∧
      Consecutive offset (Value.memberTypes (paddingRun taken count offset start).1)
        (some (offset + count)) ∧
      widestAlign (Value.memberTypes (paddingRun taken count offset start).1) = 1 := by
  induction count generalizing offset start with
  | zero => simp [paddingRun, Value.memberTypes, Consecutive, widestAlign]
  | succ count ih =>
    obtain ⟨zeros, laid, widest⟩ :=
      ih (offset + 1) (freeNumber taken taken.length start + 1)
    refine ⟨?_, ⟨rfl, ?_⟩, ?_⟩
    · simpa [paddingRun] using zeros
    · show Consecutive (offset + 1) _ _
      rwa [Nat.add_right_comm] at laid
    · have byte : zeroByte.type.align = 1 := rfl
      simp only [widestAlign, paddingRun, Value.memberTypes, List.map_cons,
        List.foldr_cons] at widest ⊢
      omega

/-- Padding a draft keeps its members sound and in a row, up to the next multiple of the
    alignment. -/
theorem Sound.padTo {draft : Draft} {position : Nat} (sound : draft.Sound)
    (open_ : draft.cursor = some position) (align : Nat) :
    (∀ member ∈ (draft.padTo position align).members, member.content.Sound) ∧
      Consecutive 0 (Value.memberTypes (draft.padTo position align).members)
        (some (position + gap position align)) ∧
      draft.align = widestAlign (Value.memberTypes (draft.padTo position align).members) := by
  obtain ⟨zeros, laid, widest⟩ := paddingRun_laid (draft.members.map (·.name))
    (gap position align) position draft.nextPadding
  have before := sound.laid
  rw [open_] at before
  refine ⟨fun member present => ?_, ?_, ?_⟩
  · rcases List.mem_append.mp present with old | new
    · exact sound.sound member old
    · exact zeros member new ▸ .int _
  · exact Value.memberTypes_append .. ▸ before.append laid
  · have positive : 1 ≤ widestAlign (Value.memberTypes draft.members) := one_le_widestAlign _
    rw [Draft.padTo, Value.memberTypes_append, widestAlign_append, widest, sound.widest]
    omega

/-- A value is placed behind the padding that its alignment asks for, at a position, and so
    is its end, if its type has a width. -/
theorem place_eq_ok {draft next : Draft} {name : String} {value : Value}
    (placed : draft.place name value = .ok next) :
    ∃ cursor finish, draft.cursor = some cursor ∧
      value.type.finish (cursor + gap cursor value.type.align) = .ok finish ∧
      next = { draft.padTo cursor value.type.align with
        members := (draft.padTo cursor value.type.align).members ++
          [⟨name, cursor + gap cursor value.type.align, value, false⟩]
        align := max draft.align value.type.align
        cursor := finish } := by
  simp only [place] at placed
  split at placed
  · simp [refuse] at placed
  · obtain ⟨_, -, placed⟩ := bind_eq_ok.mp placed
    split at placed
    · simp [refuse] at placed
    · rename_i cursor known
      obtain ⟨offset, inside, placed⟩ := bind_eq_ok.mp placed
      obtain ⟨-, rfl⟩ := checked_eq_ok.mp inside
      obtain ⟨finish, ends, placed⟩ := bind_eq_ok.mp placed
      exact ⟨cursor, finish, known, ends, (Except.ok.inj placed).symm⟩

/-- A value that is added in place is placed. -/
theorem place_of_addInPlace {draft next : Draft} {name : String} {value : Value}
    (added : draft.addInPlace name value = .ok next) : draft.place name value = .ok next := by
  rw [addInPlace] at added
  split at added
  · contradiction
  · exact added

/-- Finalizing a draft pads it to the alignment and fixes its size. -/
theorem finalize_eq_ok {draft : Draft} {align : Nat} {value : Value}
    (made : draft.finalize align = .ok value) :
    ∃ cursor, draft.cursor = some cursor ∧ 0 < align ∧
      cursor + gap cursor align < addressSpace ∧
      value = (draft.padTo cursor align).freeze (some (cursor + gap cursor align)) := by
  rw [finalize] at made
  split at made
  · contradiction
  · rename_i positive
    split at made
    · contradiction
    · contradiction
    · rename_i cursor _ known
      obtain ⟨size, inside, made⟩ := bind_eq_ok.mp made
      obtain ⟨held, rfl⟩ := checked_eq_ok.mp inside
      exact ⟨cursor, known, Nat.pos_of_ne_zero positive, held, (Except.ok.inj made).symm⟩

/-- A constant changes nothing else in a draft. -/
theorem addConstant_eq_ok {draft next : Draft} {name : String} {datum : Datum}
    (added : draft.addConstant name datum = .ok next) :
    ∃ constants, next = { draft with constants } := by
  obtain ⟨constants, -, added⟩ := bind_eq_ok.mp added
  exact ⟨constants, (Except.ok.inj added).symm⟩

/-- Constants that are added together change nothing else in a draft. -/
theorem addConstants_eq_ok {draft next : Draft} {ignorePrivate : Bool}
    {items : List (String × Datum)} (added : draft.addConstants ignorePrivate items = .ok next) :
    ∃ constants, next = { draft with constants } := by
  rw [addConstants] at added
  split at added
  · exact ⟨_, (Except.ok.inj added).symm⟩
  · contradiction

/-- The members of a padded draft are its members and zero bytes. -/
theorem mem_padTo {draft : Draft} {position align : Nat} {member : Member Value}
    (present : member ∈ (draft.padTo position align).members) :
    member ∈ draft.members ∨ member.content = zeroByte := by
  refine (List.mem_append.mp present).imp_right fun added => ?_
  exact (paddingRun_laid _ _ position _).1 member added

/-- Adding a sound value in place keeps a draft sound. -/
theorem Sound.addInPlace {draft next : Draft} {name : String} {value : Value}
    (sound : draft.Sound) (content : value.Sound)
    (added : draft.addInPlace name value = .ok next) : next.Sound := by
  obtain ⟨cursor, finish, known, ends, rfl⟩ := place_eq_ok (place_of_addInPlace added)
  obtain ⟨-, -, rfl⟩ := Ty.finish_eq_ok.mp ends
  obtain ⟨members, laid, widest⟩ := sound.padTo known value.type.align
  refine ⟨sound.declarable, fun member present => ?_, ?_, ?_, sound.enums⟩
  · rcases List.mem_append.mp present with old | new
    · exact members member old
    · exact List.mem_singleton.mp new ▸ content
  · rw [Value.memberTypes_append]
    refine laid.append ⟨rfl, ?_⟩
    cases width : value.type.width? <;> simp [Value.memberTypes, Consecutive]
  · rw [Value.memberTypes_append, widestAlign_append, ← widest]
    simp only [widestAlign, Value.memberTypes, List.map_cons, List.map_nil, List.foldr_cons,
      List.foldr_nil]
    have positive : 1 ≤ draft.align := sound.widest ▸ one_le_widestAlign _
    omega

/-- A sound draft freezes into a sound struct when its size, if it gets one, is the end
    of its members. -/
theorem freeze_sound {draft : Draft} {size finish : Option Nat}
    (declarable : Identifier.Declarable draft.name)
    (members : ∀ member ∈ draft.members, member.content.Sound)
    (laid : Consecutive 0 (Value.memberTypes draft.members) finish)
    (widest : draft.align = widestAlign (Value.memberTypes draft.members))
    (enums : ∀ enumeration ∈ draft.enums, Identifier.Declarable enumeration.name)
    (sized : size.isSome → size = finish)
    (held : ∀ width, size = some width → width < addressSpace) : (draft.freeze size).Sound := by
  refine .struct (.struct declarable ?_ widest ⟨finish, laid, sized⟩ enums held) members
  intro member present
  obtain ⟨source, inside, rfl⟩ := Value.mem_memberTypes present
  exact (members source inside).type

/-- A draft that is left open is a sound value. -/
theorem Sound.openRecord {draft : Draft} (sound : draft.Sound) : draft.openRecord.Sound :=
  freeze_sound sound.declarable sound.sound sound.laid sound.widest sound.enums (by simp)
    (by simp)

/-- A finalized draft is a sound value. -/
theorem Sound.finalize {draft : Draft} {align : Nat} {value : Value} (sound : draft.Sound)
    (made : draft.finalize align = .ok value) : value.Sound := by
  obtain ⟨cursor, known, -, held, rfl⟩ := finalize_eq_ok made
  obtain ⟨members, laid, widest⟩ := sound.padTo known align
  refine freeze_sound sound.declarable members laid widest sound.enums (fun _ => rfl) ?_
  rintro width ⟨rfl⟩
  exact held

end Draft

/-- A declared empty draft is sound. -/
theorem Draft.declare_sound {name : String} {draft : Draft}
    (declared : Draft.declare name = .ok draft) : draft.Sound := by
  simp only [declare, bind_eq_ok, pure, Except.pure, Except.ok.injEq] at declared
  obtain ⟨_, valid, rfl⟩ := declared
  exact ⟨valid, by simp, rfl, rfl, by simp⟩

/-- Constants leave the rest of a draft alone. -/
theorem Draft.Sound.withConstants {draft : Draft} (sound : draft.Sound) (constants : Constants) :
    Draft.Sound { draft with constants } :=
  ⟨sound.declarable, sound.sound, sound.laid, sound.widest, sound.enums⟩

/-- A declared enumeration keeps a draft sound. -/
theorem Draft.Sound.declareEnum {draft : Draft} {enumeration : Enumeration}
    (sound : draft.Sound) (declared : enumeration.Declared) :
    (draft.declareEnum enumeration).Sound := by
  refine ⟨sound.declarable, sound.sound, sound.laid, sound.widest, fun tested present => ?_⟩
  rcases List.mem_append.mp present with old | new
  · exact sound.enums tested old
  · exact List.mem_singleton.mp new ▸ declared.sound.1

/-- Constants that are added one by one leave a draft sound. -/
theorem Draft.Sound.addConstant {draft next : Draft} {name : String} {datum : Datum}
    (sound : draft.Sound) (added : draft.addConstant name datum = .ok next) : next.Sound := by
  obtain ⟨constants, rfl⟩ := addConstant_eq_ok added
  exact sound.withConstants constants

/-- Constants that are added together leave a draft sound. -/
theorem Draft.Sound.addConstants {draft next : Draft} {ignorePrivate : Bool}
    {items : List (String × Datum)} (sound : draft.Sound)
    (added : draft.addConstants ignorePrivate items = .ok next) : next.Sound := by
  obtain ⟨constants, rfl⟩ := addConstants_eq_ok added
  exact sound.withConstants constants

/-- An array type over a well-formed element is well-formed. -/
theorem Ty.arrayOf_wellFormed {element type : Ty} {fixed align : Option Nat}
    (sound : element.WellFormed) (made : Ty.arrayOf element fixed align = .ok type) :
    type.WellFormed := by
  simp only [Ty.arrayOf, bind_eq_ok, pure, Except.pure, Except.ok.injEq] at made
  obtain ⟨align, accepted, rfl⟩ := made
  obtain ⟨direct, sized, wide⟩ := Ty.arrayAlign_eq_ok accepted
  exact .array _ sound direct sized wide

/-- A table type over a well-formed target is well-formed. -/
theorem Ty.refTableOf_wellFormed {target type : Ty} {fixed : Option Nat} {width : RefWidth}
    (sound : target.WellFormed) (made : Ty.refTableOf target fixed width = .ok type) :
    type.WellFormed := by
  simp only [Ty.refTableOf] at made
  split at made
  · simp [refuse] at made
  · obtain rfl := Except.ok.inj made
    exact .refTable _ _ sound (by simp_all)

/-- A bit field without fields is well-formed. -/
theorem BitFieldType.declare_wellFormed {name : String} {bits : UInt32} {type : BitFieldType}
    (declared : BitFieldType.declare name bits = .ok type) : (Ty.bitField type).WellFormed := by
  simp only [BitFieldType.declare, bind_eq_ok, pure, Except.pure, Except.ok.injEq] at declared
  obtain ⟨_, -, word, -, rfl⟩ := declared
  exact .bitField (by simp)

mutual

/-- Built types are well-formed. -/
theorem Ty.Built.wellFormed {type : Ty} : type.Built → type.WellFormed
  | .int kind => .int kind
  | .char => .char
  | .null => .null
  | .ref width before => .ref width before.wellFormed
  | .arrayOf before made => Ty.arrayOf_wellFormed before.wellFormed made
  | .refTableOf before made => Ty.refTableOf_wellFormed before.wellFormed made
  | .bitField declared => BitFieldType.declare_wellFormed declared
  | .bitTable _ => .bitTable _
  | .enum declared => .enum declared.sound.1
  | .ofValue before => before.sound.type
  | .merge first second merged => first.wellFormed.merge second.wellFormed merged
  | .part before inside => before.wellFormed.tree inside

/-- Built values are sound. -/
theorem Value.Built.sound {value : Value} : value.Built → value.Sound
  | .int integer => .int integer
  | .char byte => .char byte
  | .null => .null
  | .refTo width before => Value.refTo_sound width before.sound
  | .nullRef width before => .nullRef width before.wellFormed
  | .arrayOf declared before made =>
      Value.arrayOf_sound declared.wellFormed (fun item present => (before item present).sound) made
  | .realign before made => Value.realign_sound before.sound made
  | .stringOf made => Value.stringOf_sound made
  | .blobOf made => Value.blobOf_sound made
  | .refTableOf before made =>
      Value.refTableOf_sound (fun item present => (before item present).sound) made
  | .bitField before => .bitField before.sound.1 before.sound.2
  | .bitTable _ => .bitTable _
  | @Value.Built.enum chosen declared =>
      have inRange : chosen.enumeration.storage.contains chosen.value.toInt = true :=
        (declared.sound.2 (chosen.name, chosen.value) chosen.declared).2
      .enum inRange declared.sound.1
  | .openRecord before => before.sound.openRecord
  | .finalize before made => before.sound.finalize made

/-- Built drafts are sound. -/
theorem Draft.Built.sound {draft : Draft} : draft.Built → draft.Sound
  | .declare declared => Draft.declare_sound declared
  | .addInPlace before content added => before.sound.addInPlace content.sound added
  | .addConstant before added => before.sound.addConstant added
  | .addConstants before added => before.sound.addConstants added
  | .declareEnum before declared => before.sound.declareEnum declared

end

namespace Value

/-- What a value was checked for before it was made. -/
def Certified : Value → Prop
  | bitField field => field.Built
  | bitTable table => table.Built
  | enum chosen => chosen.enumeration.Declared
  | _ => True

/-- The leaves of built values were checked. -/
theorem Built.certified {value : Value} (built : value.Built) : value.Certified := by
  apply @Value.Built.rec (fun _ _ => True) (fun value _ => value.Certified) (fun _ _ => True)
    (t := built)
  -- Types, drafts, and values whose form is known, the checked ones among them.
  all_goals try (intros; trivial)
  case refTo =>
    intro target width _ _
    rw [Value.refTo]
    split
    · trivial
    · trivial
  case arrayOf =>
    intro element items fixed value _ _ made _ _
    obtain ⟨common, place, -, -, -, rfl⟩ := arrayOf_eq_ok made
    trivial
  case realign =>
    intro value next align _ made before
    rcases realign_eq_ok made with rfl | ⟨element, fixed, place, items, next, -, -, rfl⟩ |
      ⟨content, place, -, -, rfl⟩ | ⟨fixed, place, content, next, -, -, rfl⟩
    · exact before
    · trivial
    · trivial
    · trivial
  case stringOf =>
    intro content fixed terminated value made
    obtain ⟨array, -, rfl⟩ := map_eq_ok.mp made
    trivial
  case blobOf =>
    intro content fixed align value made
    obtain ⟨place, -, -, rfl⟩ := blobOf_eq_ok made
    trivial
  case refTableOf =>
    intro items fixed width value _ made _
    obtain ⟨first, target, -, -, -, -, rfl⟩ := refTableOf_eq_ok made
    trivial
  case finalize =>
    intro draft align value _ made _
    obtain ⟨cursor, -, -, -, rfl⟩ := Draft.finalize_eq_ok made
    trivial

end Value

/-- Merging built types of which either may be unknown gives a built type. -/
theorem Ty.Built.mergeKnown {a b c : Ty} (first : a.Built) (second : b.Built)
    (merged : a.mergeKnown b = .ok c) : c.Built := by
  rcases known_eq_ok.mp merged with ⟨-, rfl⟩ | ⟨-, -, rfl⟩ | ⟨-, -, inner⟩
  · exact second
  · exact first
  · exact .merge first second inner

/-- Arrays of built values are built, whichever form they take. -/
theorem Value.Built.sequence {items : List Value} {fixed : Option Nat} {value : Value}
    (before : ∀ item ∈ items, item.Built) (made : Value.sequence items fixed = .ok value) :
    value.Built := by
  cases items with
  | nil => simp [Value.sequence, refuse] at made
  | cons first rest =>
    simp only [Value.sequence, bind_eq_ok] at made
    obtain ⟨element, folded, made⟩ := made
    have built : element.Built := by
      refine foldlM_invariant Ty.Built folded (.ofValue (before first (by simp)))
        fun state item next present earlier step => ?_
      exact earlier.mergeKnown (.ofValue (before item (by simp [present]))) step
    split at made
    · simp [refuse] at made
    · split at made
      · exact .arrayOf built before made
      · exact .refTableOf before made

/-- Declare a struct, add values in place one after another, and finalize it. -/
def Draft.layOut (name : String) (members : List (String × Value)) : Except LayoutError Value := do
  let draft ← members.foldlM (fun draft member => draft.addInPlace member.1 member.2)
    (← Draft.declare name)
  draft.finalize defaultAlign

/-- Structs that are laid out from built values are built. -/
theorem Draft.layOut_built {name : String} {members : List (String × Value)} {value : Value}
    (before : ∀ member ∈ members, member.2.Built) (made : layOut name members = .ok value) :
    value.Built := by
  simp only [layOut, bind_eq_ok] at made
  obtain ⟨start, declared, draft, filled, made⟩ := made
  have built : draft.Built := foldlM_invariant Draft.Built filled (.declare declared)
    fun state member next present earlier step => .addInPlace earlier (before member present) step
  exact .finalize built made

/-- A finalized struct of 32-bit integers that are all zero. -/
def Value.zeros (names : List String) : Value :=
  .struct ⟨"S", names.zipIdx.map fun (name, index) =>
      ⟨name, 4 * index, .int ⟨.int32, 0, by decide⟩, false⟩,
    4, some (4 * names.length), .empty, []⟩

/-- Such a struct is built when it can be laid out. -/
theorem Value.zeros_built {names : List String}
    (laid : Draft.layOut "S" (names.map fun name => (name, .int ⟨.int32, 0, by decide⟩)) =
      .ok (zeros names)) : (zeros names).Built := by
  refine Draft.layOut_built (fun member present => ?_) laid
  obtain ⟨name, -, rfl⟩ := List.mem_map.mp present
  exact .int _

end BinaryLayout
