import BinaryLayout.Ty.Basic

/-!
# Values

A value carries the data from which its bytes are made, and its type follows from it.
A reference without a target is stored as zero and may still declare what it would
point to. The items of an array in place share one element type; the items of a
reference table are its targets, a null item standing for a null reference.
-/

namespace BinaryLayout

/-- A value of some type. -/
inductive Value where
  | int (integer : Integer)
  | char (byte : UInt8)
  | null
  | ref (target : Value) (width : RefWidth)
  | nullRef (target : Ty) (width : RefWidth)
  | array (element : Ty) (fixed : Option Nat) (align : Nat) (items : List Value)
  | text (content : TextArray)
  | blob (fixed : Option Nat) (align : Nat) (content : Blob)
  | refTable (target : Ty) (fixed : Option Nat) (width : RefWidth) (items : List Value)
  | bitField (field : BitField)
  | bitTable (table : BitTable)
  | enum (chosen : EnumMember)
  | struct (record : Record Value)

namespace Value

/-- Induction over values in which all items and all members have the property. -/
@[elab_as_elim]
theorem induction {motive : Value → Prop}
    (int : ∀ integer, motive (.int integer)) (char : ∀ byte, motive (.char byte))
    (null : motive .null)
    (ref : ∀ target width, motive target → motive (.ref target width))
    (nullRef : ∀ target width, motive (.nullRef target width))
    (array : ∀ element fixed align items,
      (∀ item ∈ items, motive item) → motive (.array element fixed align items))
    (text : ∀ content, motive (.text content))
    (blob : ∀ fixed align content, motive (.blob fixed align content))
    (refTable : ∀ target fixed width items,
      (∀ item ∈ items, motive item) → motive (.refTable target fixed width items))
    (bitField : ∀ field, motive (.bitField field)) (bitTable : ∀ table, motive (.bitTable table))
    (enum : ∀ chosen, motive (.enum chosen))
    (struct : ∀ record : Record Value,
      (∀ member ∈ record.members, motive member.content) → motive (.struct record))
    (value : Value) : motive value :=
  @Value.rec motive
    (fun items => ∀ item ∈ items, motive item)
    (fun record => ∀ member ∈ record.members, motive member.content)
    (fun members => ∀ member ∈ members, motive member.content)
    (fun member => motive member.content)
    int char null ref nullRef array text blob refTable bitField bitTable enum struct
    (fun _ absent => nomatch absent)
    (fun _ _ first rest item present => by
      rcases List.mem_cons.1 present with rfl | later
      · exact first
      · exact rest item later)
    (fun _ _ _ _ _ _ members => members)
    (fun _ absent => nomatch absent)
    (fun _ _ first rest member present => by
      rcases List.mem_cons.1 present with rfl | later
      · exact first
      · exact rest member later)
    (fun _ _ _ _ content => content)
    value

mutual

/-- The type of a value. -/
def type : Value → Ty
  | int integer => .int integer.kind
  | char _ => .char
  | null => .null
  | ref target width => .ref target.type width
  | nullRef target width => .ref target width
  | array element fixed align _ => .array element fixed align
  | text content => .array .char content.fixed content.align
  | blob fixed align _ => .array .char fixed align
  | refTable target fixed width _ => .refTable target fixed width
  | bitField field => .bitField field.type
  | bitTable table => .bitTable table.type
  | enum chosen => .enum chosen.enumeration
  | struct ⟨name, members, align, size, constants, enums⟩ =>
      .struct ⟨name, memberTypes members, align, size, constants, enums⟩

/-- Members with their types in place of their values. -/
def memberTypes : List (Member Value) → List (Member Ty)
  | [] => []
  | ⟨name, offset, value, isPadding⟩ :: rest =>
      ⟨name, offset, value.type, isPadding⟩ :: memberTypes rest

end

/-- The members of a type are those of the value, one by one. -/
theorem memberTypes_eq_map (members : List (Member Value)) :
    memberTypes members = members.map fun member =>
      ⟨member.name, member.offset, member.content.type, member.isPadding⟩ := by
  induction members with
  | nil => rfl
  | cons member rest ih => cases member; simp [memberTypes, ih]

mutual

/-- Bytes a value takes where it is stored. -/
def size : Value → Except LayoutError Nat
  | int integer => .ok integer.kind.bytes
  | char _ => .ok 1
  | null => .ok 0
  | ref _ width => .ok width.bytes
  | nullRef _ width => .ok width.bytes
  | array element fixed _ items => do
      checked .overflow ((← element.width) * fixed.getD items.length)
  | text content => checked .overflow (content.fixed.getD content.bytes.length)
  | blob fixed _ content => checked .overflow (fixed.getD content.bytes.length)
  | refTable _ fixed width items => checked .overflow (width.bytes * fixed.getD items.length)
  | bitField field => .ok field.total.bytes
  | bitTable table => table.encodedLength
  | enum chosen => .ok chosen.enumeration.width
  | struct ⟨_, members, _, _, _, _⟩ => membersSize 0 members

/-- Bytes of the members together, counted on from those before them. -/
def membersSize (total : Nat) : List (Member Value) → Except LayoutError Nat
  | [] => .ok total
  | ⟨_, _, value, _⟩ :: rest => do
      let total ← checked .overflow (total + (← value.size))
      membersSize total rest

end

/-- The value that stores nothing. -/
def isNull : Value → Bool
  | null => true
  | _ => false

/-- A reference, with or without a target. -/
def isRef : Value → Bool
  | ref .. => true
  | nullRef .. => true
  | _ => false

/-- The value is stored in place when it is added to a struct. -/
def isInPlace (value : Value) : Bool :=
  value.type.isInPlace

/-- A reference to a value. The null value has no reference to it, only a null
    reference of unknown target. -/
def refTo (target : Value) (width : RefWidth) : Value :=
  if target.isNull then nullRef .null width else ref target width

/-- A reference to a value, or a null reference with a declared target. Both together
    are refused. -/
def refTyped (target : Option Value) (type : Option Ty) (width : RefWidth) :
    Except LayoutError Value :=
  let target := target.getD null
  match type with
  | none => .ok (target.refTo width)
  | some type =>
      if target.isNull then .ok (nullRef type width) else refuse .typedNonNullReference

/-- A single character; only ASCII fits in a byte. -/
def ofChar (c : Char) : Except LayoutError Value :=
  if c.toNat < 128 then .ok (char (UInt8.ofNat c.toNat))
  else
    let code := String.ofList (Nat.toDigits 16 c.toNat)
    .error (.valueRange ("\\u\x7b" ++ code ++ "\x7d") "char")

/-- An integer in the range of a kind. -/
def ofInt (kind : IntKind) (value : Int) : Except LayoutError Value :=
  (Integer.ofInt kind value).map int

/-- A closed text of variable length. -/
def ofString (content : String) : Value :=
  text (.ofString content)

/-- A blob of variable length at its usual alignment. -/
def ofBlob (content : Blob) : Value :=
  blob none Blob.defaultAlign content

/-- The value of a constant. -/
def ofConstant : Constant → Value
  | .int integer => int integer
  | .char byte => char byte
  | .text content => text content
  | .member chosen => enum chosen

/-- The constant with this value, for the values that have a literal form. -/
def toConstant : Value → Except LayoutError Constant
  | int integer => .ok (.int integer)
  | char byte => .ok (.char byte)
  | text content => .ok (.text content)
  | enum chosen => .ok (.member chosen)
  | other => refuse (.noLiteral other.type.uniqueName)

end Value
end BinaryLayout
