import BinaryLayout.BitField
import BinaryLayout.BitTable
import BinaryLayout.Record.Basic

/-!
# Layout types

A type says how many bytes a value takes, to what it is aligned, and whether it is
stored in place or behind a reference. It has two names: the declared one and the
unique one, under which equal types of a document are collected. A struct is known by
its name alone, so two structs may share a unique name and still differ.
-/

namespace BinaryLayout

/-- The layout of a value. -/
inductive Ty where
  | int (kind : IntKind)
  /-- A single byte. -/
  | char
  /-- The target of a reference of which nothing is known. -/
  | null
  | ref (target : Ty) (width : RefWidth)
  /-- Elements stored in place, one behind the other. -/
  | array (element : Ty) (fixed : Option Nat) (align : Nat)
  /-- Byte offsets, all counted from the start of the table. -/
  | refTable (target : Ty) (fixed : Option Nat) (width : RefWidth)
  | bitField (type : BitFieldType)
  | bitTable (type : BitTableType)
  | enum (type : Enumeration)
  | struct (record : Record Ty)

namespace Ty

/-- Induction over types in which every member of a struct has the property. -/
@[elab_as_elim]
theorem induction {motive : Ty → Prop}
    (int : ∀ kind, motive (.int kind)) (char : motive .char) (null : motive .null)
    (ref : ∀ target width, motive target → motive (.ref target width))
    (array : ∀ element fixed align, motive element → motive (.array element fixed align))
    (refTable : ∀ target fixed width, motive target → motive (.refTable target fixed width))
    (bitField : ∀ type, motive (.bitField type)) (bitTable : ∀ type, motive (.bitTable type))
    (enum : ∀ type, motive (.enum type))
    (struct : ∀ record : Record Ty,
      (∀ member ∈ record.members, motive member.content) → motive (.struct record))
    (type : Ty) : motive type :=
  @Ty.rec motive
    (fun record => ∀ member ∈ record.members, motive member.content)
    (fun members => ∀ member ∈ members, motive member.content)
    (fun member => motive member.content)
    int char null ref array refTable bitField bitTable enum struct
    (fun _ _ _ _ _ _ members => members)
    (fun _ absent => nomatch absent)
    (fun _ _ first rest member present => by
      rcases List.mem_cons.1 present with rfl | later
      · exact first
      · exact rest member later)
    (fun _ _ _ _ content => content)
    type

mutual

/-- Two types have the same structure. -/
def same : Ty → Ty → Bool
  | int a, int b => a = b
  | char, char => true
  | null, null => true
  | ref a v, ref b w => same a b && v = w
  | array a m p, array b n q => same a b && m = n && p = q
  | refTable a m v, refTable b n w => same a b && m = n && v = w
  | bitField a, bitField b => a = b
  | bitTable a, bitTable b => a = b
  | enum a, enum b => a = b
  | struct ⟨m, as, p, s, c, e⟩, struct ⟨n, bs, q, t, d, f⟩ =>
      m = n && sameMembers as bs && p = q && s = t && c = d && e = f
  | _, _ => false

/-- Two member lists agree one by one. -/
def sameMembers : List (Member Ty) → List (Member Ty) → Bool
  | [], [] => true
  | ⟨m, i, a, p⟩ :: as, ⟨n, j, b, q⟩ :: bs =>
      m = n && i = j && same a b && p = q && sameMembers as bs
  | _, _ => false

end

mutual

/-- Comparing structures decides equality. -/
theorem same_iff : ∀ a b : Ty, same a b = true ↔ a = b
  | int _, b => by cases b <;> simp [same]
  | char, b => by cases b <;> simp [same]
  | null, b => by cases b <;> simp [same]
  | ref a _, b => by cases b <;> simp [same, same_iff a]
  | array a _ _, b => by cases b <;> simp [same, same_iff a, and_assoc]
  | refTable a _ _, b => by cases b <;> simp [same, same_iff a, and_assoc]
  | bitField _, b => by cases b <;> simp [same]
  | bitTable _, b => by cases b <;> simp [same]
  | enum _, b => by cases b <;> simp [same]
  | struct ⟨_, as, _, _, _, _⟩, b => by
      cases b with
      | struct record => cases record; simp [same, sameMembers_iff as, and_assoc]
      | _ => simp [same]

/-- Comparing members decides equality of their lists. -/
theorem sameMembers_iff : ∀ as bs : List (Member Ty), sameMembers as bs = true ↔ as = bs
  | [], bs => by cases bs <;> simp [sameMembers]
  | ⟨_, _, a, _⟩ :: as, bs => by
      cases bs with
      | nil => simp [sameMembers]
      | cons b bs => cases b; simp [sameMembers, same_iff a, sameMembers_iff as, and_assoc]

end

instance : DecidableEq Ty := fun a b => decidable_of_iff _ (same_iff a b)

/-- The type of which nothing is known. -/
def isNull : Ty → Bool
  | null => true
  | _ => false

/-- The type of references. -/
def isRef : Ty → Bool
  | ref .. => true
  | _ => false

/-- How a reference table is told apart from others on the same target. -/
def tableEnding (fixed : Option Nat) (width : RefWidth) : String :=
  let size := match fixed with
    | some count => s!"Size{count}"
    | none => ""
  s!"{size}Ref{width.label}Array"

/-- The declared name. -/
def name : Ty → String
  | int kind => kind.name
  | char => "char"
  | null => "void"
  | ref _ width => width.kind.name
  | array element _ _ => element.name
  | refTable target fixed width => target.name ++ tableEnding fixed width
  | bitField type => type.name
  | bitTable type => type.name
  | enum type => type.name
  | struct record => record.name

/-- Bytes to a multiple of which values are aligned. -/
def align : Ty → Nat
  | int kind => kind.bytes
  | char => 1
  | null => 1
  | ref _ width => width.bytes
  | array _ _ align => align
  | refTable _ _ width => width.bytes
  | bitField type => type.bytes
  | bitTable _ => BitTableType.align
  | enum type => type.width
  | struct record => record.align

/-- The key under which equal types are collected. -/
def uniqueName : Ty → String
  | ref target width => s!"ref{width.bits}->{target.uniqueName}"
  | array element fixed align =>
      let size := match fixed with
        | some count => s!"[{count}]"
        | none => "[]"
      let override := if align = element.align then "" else s!"@{align}"
      element.uniqueName ++ size ++ override
  | refTable target fixed width => target.uniqueName ++ tableEnding fixed width
  | bitField type => type.uniqueName
  | bitTable type => "BitFieldArray:" ++ type.name
  | int kind => kind.name
  | char => "char"
  | null => "void"
  | enum type => type.name
  | struct record => record.name

/-- Bytes of an array. Its elements are asked first, whether it has a size or not. -/
def arrayWidth (name : String) (element : Except LayoutError Nat) (fixed : Option Nat) :
    Except LayoutError Nat :=
  match element, fixed with
  | .ok width, some count => checked .overflow (count * width)
  | .error .overflow, _ => .error .overflow
  | _, _ => refuse (.unsizedType name)

/-- Bytes of a value, for types all of whose values take equally many; the others are
    refused. -/
def width : Ty → Except LayoutError Nat
  | int kind => .ok kind.bytes
  | char => .ok 1
  | null => refuse (.unsizedType null.uniqueName)
  | ref _ width => .ok width.bytes
  | array element fixed align =>
      arrayWidth (array element fixed align).uniqueName element.width fixed
  | refTable target fixed width =>
      match fixed with
      | some count => checked .overflow (count * width.bytes)
      | none => refuse (.unsizedType (refTable target fixed width).uniqueName)
  | bitField type => .ok type.bytes
  | bitTable type => refuse (.unsizedType (bitTable type).uniqueName)
  | enum type => .ok type.width
  | struct record =>
      match record.size with
      | some size => .ok size
      | none => refuse (.unsizedType (struct record).uniqueName)

/-- The width of a type, if it has one. -/
def width? (type : Ty) : Option Nat :=
  type.width.toOption

theorem width?_eq_some {type : Ty} {width : Nat} :
    type.width? = some width ↔ type.width = .ok width := by
  cases known : type.width <;> simp [width?, known, Except.toOption]

/-- An array has a width when it has a size and its elements have one. -/
theorem width?_array (element : Ty) (fixed : Option Nat) (align : Nat) :
    (array element fixed align).width? =
      fixed.bind fun count => element.width?.bind fun width => address? (count * width) := by
  rw [width?, width?, width]
  cases element.width with
  | ok width =>
    cases fixed with
    | none => rfl
    | some count => exact toOption_checked
  | error cause => cases cause <;> cases fixed <;> rfl

theorem width?_refTable (target : Ty) (fixed : Option Nat) (width : RefWidth) :
    (refTable target fixed width).width? =
      fixed.bind fun count => address? (count * width.bytes) := by
  cases fixed with
  | none => rfl
  | some count => exact toOption_checked

/-- Where a value at an offset ends, if its type has a width. -/
def finish (type : Ty) (offset : Nat) : Except LayoutError (Option Nat) :=
  match type.width with
  | .ok width => (checked .overflow (offset + width)).map some
  | .error .overflow => .error .overflow
  | .error _ => .ok none

/-- The end of a value is known when its type has a width, and is a position then. -/
theorem finish_eq_ok {type : Ty} {offset : Nat} {position : Option Nat} :
    type.finish offset = .ok position ↔ type.width ≠ .error .overflow ∧
      (∀ width, type.width? = some width → offset + width < addressSpace) ∧
      position = type.width?.map (offset + ·) := by
  cases known : type.width with
  | ok width =>
    by_cases small : offset + width < addressSpace <;>
      simp [finish, width?, known, checked, small, Except.map, Except.toOption, eq_comm]
  | error cause =>
    cases cause <;> simp [finish, width?, known, Except.toOption, eq_comm]

/-- Values are stored in place when they are added to a struct. -/
def isInPlace : Ty → Bool
  | int _ => true
  | char => true
  | ref .. => true
  | bitField _ => true
  | enum _ => true
  | null => false
  | bitTable _ => false
  | array _ fixed _ => fixed.isSome
  | refTable _ fixed _ => fixed.isSome
  | struct record => record.isFinalized

/-- An array of characters. -/
def chars (fixed : Option Nat) (align : Nat) : Ty :=
  array char fixed (max align 1)

/-- The type of texts of variable length. -/
def charArray : Ty := chars none 1

/-- The alignment of an array in place. Its elements are no references and have a
    width; an alignment that is asked for may only widen theirs. -/
def arrayAlign (element : Ty) (align : Option Nat) : Except LayoutError Nat := do
  if element.isRef then refuse (.referenceElement element.uniqueName)
  else
    let _ ← element.width
    match align with
    | none => return element.align
    | some requested =>
        if element.align ≤ requested then return requested
        else refuse (.alignmentTooSmall requested element.align)

/-- An array in place. -/
def arrayOf (element : Ty) (fixed align : Option Nat) : Except LayoutError Ty :=
  return array element fixed (← arrayAlign element align)

/-- A table of references to one target. -/
def refTableOf (target : Ty) (fixed : Option Nat) (width : RefWidth) : Except LayoutError Ty :=
  if target.isRef then refuse (.referenceElement target.uniqueName)
  else .ok (refTable target fixed width)

/-- How an enumeration stores its members as a type. -/
def ofStorage : EnumStorage → Ty
  | .int kind => int kind
  | .char => char

/-- The storage of an enumeration, for the types that can be one. -/
def storage? : Ty → Option EnumStorage
  | int kind => some (.int kind)
  | char => some .char
  | _ => none

/-- Declare an enumeration over a type. -/
def declareEnum (name : String) (underlying : Ty) (members : List (String × Int64)) :
    Except LayoutError Enumeration := do
  Identifier.validate name
  match underlying.storage? with
  | some storage => Enumeration.declare name storage members
  | none => refuse (.enumStorage underlying.uniqueName)

/-- Declare an enumeration stored as single characters. -/
def declareCharEnum (name : String) (members : List (String × Char)) :
    Except LayoutError Enumeration :=
  declareEnum name char (members.map fun (name, c) => (name, Int64.ofNat c.toNat))

/-- An alignment shows in the unique name only where it differs from the elements'. -/
example : (chars none 4).uniqueName = "char[]@4" ∧ charArray.uniqueName = "char[]" := by
  decide +kernel

end Ty
end BinaryLayout
