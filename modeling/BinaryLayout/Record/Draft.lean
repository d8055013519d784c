import BinaryLayout.Value.Datum

/-!
# Records under construction

A draft lays members out in the order in which they are added. Each is aligned to its
type by single padding bytes, named apart from every other member. A member without a
width ends the layout. Finalizing pads the record to a multiple of an alignment and
fixes its size; an open record keeps no size and is always referred to.
-/

namespace BinaryLayout

/-- Bytes from a position to the next multiple of an alignment. -/
def gap (position align : Nat) : Nat :=
  (align - position % align) % align

/-- A record being laid out. -/
structure Draft where
  name : String
  members : List (Member Value)
  align : Nat
  /-- Where the members end, unless the last one has no width. -/
  cursor : Option Nat
  /-- The number from which the next padding byte is named. -/
  nextPadding : Nat
  constants : Constants
  enums : List Enumeration

namespace Draft

/-- The alignment to which records are finalized unless told otherwise. -/
def defaultAlign : Nat := 4

/-- A draft without members. -/
def declare (name : String) : Except LayoutError Draft := do
  Identifier.validate name
  return ⟨name, [], 1, some 0, 0, .empty, []⟩

/-- The name of a padding byte. -/
def paddingName (number : Nat) : String :=
  "paddingByte" ++ toString number

/-- The first number from a start on whose padding name is free. As many tries as
    there are taken names pass over all of them. -/
def freeNumber (taken : List String) : (tries : Nat) → (start : Nat) → Nat
  | 0, start => start
  | tries + 1, start =>
      if taken.contains (paddingName start) then freeNumber taken tries (start + 1) else start

/-- The value of a padding byte. -/
def zeroByte : Value :=
  .int ⟨.int8, 0, by decide⟩

/-- Padding bytes from an offset on, and the number after their last one. -/
def paddingRun (taken : List String) :
    (count : Nat) → (offset start : Nat) → List (Member Value) × Nat
  | 0, _, start => ([], start)
  | count + 1, offset, start =>
      let number := freeNumber taken taken.length start
      let (rest, next) := paddingRun taken count (offset + 1) (number + 1)
      (⟨paddingName number, offset, zeroByte, true⟩ :: rest, next)

/-- Insert padding bytes from a position up to an alignment. -/
def padTo (draft : Draft) (position align : Nat) : Draft :=
  let (padding, next) :=
    paddingRun (draft.members.map (·.name)) (gap position align) position draft.nextPadding
  { draft with members := draft.members ++ padding, nextPadding := next }

/-- Place a value behind the members. A taken name is refused before one that cannot
    be declared, and that before a layout that has ended. -/
def place (draft : Draft) (name : String) (value : Value) : Except LayoutError Draft := do
  if draft.members.any (·.name = name) then refuse (.duplicateMember draft.name name)
  else
    Identifier.validate name
    match draft.cursor with
    | none => refuse (.unsizedTail draft.name name)
    | some cursor =>
        let type := value.type
        let padded := draft.padTo cursor type.align
        let offset ← checked .overflow (cursor + gap cursor type.align)
        let finish ← type.finish offset
        return { padded with
          members := padded.members ++ [⟨name, offset, value, false⟩]
          align := max padded.align type.align
          cursor := finish }

/-- Add a value in place. A value without a width must be the last member. -/
def addInPlace (draft : Draft) (name : String) (value : Value) : Except LayoutError Draft :=
  if value.isNull then refuse (.nullInPlace name) else draft.place name value

/-- Add a reference to a value. -/
def addRef (draft : Draft) (name : String) (value : Value) (width : RefWidth) :
    Except LayoutError Draft :=
  draft.addInPlace name (value.refTo width)

/-- Add a null reference that declares its target. -/
def addNullRef (draft : Draft) (name : String) (target : Ty) (width : RefWidth) :
    Except LayoutError Draft :=
  draft.addInPlace name (.nullRef target width)

/-- Add a value in place where its type allows it, behind a reference otherwise. -/
def add (draft : Draft) (name : String) (value : Value) : Except LayoutError Draft :=
  if value.isInPlace then draft.addInPlace name value else draft.addRef name value .w32

/-- Add an integer. -/
def addInt (draft : Draft) (name : String) (kind : IntKind) (value : Int) :
    Except LayoutError Draft := do
  draft.add name (← Value.ofInt kind value)

/-- Add a character. -/
def addChar (draft : Draft) (name : String) (c : Char) : Except LayoutError Draft := do
  draft.add name (← Value.ofChar c)

/-- Add a text: in place when it has a fixed width, behind a reference otherwise. A
    missing text is a null reference, which no fixed width can hold. -/
def addString (draft : Draft) (name : String) (content : Option String) (fixed : Option Nat)
    (terminated : Bool) (width : RefWidth) : Except LayoutError Draft := do
  match content, fixed with
  | none, some _ => refuse .fixedNullString
  | none, none => draft.addNullRef name .charArray width
  | some content, some _ => draft.addInPlace name (← Value.stringOf content fixed terminated)
  | some content, none => draft.addRef name (← Value.stringOf content none terminated) width

/-- Add a reference to a blob. -/
def addBlob (draft : Draft) (name : String) (content : Blob) (width : RefWidth) :
    Except LayoutError Draft :=
  draft.addRef name (.ofBlob content) width

/-- Add an array of data. -/
def addArray (draft : Draft) (name : String) (items : List Datum) (fixed : Option Nat) :
    Except LayoutError Draft := do
  draft.add name (← Value.sequence (← Datum.toValues items) fixed)

/-- Add a table of references to data. -/
def addRefTable (draft : Draft) (name : String) (items : List Datum) (fixed : Option Nat)
    (width : RefWidth) : Except LayoutError Draft := do
  draft.add name (← Value.refTableOf (← Datum.toValues items) fixed width)

/-- Declare a constant beside the members. -/
def addConstant (draft : Draft) (name : String) (datum : Datum) : Except LayoutError Draft := do
  return { draft with constants := ← draft.constants.add name datum }

/-- Declare several constants, or none of them. -/
def addConstants (draft : Draft) (ignorePrivate : Bool) (items : List (String × Datum)) :
    Except LayoutError Draft :=
  match draft.constants.addAll ignorePrivate items with
  | (.ok (), constants) => .ok { draft with constants }
  | (.error refusal, _) => .error refusal

/-- Declare an enumeration that no member needs to use. -/
def declareEnum (draft : Draft) (enumeration : Enumeration) : Draft :=
  { draft with enums := draft.enums ++ [enumeration] }

/-- The record as it stands. -/
def freeze (draft : Draft) (size : Option Nat) : Value :=
  .struct ⟨draft.name, draft.members, draft.align, size, draft.constants, draft.enums⟩

/-- Freeze the record without a size. -/
def openRecord (draft : Draft) : Value :=
  draft.freeze none

/-- Pad the record to a multiple of an alignment and fix its size. -/
def finalize (draft : Draft) (align : Nat) : Except LayoutError Value :=
  if align = 0 then refuse .zeroAlignment
  else
    match draft.cursor with
    | none => refuse (.unsizedType draft.name)
    | some 0 => refuse (.emptyStruct draft.name)
    | some cursor => do
        let size ← checked .overflow (cursor + gap cursor align)
        return (draft.padTo cursor align).freeze (some size)

/-- The number of a member that took a padding name is passed over. -/
example : freeNumber ["paddingByte0", "paddingByte2"] 2 0 = 1 := by decide

end Draft
end BinaryLayout
