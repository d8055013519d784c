import BinaryLayout.Bits.Error

/-!
# Faults of layouts, values and names

A layout is refused for a cause: a value outside its range, a structure that cannot
be built, a name that cannot be declared, bits that do not fit, types that do not
agree, or a reference without a record around it. Each cause has one sentence, and
only this module words it.
-/

namespace BinaryLayout

/-- Why a text cannot be a declared name. -/
inductive IdentifierIssue where
  | malformed
  | reservedEnding
  | keyword
  | reserved
  deriving DecidableEq

namespace IdentifierIssue

/-- What is wrong, as the end of a sentence about the name. -/
def message : IdentifierIssue → String
  | malformed => "is not a valid identifier"
  | reservedEnding => "ends with the reserved suffix `ByteOffset`"
  | keyword => "is a reserved keyword"
  | reserved => "is reserved for bit field array headers"

end IdentifierIssue

/-- Why a structure cannot be built. -/
inductive StructureError where
  | duplicateMember (owner name : String)
  | emptyStruct (name : String)
  | unsizedType (name : String)
  | unsizedTail (owner name : String)
  | emptyArray
  | referenceElement (name : String)
  | arrayTooLong (length fixed : Nat)
  | alignmentTooSmall (requested minimum : Nat)
  | zeroAlignment
  | typedNonNullReference
  | fixedNullString
  | nullInPlace (name : String)
  | fieldCount (expected found : Nat)
  | unknownField (owner name : String)
  | duplicateName (name : String)
  | noFields
  | unknownEnumMember (enumeration name : String)
  | emptyEnum (name : String)
  | enumStorage (name : String)
  | duplicateConstant (name : String)
  | noLiteral (name : String)
  deriving DecidableEq

namespace StructureError

/-- The sentence that reports the cause. -/
def message : StructureError → String
  | duplicateMember owner name => s!"struct `{owner}` already has a member named `{name}`"
  | emptyStruct name => s!"cannot finalize empty struct `{name}`"
  | unsizedType name => s!"`{name}` has no defined width"
  | unsizedTail owner name => s!"struct `{owner}` ends in an unsized member; cannot add `{name}`"
  | emptyArray => "arrays need at least one element"
  | referenceElement name => s!"arrays cannot hold references (`{name}`)"
  | arrayTooLong length fixed => s!"{length} elements do not fit a fixed size of {fixed}"
  | alignmentTooSmall requested minimum =>
      s!"alignment {requested} is smaller than the element alignment {minimum}"
  | zeroAlignment => "alignment must be at least 1"
  | typedNonNullReference => "a reference target type may only be given for a null reference"
  | fixedNullString => "a fixed-width string cannot be a null reference"
  | nullInPlace name => s!"a null value cannot be stored in place (`{name}`)"
  | fieldCount expected found => s!"expected {expected} field values, received {found}"
  | unknownField owner name => s!"`{owner}` has no field `{name}`"
  | duplicateName name => s!"`{name}` was given twice"
  | noFields => "bit field arrays need at least one field"
  | unknownEnumMember enumeration name => s!"enum `{enumeration}` has no member `{name}`"
  | emptyEnum name => s!"enum `{name}` needs at least one member"
  | enumStorage name => s!"`{name}` cannot be the underlying type of an enum"
  | duplicateConstant name => s!"constant pool already defines `{name}`"
  | noLiteral name => s!"`{name}` has no literal form"

end StructureError

/-- Why a layout, a value or a document is refused. -/
inductive LayoutError where
  | valueRange (value type : String)
  | structural (cause : StructureError)
  | identifier (name : String) (issue : IdentifierIssue)
  | bitField (name : String) (cause : BitsError)
  | incompatible (left right detail : String)
  | unresolvedReference
  /-- A number leaves its machine word. This is no refusal: the program stops. -/
  | overflow
  deriving DecidableEq

namespace LayoutError

/-- The sentence that reports a refusal. -/
def message : LayoutError → String
  | valueRange value type => s!"value {value} does not fit in {type}"
  | structural cause => cause.message
  | identifier name issue => s!"`{name}` {issue.message}"
  | bitField name cause => s!"bit field `{name}`: {cause.message}"
  | incompatible left right detail => s!"cannot merge `{left}` with `{right}`: {detail}"
  | unresolvedReference =>
      "cannot pack a reference without a byte offset (is it contained in a struct?)"
  | overflow => "arithmetic overflow"

/-- A refusal of bits, reported with the name of what holds them. A stop stays one. -/
def ofBits (name : String) : BitsError → LayoutError
  | .overflow => .overflow
  | cause => .bitField name cause

end LayoutError

/-- Refuse with a structural cause. -/
def refuse {α : Type} (cause : StructureError) : Except LayoutError α :=
  .error (.structural cause)

end BinaryLayout
