import BinaryLayout.Constant

/-!
# Records

A record is an ordered list of named members at byte offsets, with an alignment, a
size once it is finalized, and the constants and enumerations declared beside it. The
same shape serves for types, whose members hold types, and for values, whose members
hold values.
-/

namespace BinaryLayout

/-- One member of a record. -/
structure Member (τ : Type) where
  name : String
  /-- Bytes from the start of the record. -/
  offset : Nat
  content : τ
  /-- The member was inserted for alignment. -/
  isPadding : Bool
  deriving DecidableEq

/-- Members laid out one behind the other. -/
structure Record (τ : Type) where
  name : String
  members : List (Member τ)
  align : Nat
  /-- All bytes including padding; open records have no size. -/
  size : Option Nat
  constants : Constants
  /-- Enumerations declared without a member that uses them. -/
  enums : List Enumeration
  deriving DecidableEq

namespace Record

variable {τ : Type}

/-- A finalized record has a size. -/
def isFinalized (record : Record τ) : Bool :=
  record.size.isSome

/-- Look a member up by name. -/
def member? (record : Record τ) (name : String) : Option (Member τ) :=
  record.members.find? (·.name = name)

/-- Position of a member. -/
def index? (record : Record τ) (name : String) : Option Nat :=
  record.members.findIdx? (·.name = name)

end Record
end BinaryLayout
