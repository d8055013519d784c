import BinaryLayout.Blob
import BinaryLayout.Enumeration

/-!
# Constants and their literals

A constant is a named value that a struct declares without storing it. Only values
with a literal form can be constants: integers, characters, texts and members of
enumerations. Literals are printable ASCII; every other byte is written as three
octal digits, which no digit behind it can lengthen.
-/

namespace BinaryLayout

namespace Literal

/-- An octal digit. -/
def octalDigit (value : Nat) : Char :=
  Char.ofNat ('0'.toNat + value % 8)

/-- One byte within quotes. -/
def escape (byte : UInt8) : List Char :=
  if byte = 0x5c then ['\\', '\\']
  else if byte = 0x27 then ['\\', '\'']
  else if byte = 0x22 then ['\\', '"']
  else if byte = 0x0a then ['\\', 'n']
  else if byte = 0x0d then ['\\', 'r']
  else if byte = 0x09 then ['\\', 't']
  else if 0x20 ≤ byte ∧ byte ≤ 0x7e then [Char.ofNat byte.toNat]
  else
    ['\\', octalDigit (byte.toNat / 64), octalDigit (byte.toNat / 8), octalDigit byte.toNat]

/-- Bytes between two quotes. -/
def quoted (quote : Char) (bytes : List UInt8) : String :=
  String.ofList (quote :: bytes.flatMap escape ++ [quote])

/-- An octal escape has three digits, so the digit behind it stands for itself. -/
example : quoted '"' [0x61, 0x00, 0x31] = "\"a\\0001\"" := by decide

end Literal

/-- A value with a literal form. -/
inductive Constant where
  | int (integer : Integer)
  | char (byte : UInt8)
  | text (array : TextArray)
  | member (chosen : EnumMember)
  deriving DecidableEq

namespace Constant

/-- The literal that denotes the constant. -/
def literal : Constant → String
  | int integer => toString integer.value
  | char byte => Literal.quoted '\'' [byte]
  | text array => Literal.quoted '"' (array.text.toUTF8.data.toList)
  | member m => m.enumeration.name ++ "::" ++ m.name

/-- The type under which the constant is declared. -/
def declaredType : Constant → String
  | int integer => integer.kind.name
  | char _ => "char"
  | text array =>
      match array.fixed with
      | some fixed => s!"char[{fixed}]"
      | none => "char[]"
  | member m => m.enumeration.name

end Constant

/-- Named constants in the order in which they were added. -/
structure Constants where
  entries : List (String × Constant)
  deriving DecidableEq

namespace Constants

/-- No constants. -/
def empty : Constants := ⟨[]⟩

/-- The names in order. -/
def names (constants : Constants) : List String :=
  constants.entries.map (·.1)

/-- Look a constant up by name. -/
def get? (constants : Constants) (name : String) : Option Constant :=
  (constants.entries.find? (·.1 = name)).map (·.2)

/-- Refuse a name that cannot be declared or is taken. -/
def checkName (constants : Constants) (name : String) : Except LayoutError Unit := do
  Identifier.validate name
  if constants.entries.any (·.1 = name) then refuse (.duplicateConstant name)

/-- Put a constant behind the others. -/
def append (constants : Constants) (name : String) (constant : Constant) : Constants :=
  ⟨constants.entries ++ [(name, constant)]⟩

/-- Declared type, name and literal of every constant. -/
def declarations (constants : Constants) : List (String × String × String) :=
  constants.entries.map fun (name, constant) => (constant.declaredType, name, constant.literal)

end Constants
end BinaryLayout
