import BinaryLayout.Error

/-!
# Names that can be declared

Names of members, fields, enum members, constants and types end up as declarations
in a generated header. They are plain ASCII identifiers, no keywords of that
language, and do not take the ending under which references store their offsets.
-/

namespace BinaryLayout.Identifier

/-- The ending of the storage member of every reference. -/
def offsetEnding : String := "ByteOffset"

/-- The header member of every bit field array. -/
def entryBits : String := "bitFieldArrayEntryBits"

/-- The words that cannot be declared. -/
def keywords : List String :=
  ["alignas", "alignof", "and", "and_eq", "asm", "auto", "bitand", "bitor", "bool", "break",
    "case", "catch", "char", "char16_t", "char32_t", "class", "compl", "const", "constexpr",
    "const_cast", "continue", "decltype", "default", "delete", "do", "double", "dynamic_cast",
    "else", "enum", "explicit", "export", "extern", "false", "float", "for", "friend", "goto",
    "if", "inline", "int", "long", "mutable", "namespace", "new", "noexcept", "not", "not_eq",
    "nullptr", "operator", "or", "or_eq", "private", "protected", "public", "register",
    "reinterpret_cast", "return", "short", "signed", "sizeof", "static", "static_assert",
    "static_cast", "struct", "switch", "template", "this", "thread_local", "throw", "true",
    "try", "typedef", "typeid", "typename", "union", "unsigned", "using", "virtual", "void",
    "volatile", "wchar_t", "while", "xor", "xor_eq"]

/-- A letter of the ASCII alphabet or an underscore. -/
def isStart (c : Char) : Bool :=
  c = '_' || c.isAlpha

/-- A character that may follow the first one. -/
def isRest (c : Char) : Bool :=
  isStart c || c.isDigit

/-- The form of an identifier: a letter or underscore, then those or digits. -/
def wellFormed (name : String) : Bool :=
  match name.toList with
  | [] => false
  | first :: rest => isStart first && rest.all isRest

/-- A word that cannot be declared. -/
def isKeyword (name : String) : Bool :=
  keywords.contains name

/-- What keeps a text from being declared. The form is judged before the ending and
    the ending before the keywords. -/
def issue? (name : String) : Option IdentifierIssue :=
  if !wellFormed name then some .malformed
  else if offsetEnding.toList.isSuffixOf name.toList then some .reservedEnding
  else if isKeyword name then some .keyword
  else none

/-- Refuse a text that cannot be declared. -/
def validate (name : String) : Except LayoutError Unit :=
  match issue? name with
  | some issue => .error (.identifier name issue)
  | none => .ok ()

/-- A keyword is refused whole, not as the start of a longer name. -/
example : issue? "class" = some .keyword ∧ issue? "classes" = none := by decide

/-- The form is judged before the ending. -/
example : issue? "2ByteOffset" = some .malformed ∧ issue? "_ByteOffset" = some .reservedEnding := by
  decide

end BinaryLayout.Identifier
