import BinaryLayout.Constant
import BinaryLayout.Proofs.Keys

/-!
# What a literal denotes

A literal is judged by reading it back the way a C++ compiler does. Between quotes a character
stands for its own byte unless it is the quote or a backslash. Behind a backslash stand one of
six letters and signs, or octal digits: as many as follow, but never more than three. The reader
is therefore greedy where the literal is written byte by byte, and the two agree because an octal
escape is always written in full. Outside quotes a literal is a number, or a member behind its
enumeration.

No reader asks for the type of what it reads: a number is what its digits say, however wide the
type that holds it.
-/

namespace BinaryLayout

namespace Literal

/-- The value of an octal digit. -/
def octal? (c : Char) : Option Nat :=
  if '0' ≤ c ∧ c ≤ '7' then some (c.toNat - '0'.toNat) else none

/-- Octal digits behind those that make up a value, as many as follow up to a limit. What is
    left begins with the first character that is not taken. -/
def readOctal : (limit value : Nat) → List Char → Nat × List Char
  | limit + 1, value, c :: rest =>
      match octal? c with
      | some digit => readOctal limit (8 * value + digit) rest
      | none => (value, c :: rest)
  | _, value, text => (value, text)

/-- The byte that a single character behind a backslash stands for. -/
def sign? (c : Char) : Option UInt8 :=
  if c = '\\' then some 0x5c
  else if c = '\'' then some 0x27
  else if c = '"' then some 0x22
  else if c = 'n' then some 0x0a
  else if c = 'r' then some 0x0d
  else if c = 't' then some 0x09
  else none

/-- The byte of an escape, whose backslash is read already. Three octal digits may be too much
    for a byte. -/
def readEscape : List Char → Option (UInt8 × List Char)
  | [] => none
  | c :: rest =>
      match sign? c with
      | some byte => some (byte, rest)
      | none =>
          match octal? c with
          | some digit =>
              let (value, behind) := readOctal 2 digit rest
              if value < 256 then some (UInt8.ofNat value, behind) else none
          | none => none

/-- A character that can be read on paper, the space included. -/
def Printable (c : Char) : Prop :=
  0x20 ≤ c.toNat ∧ c.toNat ≤ 0x7e

instance (c : Char) : Decidable (Printable c) :=
  inferInstanceAs (Decidable (_ ∧ _))

/-- The first byte of a text that stands within quotes. -/
def readByte : List Char → Option (UInt8 × List Char)
  | [] => none
  | c :: rest =>
      if c = '\\' then readEscape rest
      else if Printable c then some (UInt8.ofNat c.toNat, rest)
      else none

theorem readOctal_length (limit value : Nat) (text : List Char) :
    (readOctal limit value text).2.length ≤ text.length := by
  induction limit generalizing value text with
  | zero => simp [readOctal]
  | succ limit ih =>
    cases text with
    | nil => simp [readOctal]
    | cons c rest =>
      cases digit : octal? c with
      | none => simp [readOctal, digit]
      | some one =>
        have later := ih (8 * value + one) rest
        simp only [readOctal, digit, List.length_cons]
        omega

theorem readEscape_length {text behind : List Char} {byte : UInt8}
    (read : readEscape text = some (byte, behind)) : behind.length < text.length := by
  cases text with
  | nil => simp [readEscape] at read
  | cons c rest =>
    rw [readEscape] at read
    cases sign : sign? c with
    | some one =>
      simp only [sign, Option.some.injEq, Prod.mk.injEq] at read
      simp [read.2]
    | none =>
      cases first : octal? c with
      | none => simp [sign, first] at read
      | some digit =>
        have taken := readOctal_length 2 digit rest
        simp only [sign, first, Option.ite_none_right_eq_some, Option.some.injEq,
          Prod.mk.injEq] at read
        rw [← read.2.2, List.length_cons]
        omega

/-- Every byte is written with one character at least. -/
theorem readByte_length {text behind : List Char} {byte : UInt8}
    (read : readByte text = some (byte, behind)) : behind.length < text.length := by
  cases text with
  | nil => simp [readByte] at read
  | cons c rest =>
    rw [readByte] at read
    split at read
    · have shorter := readEscape_length read
      simp only [List.length_cons]
      omega
    · split at read
      · simp only [Option.some.injEq, Prod.mk.injEq] at read
        simp [read.2]
      · contradiction

/-- The bytes up to a closing quote, and the text behind it. -/
def readBytes (quote : Char) (text : List Char) : Option (List UInt8 × List Char) :=
  if text.head? = some quote then some ([], text.tail)
  else
    match _read : readByte text with
    | some (byte, behind) =>
        (readBytes quote behind).map fun (bytes, left) => (byte :: bytes, left)
    | none => none
termination_by text.length
decreasing_by exact readByte_length _read

/-- The number that digits denote. A zero in front makes it an octal one. -/
def readNat (text : List Char) : Option Nat :=
  let isOctal := text.head? = some '0'
  if text = [] then none
  else if isOctal ∧ text.all fun c => (octal? c).isSome then some (Nat.ofDigitChars 8 text 0)
  else if ¬isOctal ∧ text.all Char.isDigit then some (Nat.ofDigitChars 10 text 0)
  else none

/-- A number with or without a sign. -/
def readInt : List Char → Option Int
  | '-' :: digits => (readNat digits).map fun (number : Nat) => -(number : Int)
  | digits => (readNat digits).map Int.ofNat

/-- A name behind another one. -/
def readMember (text : List Char) : Option (String × String) :=
  let owner := text.takeWhile (· ≠ ':')
  match text.dropWhile (· ≠ ':') with
  | ':' :: ':' :: name =>
      if owner.all Identifier.isRest ∧ name.all Identifier.isRest then
        some (String.ofList owner, String.ofList name)
      else none
  | _ => none

/-- What a literal can denote. -/
inductive Denotation where
  | int (value : Int)
  | char (byte : UInt8)
  | text (bytes : List UInt8)
  | member (enumeration name : String)
  deriving DecidableEq

/-- What a literal denotes. Its first character tells which kind of literal it is. -/
def read : List Char → Option Denotation
  | [] => none
  | first :: rest =>
      if first = '\'' then
        match readBytes '\'' rest with
        | some ([byte], []) => some (.char byte)
        | _ => none
      else if first = '"' then
        match readBytes '"' rest with
        | some (bytes, []) => some (.text bytes)
        | _ => none
      else if Identifier.isStart first then
        (readMember (first :: rest)).map fun (owner, name) => .member owner name
      else (readInt (first :: rest)).map .int

section Bytes

variable {quote : Char} {byte : UInt8} {rest : List Char}

/-- The digit that is written for a number is read as its remainder. -/
theorem octal?_octalDigit (value : Nat) : octal? (octalDigit value) = some (value % 8) := by
  have digits : ∀ digit < 8, octal? (Char.ofNat ('0'.toNat + digit)) = some digit := by decide
  exact digits (value % 8) (Nat.mod_lt value (by decide))

/-- No octal digit is an escape of its own. -/
theorem sign?_octalDigit (value : Nat) : sign? (octalDigit value) = none := by
  have digits : ∀ digit < 8, sign? (Char.ofNat ('0'.toNat + digit)) = none := by decide
  exact digits (value % 8) (Nat.mod_lt value (by decide))

/-- Three digits are taken and no more: what follows an escape is never read as a part of it. -/
theorem readEscape_octal (byte : UInt8) (rest : List Char) :
    readEscape (octalDigit (byte.toNat / 64) :: octalDigit (byte.toNat / 8) ::
      octalDigit byte.toNat :: rest) = some (byte, rest) := by
  have bound : byte.toNat < 256 := byte.toNat_lt
  have value : 8 * (8 * (byte.toNat / 64 % 8) + byte.toNat / 8 % 8) + byte.toNat % 8 =
      byte.toNat := by omega
  simp [readEscape, readOctal, sign?_octalDigit, octal?_octalDigit, value, bound]

/-- Every byte is the code of a character. -/
theorem toNat_ofNat_byte (byte : UInt8) : (Char.ofNat byte.toNat).toNat = byte.toNat := by
  have small : byte.toNat < 256 := byte.toNat_lt
  have valid : byte.toNat.isValidChar := .inl (by omega)
  rw [Char.ofNat, dif_pos valid]
  rfl

/-- The character of a byte is the one whose code it is. -/
theorem ofNat_byte_ne {c : Char} (differs : byte ≠ UInt8.ofNat c.toNat) :
    Char.ofNat byte.toNat ≠ c := by
  rintro rfl
  simp [toNat_ofNat_byte] at differs

/-- A printable byte is the byte of its character. -/
theorem readByte_printable (bound : 0x20 ≤ byte ∧ byte ≤ 0x7e) (plain : byte ≠ 0x5c) :
    readByte (Char.ofNat byte.toNat :: rest) = some (byte, rest) := by
  have printable : Printable (Char.ofNat byte.toNat) := by
    rw [Printable, toNat_ofNat_byte]
    exact bound
  have unescaped : Char.ofNat byte.toNat ≠ '\\' := ofNat_byte_ne plain
  simp [readByte, unescaped, printable, toNat_ofNat_byte]

/-- What is written for a byte is read as this byte, whatever follows. -/
theorem readByte_escape (byte : UInt8) (rest : List Char) :
    readByte (escape byte ++ rest) = some (byte, rest) := by
  unfold escape
  split_ifs with backslash apostrophe doubled newline carriage tab printable
  · subst backslash; rfl
  · subst apostrophe; rfl
  · subst doubled; rfl
  · subst newline; rfl
  · subst carriage; rfl
  · subst tab; rfl
  · exact readByte_printable printable backslash
  · exact readEscape_octal byte rest

/-- An escape of fewer digits would take the digit behind it for its own. -/
example : readByte ['\\', '0', '1', '"'] = some (0x01, ['"']) := by decide

/-- What is written for a byte begins with a backslash, or it is the byte's own character, and
    that is not a quote. -/
theorem escape_cases (byte : UInt8) :
    (∃ tail, escape byte = '\\' :: tail) ∨
      escape byte = [Char.ofNat byte.toNat] ∧ byte ≠ 0x27 ∧ byte ≠ 0x22 := by
  unfold escape
  split_ifs with backslash apostrophe doubled newline carriage tab printable
  any_goals exact .inl ⟨_, rfl⟩
  exact .inr ⟨rfl, apostrophe, doubled⟩

/-- No quote within the quotes is one that closes them. -/
theorem head?_escape_ne (byte : UInt8) (rest : List Char) (isQuote : quote = '\'' ∨ quote = '"') :
    (escape byte ++ rest).head? ≠ some quote := by
  rcases escape_cases byte with ⟨tail, escaped⟩ | ⟨plain, apostrophe, doubled⟩
  · rw [escaped]
    rcases isQuote with rfl | rfl <;> simp
  · rw [plain]
    rcases isQuote with rfl | rfl
    · simpa using ofNat_byte_ne apostrophe
    · simpa using ofNat_byte_ne doubled

/-- Reading up to the closing quote gives back what was written between the quotes, and leaves
    what follows. -/
theorem readBytes_flatMap (isQuote : quote = '\'' ∨ quote = '"') (bytes : List UInt8)
    (rest : List Char) : readBytes quote (bytes.flatMap escape ++ quote :: rest) =
      some (bytes, rest) := by
  induction bytes with
  | nil =>
    rw [readBytes]
    simp
  | cons byte later ih =>
    have behind := readByte_escape byte (later.flatMap escape ++ quote :: rest)
    have inside := head?_escape_ne byte (later.flatMap escape ++ quote :: rest) isQuote
    rw [List.flatMap_cons, List.append_assoc, readBytes, if_neg inside]
    split
    · rename_i first left read
      obtain ⟨rfl, rfl⟩ := Prod.mk.inj (Option.some.inj (behind.symm.trans read))
      rw [ih]
      rfl
    · rename_i unread
      rw [behind] at unread
      contradiction

end Bytes

section Numbers

/-- The digits of a positive number do not begin with a zero. -/
theorem head?_toDigits_ne (number : Nat) (positive : 0 < number) :
    (Nat.toDigits 10 number).head? ≠ some '0' := by
  induction number using Nat.strongRecOn with
  | ind number ih =>
    rw [Nat.toDigits_eq_if (by decide)]
    split
    · rename_i small
      have digits : ∀ digit < 10, 0 < digit → [Nat.digitChar digit].head? ≠ some '0' := by decide
      exact digits number small positive
    · rename_i large
      have shorter := ih (number / 10) (by omega) (by omega)
      rwa [List.head?_append_of_ne_nil _ Nat.toDigits_ne_nil]

/-- The digits of a number are read as this number: they have a zero in front only for zero
    itself, which is the same in either base. -/
theorem readNat_toDigits (number : Nat) : readNat (Nat.toDigits 10 number) = some number := by
  rcases Nat.eq_zero_or_pos number with rfl | positive
  · decide
  · have digits : (Nat.toDigits 10 number).all Char.isDigit :=
      List.all_eq_true.mpr (isDigit_toDigits number)
    have decimal := head?_toDigits_ne number positive
    rw [readNat]
    simp only [Nat.toDigits_ne_nil, decimal, if_false, false_and, not_false_eq_true, true_and,
      if_pos digits, Nat.ofDigitChars_ten_toDigits]

/-- A number is written in digits, behind its sign if it has one. -/
theorem toList_toString_int (value : Int) :
    (toString value).toList =
      if value < 0 then '-' :: Nat.toDigits 10 value.natAbs else Nat.toDigits 10 value.natAbs := by
  cases value with
  | ofNat number => simp [Int.toString_eq_repr, Int.repr, Nat.repr_eq_ofList_toDigits]
  | negSucc number => simp [Int.toString_eq_repr, Int.repr, Nat.repr_eq_ofList_toDigits]

/-- A number is read back with its sign. -/
theorem readInt_toString (value : Int) : readInt (toString value).toList = some value := by
  rw [toList_toString_int]
  split
  · rw [readInt, readNat_toDigits, Option.map_some, Option.some.injEq]
    omega
  · have unsigned : ∀ rest, Nat.toDigits 10 value.natAbs ≠ '-' :: rest := by
      intro rest signed
      have digit := isDigit_toDigits value.natAbs '-' (by simp [signed])
      contradiction
    rw [readInt, readNat_toDigits, Option.map_some, Option.some.injEq]
    · exact Int.natAbs_of_nonneg (by omega)
    · exact unsigned

/-- A number starts with its sign or a digit. -/
theorem exists_number (value : Int) : ∃ first rest, (toString value).toList = first :: rest ∧
    (first = '-' ∨ first.isDigit = true) := by
  rw [toList_toString_int]
  split
  · exact ⟨'-', _, rfl, .inl rfl⟩
  · obtain ⟨first, rest, digits⟩ := List.exists_cons_of_ne_nil (Nat.toDigits_ne_nil (b := 10))
    exact ⟨first, rest, digits, .inr (isDigit_toDigits value.natAbs first (by simp [digits]))⟩

end Numbers

section Names

variable {owner name : String}

/-- The two names of a member are told apart: no declared name has a colon in it. -/
theorem readMember_append (outer : Identifier.Declarable owner)
    (inner : Identifier.Declarable name) :
    readMember (owner ++ "::" ++ name).toList = some (owner, name) := by
  have colonless : ∀ c ∈ owner.toList, decide (c ≠ ':') = true := by
    intro c present
    have absent : ':' ∉ owner.toList := outer.not_mem (by decide)
    exact decide_eq_true fun same => absent (same ▸ present)
  have written : (owner ++ "::" ++ name).toList = owner.toList ++ ':' :: ':' :: name.toList := by
    simp
  have before : (owner.toList ++ ':' :: ':' :: name.toList).takeWhile (· ≠ ':') = owner.toList := by
    rw [List.takeWhile_append_of_pos colonless]
    simp
  have behind : (owner.toList ++ ':' :: ':' :: name.toList).dropWhile (· ≠ ':') =
      ':' :: ':' :: name.toList := by
    rw [List.dropWhile_append_of_pos colonless]
    simp
  rw [written, readMember, before, behind]
  have letters : owner.toList.all Identifier.isRest ∧ name.toList.all Identifier.isRest :=
    ⟨List.all_eq_true.mpr outer.isRest, List.all_eq_true.mpr inner.isRest⟩
  simp only [if_pos letters, String.ofList_toList]

end Names

section Characters

variable {quote c : Char}

/-- The digits of a number can be read on paper. -/
theorem printable_of_isDigit (digit : c.isDigit = true) : Printable c := by
  have digit := Char.isDigit_iff_toNat.mp digit
  have zero : '0'.toNat = 48 := rfl
  have nine : '9'.toNat = 57 := rfl
  rw [Printable]
  omega

/-- So can the characters of declared names. -/
theorem printable_of_isRest (letter : Identifier.isRest c = true) : Printable c := by
  rw [Identifier.isRest, Bool.or_eq_true] at letter
  rcases letter with start | digit
  · rcases Identifier.bounds_of_isStart start with rfl | letter
    · decide
    · rw [Printable]
      omega
  · exact printable_of_isDigit digit

theorem printable_octalDigit (value : Nat) : Printable (octalDigit value) := by
  have digits : ∀ digit < 8, Printable (Char.ofNat ('0'.toNat + digit)) := by decide
  exact digits (value % 8) (Nat.mod_lt value (by decide))

/-- Whatever is written for a byte can be read on paper. -/
theorem printable_escape (byte : UInt8) : ∀ c ∈ escape byte, Printable c := by
  have pair {second : Char} (behind : Printable second) : ∀ c ∈ ['\\', second], Printable c := by
    rw [List.forall_mem_cons, List.forall_mem_singleton]
    exact ⟨by decide, behind⟩
  unfold escape
  split_ifs with backslash apostrophe doubled newline carriage tab printable
  any_goals exact pair (by decide)
  · rw [List.forall_mem_singleton, Printable, toNat_ofNat_byte]
    exact printable
  · rw [List.forall_mem_cons, List.forall_mem_cons, List.forall_mem_cons,
      List.forall_mem_singleton]
    exact ⟨by decide, printable_octalDigit _, printable_octalDigit _, printable_octalDigit _⟩

/-- Between two quotes as well. -/
theorem printable_quoted (isQuote : quote = '\'' ∨ quote = '"') (bytes : List UInt8) :
    ∀ c ∈ (quoted quote bytes).toList, Printable c := by
  have closed : Printable quote := by rcases isQuote with rfl | rfl <;> decide
  intro c present
  simp only [quoted, String.toList_ofList, List.cons_append, List.mem_cons, List.mem_append,
    List.mem_flatMap, List.not_mem_nil, or_false] at present
  rcases present with rfl | ⟨byte, -, inside⟩ | rfl
  · exact closed
  · exact printable_escape byte c inside
  · exact closed

end Characters

section Kinds

variable {text : List Char} {first : Char} {rest : List Char}

/-- A text that starts as a name is read as a member. -/
theorem read_of_isStart (start : Identifier.isStart first = true) :
    read (first :: rest) =
      (readMember (first :: rest)).map fun (owner, name) => .member owner name := by
  have apostrophe : first ≠ '\'' := by rintro rfl; contradiction
  have doubled : first ≠ '"' := by rintro rfl; contradiction
  rw [read, if_neg apostrophe, if_neg doubled, if_pos start]

/-- A text that starts as a number is read as one. -/
theorem read_of_number (start : first = '-' ∨ first.isDigit = true) :
    read (first :: rest) = (readInt (first :: rest)).map .int := by
  have apostrophe : first ≠ '\'' := by rintro rfl; revert start; decide
  have doubled : first ≠ '"' := by rintro rfl; revert start; decide
  have nameless : ¬Identifier.isStart first = true := by
    intro letter
    rcases start with rfl | digit
    · contradiction
    · rw [Identifier.not_isDigit_of_isStart letter] at digit
      contradiction
  rw [read, if_neg apostrophe, if_neg doubled, if_neg nameless]

end Kinds
end Literal

namespace Constant

/-- The names of a constant have passed the checks on names. -/
def Nameable : Constant → Prop
  | member chosen =>
      Identifier.Declarable chosen.enumeration.name ∧ Identifier.Declarable chosen.name
  | _ => True

/-- What the literal of a constant is to denote. -/
def denotation : Constant → Literal.Denotation
  | int integer => .int integer.value
  | char byte => .char byte
  | text array => .text array.text.toUTF8.data.toList
  | member chosen => .member chosen.enumeration.name chosen.name

/-- The literal of a constant is read as the constant. -/
theorem read_literal {constant : Constant} (nameable : constant.Nameable) :
    Literal.read constant.literal.toList = some constant.denotation := by
  cases constant with
  | int integer =>
    obtain ⟨first, rest, digits, start⟩ := Literal.exists_number integer.value
    have number := Literal.readInt_toString integer.value
    rw [literal, digits, Literal.read_of_number start, ← digits, number]
    rfl
  | char byte =>
    have inside := Literal.readBytes_flatMap (.inl rfl) [byte] []
    simp only [literal, Literal.quoted, String.toList_ofList, List.cons_append, Literal.read]
    rw [inside]
    rfl
  | text array =>
    have inside := Literal.readBytes_flatMap (.inr rfl) array.text.toUTF8.data.toList []
    simp only [literal, Literal.quoted, String.toList_ofList, List.cons_append, Literal.read]
    rw [inside]
    rfl
  | member chosen =>
    obtain ⟨outer, inner⟩ := nameable
    obtain ⟨first, rest, letters, start, -⟩ := outer.exists_start
    have names := Literal.readMember_append outer inner
    have written : (chosen.enumeration.name ++ "::" ++ chosen.name).toList =
        first :: (rest ++ ':' :: ':' :: chosen.name.toList) := by
      simp [letters]
    rw [written] at names
    rw [literal, written, Literal.read_of_isStart start, names]
    rfl

/-- The literal of a constant can be read on paper. -/
theorem printable_literal {constant : Constant} (nameable : constant.Nameable) :
    ∀ c ∈ constant.literal.toList, Literal.Printable c := by
  cases constant with
  | int integer =>
    have digits : ∀ c ∈ Nat.toDigits 10 integer.value.natAbs, Literal.Printable c :=
      fun c present => Literal.printable_of_isDigit (isDigit_toDigits _ c present)
    rw [literal, Literal.toList_toString_int]
    split
    · exact List.forall_mem_cons.mpr ⟨by decide, digits⟩
    · exact digits
  | char byte => exact Literal.printable_quoted (.inl rfl) [byte]
  | text array => exact Literal.printable_quoted (.inr rfl) _
  | member chosen =>
    obtain ⟨outer, inner⟩ := nameable
    intro c present
    simp only [literal, String.toList_append, List.mem_append] at present
    rcases present with (before | colon) | behind
    · exact Literal.printable_of_isRest (outer.isRest c before)
    · obtain rfl : c = ':' := by simpa using colon
      decide
    · exact Literal.printable_of_isRest (inner.isRest c behind)

end Constant
end BinaryLayout
