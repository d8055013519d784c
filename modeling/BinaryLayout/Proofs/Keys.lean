import BinaryLayout.Proofs.Construction
import Mathlib.Data.List.DropRight

/-!
# What a unique name tells

A unique name is put together from declared names, numbers and signs. Read from behind, its last
character that is no digit tells arrays, reference tables and bit fields apart, and what stands
before it is a unique name again. Declared names stand among these without a sign of their own:
a struct may be named like an integer, like a reference table, or like what a table adds to the
name of its target.
-/

namespace BinaryLayout

section Characters

variable {first second tail rest : List Char} {c d : Char} {p : Char → Bool}

/-- A text is the same up to the last character that is not of some kind, and behind it. -/
theorem cut_last (stop : p c = false) (stop' : p d = false) (inside : ∀ x ∈ tail, p x = true)
    (inside' : ∀ x ∈ rest, p x = true) (same : first ++ c :: tail = second ++ d :: rest) :
    first = second ∧ c = d ∧ tail = rest := by
  have cut {text behind : List Char} {x : Char} (stop : p x = false)
      (inside : ∀ y ∈ behind, p y = true) :
      (text ++ x :: behind).rdropWhile p = text ++ [x] := by
    have reversed : ∀ y ∈ behind.reverse, p y = true := fun y present =>
      inside y (List.mem_reverse.mp present)
    simp [List.rdropWhile, List.dropWhile_append_of_pos reversed, stop]
  have ends : first ++ [c] = second ++ [d] := by
    rw [← cut stop inside, same, cut stop' inside']
  obtain ⟨rfl, one⟩ := List.append_inj' ends rfl
  obtain rfl := List.singleton_inj.mp one
  exact ⟨rfl, rfl, (List.cons.inj (List.append_cancel_left same)).2⟩

/-- A text is the same up to the first character that is not of some kind, and behind it. -/
theorem cut_first (stop : p c = false) (stop' : p d = false) (inside : ∀ x ∈ first, p x = true)
    (inside' : ∀ x ∈ second, p x = true) (same : first ++ c :: tail = second ++ d :: rest) :
    first = second ∧ c = d ∧ tail = rest := by
  have reversed : tail.reverse ++ c :: first.reverse = rest.reverse ++ d :: second.reverse := by
    simpa using congrArg List.reverse same
  obtain ⟨behind, signs, before⟩ := cut_last stop stop' (by simpa using inside)
    (by simpa using inside') reversed
  exact ⟨List.reverse_injective before, signs, List.reverse_injective behind⟩

/-- A text in which some character is not of a kind has a last one that is not. -/
theorem exists_cut {text : List Char} (outside : ∃ x ∈ text, p x = false) :
    ∃ first c tail, text = first ++ c :: tail ∧ p c = false ∧ ∀ x ∈ tail, p x = true := by
  induction text with
  | nil => simp at outside
  | cons x rest ih =>
    by_cases later : ∃ y ∈ rest, p y = false
    · obtain ⟨first, c, tail, rfl, stop, inside⟩ := ih later
      exact ⟨x :: first, c, tail, rfl, stop, inside⟩
    · have inside : ∀ y ∈ rest, p y = true := by simpa using later
      obtain ⟨y, present, stop⟩ := outside
      rcases List.mem_cons.mp present with rfl | behind
      · exact ⟨[], y, rest, rfl, stop, inside⟩
      · simp [inside y behind] at stop

theorem isDigit_toDigits (number : Nat) : ∀ x ∈ Nat.toDigits 10 number, x.isDigit = true :=
  fun _ present => Nat.isDigit_of_mem_toDigits (by decide) (by decide) present

theorem toDigits_inj {i j : Nat} (same : Nat.toDigits 10 i = Nat.toDigits 10 j) : i = j := by
  calc
    i = Nat.ofDigitChars 10 (Nat.toDigits 10 i) 0 := Nat.ofDigitChars_ten_toDigits.symm
    _ = Nat.ofDigitChars 10 (Nat.toDigits 10 j) 0 := by rw [same]
    _ = j := Nat.ofDigitChars_ten_toDigits

theorem toString_text (text : String) : toString text = text := rfl

theorem toList_toString (number : Nat) :
    (toString number).toList = Nat.toDigits 10 number := by
  rw [Nat.toString_eq_ofList_toDigits, String.toList_ofList]

/-- The last character of a name that is no digit. -/
def LastSign (name : String) (c : Char) : Prop :=
  c.isDigit = false ∧
    ∃ text tail, name.toList = text ++ c :: tail ∧ ∀ x ∈ tail, x.isDigit = true

theorem LastSign.unique {name : String} (one : LastSign name c) (other : LastSign name d) :
    c = d := by
  obtain ⟨stop, text, tail, written, inside⟩ := one
  obtain ⟨stop', text', tail', written', inside'⟩ := other
  exact (cut_last stop stop' inside inside' (written.symm.trans written')).2.1

/-- What is put in front of a name leaves its last sign alone. -/
theorem LastSign.prepend {name : String} (last : LastSign name c) (front : String) :
    LastSign (front ++ name) c := by
  obtain ⟨stop, text, tail, written, inside⟩ := last
  exact ⟨stop, front.toList ++ text, tail, by simp [written], inside⟩

end Characters

namespace Identifier

variable {name : String}

/-- Letters in the order of their codes. -/
theorem bounds_of_isStart {c : Char} (start : isStart c = true) :
    c = '_' ∨ 65 ≤ c.toNat ∧ c.toNat ≤ 90 ∨ 97 ≤ c.toNat ∧ c.toNat ≤ 122 := by
  simp only [isStart, Bool.or_eq_true, decide_eq_true_eq] at start
  rcases start with rfl | letter
  · exact .inl rfl
  · have letter : (decide ('A'.val ≤ c.val ∧ c.val ≤ 'Z'.val) ||
        decide ('a'.val ≤ c.val) && decide (c.val ≤ 'z'.val)) = true := letter
    simp only [Bool.or_eq_true, Bool.and_eq_true, decide_eq_true_eq, UInt32.le_iff_toNat_le]
      at letter
    exact .inr letter

theorem not_isDigit_of_isStart {c : Char} (start : isStart c = true) : c.isDigit = false := by
  by_contra digit
  have digit := Char.isDigit_iff_toNat.mp (Bool.of_not_eq_false digit)
  have zero : '0'.toNat = 48 := rfl
  have nine : '9'.toNat = 57 := rfl
  rcases bounds_of_isStart start with rfl | letter
  · exact absurd digit (by decide)
  · omega

/-- The last sign of a declared name is a letter or underscore: it starts with one. -/
theorem Declarable.exists_lastSign (declarable : Declarable name) :
    ∃ c, LastSign name c ∧ isStart c = true := by
  have outside : ∃ x ∈ name.toList, x.isDigit = false := by
    obtain ⟨first, rest, letters, start, -⟩ := declarable.exists_start
    exact ⟨first, by simp [letters], not_isDigit_of_isStart start⟩
  obtain ⟨first, c, tail, written, sign, digits⟩ := exists_cut outside
  have rest := declarable.isRest c (by simp [written])
  refine ⟨c, ⟨sign, first, tail, written, digits⟩, ?_⟩
  simpa [Identifier.isRest, sign] using rest

end Identifier

namespace Ty

/-- The number in the brackets of a fixed array. -/
def slot : Option Nat → List Char
  | some count => Nat.toDigits 10 count
  | none => []

theorem isDigit_slot (fixed : Option Nat) : ∀ x ∈ slot fixed, x.isDigit = true := by
  cases fixed with
  | none => simp [slot]
  | some count => exact isDigit_toDigits count

theorem slot_inj {fixed fixed' : Option Nat} (same : slot fixed = slot fixed') :
    fixed = fixed' := by
  cases fixed <;> cases fixed' <;> simp only [slot] at same
  · rfl
  · exact absurd same.symm Nat.toDigits_ne_nil
  · exact absurd same Nat.toDigits_ne_nil
  · rw [toDigits_inj same]

/-- The size in the name of a fixed reference table. -/
def sizing : Option Nat → List Char
  | some count => ['S', 'i', 'z'] ++ 'e' :: Nat.toDigits 10 count
  | none => []

section Keys

attribute [local simp] toString_text toList_toString uniqueName

variable {a b target other element : Ty} {fixed fixed' : Option Nat} {width width' : RefWidth}
  {align align' : Nat}

/-- The name of an array ends in its brackets if it is aligned as its elements are. -/
theorem toList_uniqueName_array (element : Ty) (fixed : Option Nat) :
    (array element fixed element.align).uniqueName.toList =
      element.uniqueName.toList ++ '[' :: slot fixed ++ [']'] := by
  cases fixed <;> simp [slot]

/-- Otherwise its alignment stands behind them. -/
theorem toList_uniqueName_aligned (differs : align ≠ element.align) :
    (array element fixed align).uniqueName.toList =
      (element.uniqueName.toList ++ '[' :: slot fixed ++ [']']) ++
        '@' :: Nat.toDigits 10 align := by
  cases fixed <;> simp [slot, differs]

/-- The name of a table ends in its size, if it has one, and the width of its references. -/
theorem toList_uniqueName_refTable (target : Ty) (fixed : Option Nat) (width : RefWidth) :
    (refTable target fixed width).uniqueName.toList =
      (target.uniqueName.toList ++ sizing fixed ++ ['R', 'e']) ++ 'f' :: width.label.toList ++
        ['A', 'r', 'r', 'a', 'y'] := by
  cases fixed <;> simp [tableEnding, sizing]

/-- Integer kinds are told apart by their names. -/
theorem intKind_of_name {kind other : IntKind} (named : kind.name = other.name) : kind = other := by
  obtain ⟨isSigned, width⟩ := kind
  obtain ⟨isSigned', width'⟩ := other
  revert named
  cases isSigned <;> cases isSigned' <;> cases width <;> cases width' <;> decide

/-- References of one name have one width, and targets of one name. -/
theorem ref_of_uniqueName (named : (ref target width).uniqueName = (ref other width').uniqueName) :
    width = width' ∧ target.uniqueName = other.uniqueName := by
  have arrow : Char.isAlphanum '-' = false := by decide
  have texts := congrArg String.toList named
  have prefixes (width : RefWidth) : ∀ x ∈ 'r' :: 'e' :: 'f' :: Nat.toDigits 10 width.bits,
      x.isAlphanum = true := by
    apply List.all_eq_true.mp
    cases width <;> decide
  have cut := cut_first arrow arrow (prefixes width) (prefixes width') (by
    simpa using texts)
  refine ⟨?_, String.toList_inj.mp (by simpa using cut.2.2)⟩
  have bits := cut.1
  revert bits
  cases width <;> cases width' <;> decide

/-- In front of its alignment, the name of an array tells its size and its elements. -/
theorem array_of_brackets {element other : Ty}
    (same : element.uniqueName.toList ++ '[' :: slot fixed ++ [']'] =
      other.uniqueName.toList ++ '[' :: slot fixed' ++ [']']) :
    fixed = fixed' ∧ element.uniqueName = other.uniqueName := by
  obtain ⟨elements, -, slots⟩ := cut_last (by decide) (by decide) (isDigit_slot fixed)
    (isDigit_slot fixed') (List.append_cancel_right same)
  exact ⟨slot_inj slots, String.toList_inj.mp elements⟩

/-- The last sign of an array's name is a bracket, or the sign in front of its alignment. -/
theorem lastSign_array (element : Ty) (fixed : Option Nat) (align : Nat) :
    LastSign (array element fixed align).uniqueName
      (if align = element.align then ']' else '@') := by
  by_cases own : align = element.align
  · subst own
    rw [if_pos rfl]
    exact ⟨by decide, _, [], toList_uniqueName_array element fixed, by simp⟩
  · rw [if_neg own]
    exact ⟨by decide, _, _, toList_uniqueName_aligned own, isDigit_toDigits align⟩

/-- Arrays of one name have one size and elements of one name. They have one alignment, too,
    unless both are aligned as their elements are. -/
theorem array_of_uniqueName
    (named : (array element fixed align).uniqueName = (array other fixed' align').uniqueName) :
    fixed = fixed' ∧ element.uniqueName = other.uniqueName ∧
      (align = align' ∨ align = element.align ∧ align' = other.align) := by
  have texts := congrArg String.toList named
  have signs := (lastSign_array element fixed align).unique
    (named ▸ lastSign_array other fixed' align')
  by_cases own : align = element.align <;> by_cases own' : align' = other.align <;>
    simp only [own, own', if_true, if_false] at signs
  · subst own own'
    rw [toList_uniqueName_array, toList_uniqueName_array] at texts
    obtain ⟨sizes, elements⟩ := array_of_brackets texts
    exact ⟨sizes, elements, .inr ⟨rfl, rfl⟩⟩
  · exact absurd signs (by decide)
  · exact absurd signs (by decide)
  · rw [toList_uniqueName_aligned own, toList_uniqueName_aligned own'] at texts
    obtain ⟨brackets, -, aligns⟩ := cut_last (by decide) (by decide) (isDigit_toDigits align)
      (isDigit_toDigits align') texts
    obtain ⟨sizes, elements⟩ := array_of_brackets brackets
    exact ⟨sizes, elements, .inl (toDigits_inj aligns)⟩

theorem lastSign_refTable (target : Ty) (fixed : Option Nat) (width : RefWidth) :
    LastSign (refTable target fixed width).uniqueName 'y' := by
  refine ⟨by decide, target.uniqueName.toList ++ sizing fixed ++ ['R', 'e'] ++
    'f' :: width.label.toList ++ ['A', 'r', 'r', 'a'], [], ?_, by simp⟩
  rw [toList_uniqueName_refTable]
  simp

/-- Reference tables of one name have references of one width. What is left of their names is
    the target's and the size, and these may run into each other: a target may be named as
    another one with a size. -/
theorem refTable_of_uniqueName
    (named : (refTable target fixed width).uniqueName = (refTable other fixed' width').uniqueName) :
    width = width' ∧ (fixed = fixed' ∧ target.uniqueName = other.uniqueName ∨
      (∃ count, fixed = some count ∧ fixed' = none ∧
        other.uniqueName = target.uniqueName ++ s!"Size{count}") ∨
      ∃ count, fixed = none ∧ fixed' = some count ∧
        target.uniqueName = other.uniqueName ++ s!"Size{count}") := by
  have texts := congrArg String.toList named
  rw [toList_uniqueName_refTable, toList_uniqueName_refTable] at texts
  have digits (width : RefWidth) : ∀ x ∈ width.label.toList, x.isDigit = true := by
    apply List.all_eq_true.mp
    cases width <;> decide
  obtain ⟨before, -, labels⟩ := cut_last (by decide) (by decide) (digits width) (digits width')
    (List.append_cancel_right texts)
  have before := List.append_cancel_right before
  have longer {first second : Ty} {count : Nat}
      (longer : first.uniqueName.toList = second.uniqueName.toList ++ sizing (some count)) :
      first.uniqueName = second.uniqueName ++ s!"Size{count}" := by
    rw [← String.toList_inj, longer]
    simp [sizing]
  refine ⟨?_, ?_⟩
  · revert labels
    cases width <;> cases width' <;> decide
  · cases fixed with
    | none =>
      cases fixed' with
      | none => exact .inl ⟨rfl, String.toList_inj.mp (by simpa [sizing] using before)⟩
      | some count => exact .inr (.inr ⟨count, rfl, rfl, longer (by simpa [sizing] using before)⟩)
    | some count =>
      cases fixed' with
      | none => exact .inr (.inl ⟨count, rfl, rfl, longer (by simpa [sizing] using before.symm)⟩)
      | some count' =>
        rw [sizing, sizing, ← List.append_assoc, ← List.append_assoc] at before
        obtain ⟨targets, -, counts⟩ := cut_last (by decide) (by decide) (isDigit_toDigits count)
          (isDigit_toDigits count') before
        obtain rfl := toDigits_inj counts
        exact .inl ⟨rfl, String.toList_inj.mp (List.append_cancel_right targets)⟩

/-- The widths of bit fields as they stand in their name. -/
def joined (numbers : List Nat) : List Char :=
  [','].intercalate (numbers.map (Nat.toDigits 10))

/-- With one more comma behind them, every number has one. -/
theorem joined_append_comma (first : Nat) (rest : List Nat) :
    joined (first :: rest) ++ [','] =
      (first :: rest).flatMap fun number => Nat.toDigits 10 number ++ [','] := by
  induction rest generalizing first with
  | nil => simp [joined]
  | cons second rest ih =>
    rw [List.flatMap_cons, ← ih second]
    simp [joined, List.intercalate_cons_cons]

theorem mem_joined {numbers : List Nat} {x : Char} (present : x ∈ joined numbers) :
    x.isDigit = true ∨ x = ',' := by
  cases numbers with
  | nil => simp [joined] at present
  | cons first rest =>
    have closed := List.mem_append_left [','] present
    rw [joined_append_comma] at closed
    obtain ⟨number, -, inside⟩ := List.mem_flatMap.mp closed
    rcases List.mem_append.mp inside with digit | comma
    · exact .inl (isDigit_toDigits number x digit)
    · exact .inr (List.mem_singleton.mp comma)

/-- Numbers that are joined by commas are told apart.

    The induction is on the numbers, each of which is read up to its comma. -/
theorem joined_inj {numbers others : List Nat} (same : joined numbers = joined others) :
    numbers = others := by
  have present (first : Nat) (rest : List Nat) : joined (first :: rest) ≠ [] := by
    cases rest <;> simp [joined, List.intercalate_cons_cons, Nat.toDigits_ne_nil]
  have read {numbers others : List Nat} (same : numbers.flatMap (Nat.toDigits 10 · ++ [',']) =
      others.flatMap (Nat.toDigits 10 · ++ [','])) : numbers = others := by
    induction numbers generalizing others with
    | nil => cases others <;> simp_all
    | cons number numbers ih =>
      cases others with
      | nil => simp at same
      | cons other others =>
        simp only [List.flatMap_cons, List.append_assoc, List.singleton_append] at same
        obtain ⟨digits, -, behind⟩ := cut_first (by decide) (by decide) (isDigit_toDigits number)
          (isDigit_toDigits other) same
        rw [toDigits_inj digits, ih behind]
  cases numbers with
  | nil =>
    cases others with
    | nil => rfl
    | cons other others => exact absurd same.symm (present other others)
  | cons number numbers =>
    cases others with
    | nil => exact absurd same (present number numbers)
    | cons other others =>
      apply read
      rw [← joined_append_comma, ← joined_append_comma, same]

theorem toList_uniqueName_bitField (type : BitFieldType) :
    (bitField type).uniqueName.toList =
      (type.name.toList ++ '(' :: joined (type.fields.map (·.width.toNat))) ++
        ')' :: Nat.toDigits 10 type.total.bits := by
  simp [BitFieldType.uniqueName, joined, Function.comp_def]

theorem lastSign_bitField (type : BitFieldType) : LastSign (bitField type).uniqueName ')' :=
  ⟨by decide, _, _, toList_uniqueName_bitField type, isDigit_toDigits _⟩

/-- Bit fields of one name have one declared name, fields of the same widths, and one word. -/
theorem bitField_of_uniqueName {type other : BitFieldType}
    (named : (bitField type).uniqueName = (bitField other).uniqueName) :
    type.name = other.name ∧ type.fields.map (·.width) = other.fields.map (·.width) ∧
      type.total = other.total := by
  have texts := congrArg String.toList named
  rw [toList_uniqueName_bitField, toList_uniqueName_bitField] at texts
  obtain ⟨before, -, words⟩ := cut_last (by decide) (by decide) (isDigit_toDigits _)
    (isDigit_toDigits _) texts
  have inside (numbers : List Nat) : ∀ x ∈ joined numbers, (x != '(') = true := by
    intro x present
    rcases mem_joined present with digit | rfl
    · rw [bne_iff_ne]
      rintro rfl
      exact absurd digit (by decide)
    · decide
  obtain ⟨names, -, widths⟩ := cut_last (by decide) (by decide) (inside _) (inside _) before
  have widths := joined_inj widths
  refine ⟨String.toList_inj.mp names, ?_, ?_⟩
  · have fields : (type.fields.map (·.width)).map UInt32.toNat =
        (other.fields.map (·.width)).map UInt32.toNat := by
      simpa [Function.comp_def] using widths
    exact List.map_injective_iff.mpr (fun _ _ => UInt32.toNat_inj.mp) fields
  · revert words
    cases type.total <;> cases other.total <;> decide

end Keys

end Ty

end BinaryLayout
