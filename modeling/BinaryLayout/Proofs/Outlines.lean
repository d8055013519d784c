import BinaryLayout.Proofs.WellFormed

/-!
# Outlines of types

Only the outline of a type shows in its unique name: a struct counts by its name, its
alignment and its size there, and not by its members. Outlines are ordered by what is known
of the targets of references: a common type has the outline of one of its two sides, and
types below a common one form a chain. Well-formed types have their names for themselves
where it matters: no other one is named like the unknown target, so types of one name know
equally much.
-/

namespace BinaryLayout.Ty

/-- A reference whose target is known. -/
def isKnownRef : Ty → Bool
  | ref target _ => !target.isNull
  | _ => false

theorem isKnownRef_eq_true {type : Ty} :
    type.isKnownRef = true ↔ ∃ target width, type = ref target width ∧ target ≠ null := by
  cases type <;> simp [isKnownRef, ← Bool.not_eq_true]

/-- A type where its outline goes no further: what it stores or refers to does not show. -/
def isEnd : Ty → Bool
  | ref .. | array .. | refTable .. => false
  | _ => true

/-- A type with its structs reduced to name, alignment and size. -/
def outline : Ty → Ty
  | ref target width => ref target.outline width
  | array element fixed align => array element.outline fixed align
  | refTable target fixed width => refTable target.outline fixed width
  | struct record => struct ⟨record.name, [], record.align, record.size, .empty, []⟩
  | type => type

@[simp] theorem outline_isEnd (type : Ty) : type.outline.isEnd = type.isEnd := by
  cases type <;> rfl

@[simp] theorem outline_align (type : Ty) : type.outline.align = type.align := by
  cases type <;> rfl

@[simp] theorem outline_isKnownRef (type : Ty) : type.outline.isKnownRef = type.isKnownRef := by
  cases type with
  | ref target width => cases target <;> rfl
  | _ => rfl

@[simp] theorem outline_width? (type : Ty) : type.outline.width? = type.width? := by
  induction type using Ty.induction with
  | array element fixed align ih => rw [outline, width?_array, width?_array, ih]
  | refTable target fixed width ih => rw [outline, width?_refTable, width?_refTable]
  | _ => rfl

@[simp] theorem outline_uniqueName (type : Ty) : type.outline.uniqueName = type.uniqueName := by
  induction type using Ty.induction with
  | ref target width ih => simp only [outline, uniqueName, ih]
  | array element fixed align ih => simp only [outline, uniqueName, ih, outline_align]
  | refTable target fixed width ih => simp only [outline, uniqueName, ih]
  | _ => rfl

/-- Types of one outline have one name. -/
theorem uniqueName_eq_of_outline {a b : Ty} (same : a.outline = b.outline) :
    a.uniqueName = b.uniqueName := by
  rw [← outline_uniqueName a, same, outline_uniqueName]

/-- The second type has the outline of the first one, but it may know targets that the first
    one does not know. -/
def Below : Ty → Ty → Prop
  | ref a v, ref b w => v = w ∧ (a = null ∨ Below a b)
  | array a m p, array b n q => m = n ∧ p = q ∧ Below a b
  | refTable a m v, refTable b n w => m = n ∧ v = w ∧ (a = null ∨ Below a b)
  | a, b => a.outline = b.outline

/-- Of two types, one is below the other. -/
def Comparable (a b : Ty) : Prop :=
  Below a b ∨ Below b a

section Order

attribute [local simp] Below

variable {a b c : Ty}

theorem below_ref {width : RefWidth} :
    a.Below (ref b width) ↔ ∃ target, a = ref target width ∧ (target = null ∨ target.Below b) := by
  cases a <;> simp [outline]

theorem below_array {fixed : Option Nat} {align : Nat} :
    a.Below (array b fixed align) ↔ ∃ element, a = array element fixed align ∧ element.Below b := by
  cases a <;> simp [outline]
  grind

theorem below_refTable {fixed : Option Nat} {width : RefWidth} :
    a.Below (refTable b fixed width) ↔
      ∃ target, a = refTable target fixed width ∧ (target = null ∨ target.Below b) := by
  cases a <;> simp [outline]
  grind

/-- Nothing can be unknown where outlines end. -/
theorem below_end (ends : b.isEnd = true) : a.Below b ↔ a.outline = b.outline := by
  cases b <;> simp [isEnd] at ends <;> simp

theorem end_below (ends : a.isEnd = true) : a.Below b ↔ a.outline = b.outline := by
  cases a <;> simp [isEnd] at ends <;> simp

@[simp] theorem below_null : a.Below null ↔ a = null := by
  cases a <;> simp [outline]

@[simp] theorem null_below : null.Below b ↔ b = null := by
  cases b <;> simp [outline]

/-- A type is below every type of the same outline. -/
theorem below_of_outline (same : a.outline = b.outline) : a.Below b := by
  induction a using Ty.induction generalizing b
  case ref target width ih =>
    cases b <;> simp [outline] at same
    exact ⟨same.2, .inr (ih same.1)⟩
  case array element fixed align ih =>
    cases b <;> simp [outline] at same
    exact ⟨same.2.1, same.2.2, ih same.1⟩
  case refTable target fixed width ih =>
    cases b <;> simp [outline] at same
    exact ⟨same.2.1, same.2.2, .inr (ih same.1)⟩
  all_goals exact (end_below rfl).mpr same

theorem Below.refl (type : Ty) : type.Below type :=
  below_of_outline rfl

theorem Below.trans (first : a.Below b) (second : b.Below c) : a.Below c := by
  induction c using Ty.induction generalizing a b
  case ref target width ih =>
    obtain ⟨middle, rfl, later⟩ := below_ref.mp second
    obtain ⟨source, rfl, earlier⟩ := below_ref.mp first
    rcases earlier with rfl | earlier
    · exact below_ref.mpr ⟨null, rfl, .inl rfl⟩
    · rcases later with rfl | later
      · exact below_ref.mpr ⟨source, rfl, .inl (below_null.mp earlier)⟩
      · exact below_ref.mpr ⟨source, rfl, .inr (ih earlier later)⟩
  case array element fixed align ih =>
    obtain ⟨middle, rfl, later⟩ := below_array.mp second
    obtain ⟨source, rfl, earlier⟩ := below_array.mp first
    exact below_array.mpr ⟨source, rfl, ih earlier later⟩
  case refTable target fixed width ih =>
    obtain ⟨middle, rfl, later⟩ := below_refTable.mp second
    obtain ⟨source, rfl, earlier⟩ := below_refTable.mp first
    rcases earlier with rfl | earlier
    · exact below_refTable.mpr ⟨null, rfl, .inl rfl⟩
    · rcases later with rfl | later
      · exact below_refTable.mpr ⟨source, rfl, .inl (below_null.mp earlier)⟩
      · exact below_refTable.mpr ⟨source, rfl, .inr (ih earlier later)⟩
  all_goals
    have later := (below_end rfl).mp second
    have earlier := (below_end (by rw [← outline_isEnd, later]; rfl)).mp first
    exact (below_end rfl).mpr (earlier.trans later)

/-- Types that are below each other have one outline. -/
theorem Below.antisymm (first : a.Below b) (second : b.Below a) : a.outline = b.outline := by
  induction b using Ty.induction generalizing a
  case ref target width ih =>
    obtain ⟨source, rfl, earlier⟩ := below_ref.mp first
    obtain ⟨-, later⟩ := second
    rcases earlier with rfl | earlier
    · rw [later.elim id below_null.mp]
    · rcases later with rfl | later
      · rw [below_null.mp earlier]
      · rw [outline, outline, ih earlier later]
  case array element fixed align ih =>
    obtain ⟨source, rfl, earlier⟩ := below_array.mp first
    obtain ⟨-, -, later⟩ := second
    rw [outline, outline, ih earlier later]
  case refTable target fixed width ih =>
    obtain ⟨source, rfl, earlier⟩ := below_refTable.mp first
    obtain ⟨-, -, later⟩ := second
    rcases earlier with rfl | earlier
    · rw [later.elim id below_null.mp]
    · rcases later with rfl | later
      · rw [below_null.mp earlier]
      · rw [outline, outline, ih earlier later]
  all_goals exact (below_end rfl).mp first

/-- Types below a common one can be compared. -/
theorem Below.comparable (first : a.Below c) (second : b.Below c) : a.Comparable b := by
  induction c using Ty.induction generalizing a b
  case ref target width ih =>
    obtain ⟨x, rfl, left⟩ := below_ref.mp first
    obtain ⟨y, rfl, right⟩ := below_ref.mp second
    rcases left with rfl | left
    · exact .inl ⟨rfl, .inl rfl⟩
    · rcases right with rfl | right
      · exact .inr ⟨rfl, .inl rfl⟩
      · exact (ih left right).imp (⟨rfl, .inr ·⟩) (⟨rfl, .inr ·⟩)
  case array element fixed align ih =>
    obtain ⟨x, rfl, left⟩ := below_array.mp first
    obtain ⟨y, rfl, right⟩ := below_array.mp second
    exact (ih left right).imp (⟨rfl, rfl, ·⟩) (⟨rfl, rfl, ·⟩)
  case refTable target fixed width ih =>
    obtain ⟨x, rfl, left⟩ := below_refTable.mp first
    obtain ⟨y, rfl, right⟩ := below_refTable.mp second
    rcases left with rfl | left
    · exact .inl ⟨rfl, rfl, .inl rfl⟩
    · rcases right with rfl | right
      · exact .inr ⟨rfl, rfl, .inl rfl⟩
      · exact (ih left right).imp (⟨rfl, rfl, .inr ·⟩) (⟨rfl, rfl, .inr ·⟩)
  all_goals
    have left := (below_end rfl).mp first
    exact .inl (below_of_outline (left.trans ((below_end rfl).mp second).symm))

/-- An unknown target does not show in the alignment. -/
theorem Below.align (below : a.Below b) : a.align = b.align := by
  cases b
  case ref target width => obtain ⟨source, rfl, -⟩ := below_ref.mp below; rfl
  case array element fixed align => obtain ⟨source, rfl, -⟩ := below_array.mp below; rfl
  case refTable target fixed width => obtain ⟨source, rfl, -⟩ := below_refTable.mp below; rfl
  all_goals rw [← outline_align a, (below_end rfl).mp below, outline_align]

/-- An unknown target does not show in the width. -/
theorem Below.width? (below : a.Below b) : a.width? = b.width? := by
  induction b using Ty.induction generalizing a
  case ref target width ih => obtain ⟨source, rfl, -⟩ := below_ref.mp below; rfl
  case array element fixed align ih =>
    obtain ⟨source, rfl, elements⟩ := below_array.mp below
    rw [width?_array, width?_array, ih elements]
  case refTable target fixed width ih =>
    obtain ⟨source, rfl, -⟩ := below_refTable.mp below
    rw [width?_refTable, width?_refTable]
  all_goals rw [← outline_width? a, (below_end rfl).mp below, outline_width?]

/-- A known target stays known. -/
theorem Below.isKnownRef (below : a.Below b) (known : a.isKnownRef = true) :
    b.isKnownRef = true := by
  obtain ⟨target, width, rfl, present⟩ := isKnownRef_eq_true.mp known
  cases b with
  | ref other place =>
    obtain ⟨-, unknown | targets⟩ := below
    · exact absurd unknown present
    · refine isKnownRef_eq_true.mpr ⟨other, place, rfl, ?_⟩
      rintro rfl
      exact present (below_null.mp targets)
  | _ => simp [outline] at below

end Order

/-- The common type of two types has the outline of one of them. -/
theorem merge_outline {a b c : Ty} (merged : a.merge b = .ok c) :
    c.outline = a.outline ∨ c.outline = b.outline := by
  induction a using Ty.induction generalizing b c with
  | int kind => obtain ⟨-, rfl⟩ := merge_int.mp merged; exact .inl rfl
  | char => obtain ⟨-, rfl⟩ := merge_char.mp merged; exact .inl rfl
  | null => obtain ⟨-, rfl⟩ := merge_null.mp merged; exact .inl rfl
  | ref target width ih =>
    obtain ⟨other, common, rfl, targets, rfl⟩ := merge_ref.mp merged
    rcases known_eq_ok.mp targets with ⟨-, rfl⟩ | ⟨-, -, rfl⟩ | ⟨-, -, inner⟩
    · exact .inr rfl
    · exact .inl rfl
    · exact (ih inner).imp (by simp [outline]) (by simp [outline])
  | array element fixed align ih =>
    obtain ⟨other, common, rfl, elements, rfl⟩ := merge_array.mp merged
    rcases unlessSame_eq_ok.mp elements with ⟨-, rfl⟩ | ⟨-, inner⟩
    · exact .inl rfl
    · exact (ih inner).imp (by simp [outline]) (by simp [outline])
  | refTable target fixed width ih =>
    obtain ⟨other, common, rfl, rfl, targets⟩ := merge_refTable.mp merged
    rcases targets with ⟨-, rfl⟩ | ⟨-, targets, -⟩
    · exact .inl rfl
    · rcases known_eq_ok.mp targets with ⟨-, rfl⟩ | ⟨-, -, rfl⟩ | ⟨-, -, inner⟩
      · exact .inr rfl
      · exact .inl rfl
      · exact (ih inner).imp (by simp [outline]) (by simp [outline])
  | bitField type => obtain ⟨-, rfl⟩ := merge_bitField.mp merged; exact .inl rfl
  | bitTable type => obtain ⟨-, rfl⟩ := merge_bitTable.mp merged; exact .inl rfl
  | enum type => obtain ⟨-, rfl⟩ := merge_enum.mp merged; exact .inl rfl
  | struct record ih =>
    obtain ⟨-, -, -, -, -, -, -, rfl⟩ := merge_struct.mp merged
    exact .inl rfl

/-- The same for parts that are merged on demand. -/
theorem unlessSame_outline {a b c : Ty} (merged : unlessSame a.merge a b = .ok c) :
    c.outline = a.outline ∨ c.outline = b.outline := by
  rcases unlessSame_eq_ok.mp merged with ⟨-, rfl⟩ | ⟨-, inner⟩
  · exact .inl rfl
  · exact merge_outline inner

/-- Of the well-formed types only the unknown target is named like it. The others are
    told apart by a character of their names or by the check on declared names. -/
theorem WellFormed.eq_null_of_uniqueName {type : Ty} (sound : type.WellFormed)
    (named : type.uniqueName = "void") : type = Ty.null := by
  have without (c : Char) (absent : c ∉ "void".toList) : c ∉ type.uniqueName.toList :=
    named ▸ absent
  have text (s : String) : toString s = s := rfl
  cases sound with
  | int kind =>
    obtain ⟨isSigned, width⟩ := kind
    cases isSigned <;> cases width <;> exact absurd named (by decide)
  | char => exact absurd named (by decide)
  | null => rfl
  | ref width _ => exact absurd (without '>' (by decide)) (by simp [uniqueName, text])
  | array fixed _ _ _ _ =>
    exact absurd (without '[' (by decide)) (by cases fixed <;> simp [uniqueName, text])
  | refTable fixed width _ _ =>
    exact absurd (without 'R' (by decide)) (by simp [uniqueName, tableEnding, text])
  | bitField _ =>
    exact absurd (without '(' (by decide)) (by simp [uniqueName, BitFieldType.uniqueName, text])
  | bitTable _ => exact absurd (without ':' (by decide)) (by simp [uniqueName])
  | enum declarable => exact absurd named (declarable.ne_keyword (by decide))
  | struct declarable _ _ _ _ => exact absurd named (declarable.ne_keyword (by decide))

/-- References of one unique name and width agree in whether their targets are known. -/
theorem WellFormed.isNull_eq_of_uniqueName {a b : Ty} (first : a.WellFormed)
    (second : b.WellFormed) (named : a.uniqueName = b.uniqueName) : a.isNull = b.isNull := by
  rw [Bool.eq_iff_iff, isNull_eq_true, isNull_eq_true]
  constructor
  · rintro rfl
    exact second.eq_null_of_uniqueName named.symm
  · rintro rfl
    exact first.eq_null_of_uniqueName named

/-- Of well-formed types of one name, neither is strictly below the other: a target that only
    one of them knows would show in the names. -/
theorem WellFormed.outline_eq_of_below {a b : Ty} (first : a.WellFormed) (second : b.WellFormed)
    (below : a.Below b) (named : a.uniqueName = b.uniqueName) : a.outline = b.outline := by
  induction b using Ty.induction generalizing a
  case ref target width ih =>
    obtain ⟨source, rfl, targets⟩ := below_ref.mp below
    cases first with
    | ref _ sound =>
    cases second with
    | ref _ sound' =>
    have targetNames : source.uniqueName = target.uniqueName := by
      simp only [uniqueName, String.append_right_inj] at named
      exact named
    rcases targets with rfl | targets
    · rw [sound'.eq_null_of_uniqueName targetNames.symm]
    · rw [outline, outline, ih sound sound' targets targetNames]
  case array element fixed align ih =>
    obtain ⟨source, rfl, elements⟩ := below_array.mp below
    cases first with
    | array _ sound _ _ _ =>
    cases second with
    | array _ sound' _ _ _ =>
    have elementNames : source.uniqueName = element.uniqueName := by
      simpa only [uniqueName, elements.align, String.append_left_inj] using named
    rw [outline, outline, ih sound sound' elements elementNames]
  case refTable target fixed width ih =>
    obtain ⟨source, rfl, targets⟩ := below_refTable.mp below
    cases first with
    | refTable _ _ sound _ =>
    cases second with
    | refTable _ _ sound' _ =>
    have targetNames : source.uniqueName = target.uniqueName := by
      simpa only [uniqueName, String.append_left_inj] using named
    rcases targets with rfl | targets
    · rw [sound'.eq_null_of_uniqueName targetNames.symm]
    · rw [outline, outline, ih sound sound' targets targetNames]
  all_goals exact (below_end rfl).mp below

end BinaryLayout.Ty
