import BinaryLayout.Proofs.Collisions
import BinaryLayout.Proofs.Joins

/-!
# Sketches of types

Merging looks into two parts only where their names differ, and takes parts of one name for one
part. A sketch keeps what counts then: the references, tables and arrays, and of all other types
their names and alignments. Where types of one name agree in variant, fixed size, alignment and
reference width, they have one sketch. Parts of different names merge only if one of them knows a
target that the other one does not know, and their common type is the one that knows it.
-/

namespace BinaryLayout.Ty

/-- The variants of types. -/
inductive Variant where
  | int | char | null | ref | array | refTable | bitField | bitTable | enum | struct
  deriving DecidableEq

/-- The variant of a type. -/
def variant : Ty → Variant
  | int _ => .int
  | char => .char
  | null => .null
  | ref .. => .ref
  | array .. => .array
  | refTable .. => .refTable
  | bitField _ => .bitField
  | bitTable _ => .bitTable
  | enum _ => .enum
  | struct _ => .struct

/-- The number of elements of an array or a reference table, if it is fixed. -/
def fixed? : Ty → Option Nat
  | array _ fixed _ => fixed
  | refTable _ fixed _ => fixed
  | _ => none

/-- The width of a reference, or of the references in a table. -/
def refWidth? : Ty → Option RefWidth
  | ref _ width => some width
  | refTable _ _ width => some width
  | _ => none

/-- Types are of one variant, with one fixed size, one alignment and one width of references. -/
structure Agrees (a b : Ty) : Prop where
  variant : a.variant = b.variant
  fixed : a.fixed? = b.fixed?
  align : a.align = b.align
  refWidth : a.refWidth? = b.refWidth?

/-- Types agree when they have one name, however deep in the given types they occur. -/
def AgreeByName (types : List Ty) : Prop :=
  ∀ a ∈ types.flatMap tree, ∀ b ∈ types.flatMap tree, a.uniqueName = b.uniqueName → a.Agrees b

instance (a b : Ty) : Decidable (a.Agrees b) :=
  decidable_of_iff
    (a.variant = b.variant ∧ a.fixed? = b.fixed? ∧ a.align = b.align ∧ a.refWidth? = b.refWidth?)
    ⟨fun same => ⟨same.1, same.2.1, same.2.2.1, same.2.2.2⟩,
      fun agrees => ⟨agrees.variant, agrees.fixed, agrees.align, agrees.refWidth⟩⟩

instance (types : List Ty) : Decidable (AgreeByName types) :=
  inferInstanceAs (Decidable (∀ a ∈ types.flatMap tree, ∀ b ∈ types.flatMap tree,
    a.uniqueName = b.uniqueName → a.Agrees b))

theorem Agrees.refl (type : Ty) : type.Agrees type :=
  ⟨rfl, rfl, rfl, rfl⟩

/-- The types within some types, and references to them. -/
inductive Occurs (types : List Ty) : Ty → Prop
  | null : Occurs types null
  | within {type : Ty} (inside : type ∈ types.flatMap tree) : Occurs types type
  | refTo {target : Ty} (width : RefWidth) (before : Occurs types target) :
      Occurs types (ref target width)

namespace Occurs

variable {types : List Ty} {type part : Ty} {fixed : Option Nat} {align : Nat} {width : RefWidth}

/-- What a type contains occurs with it. -/
theorem contained (inside : type ∈ types.flatMap tree) (present : part ∈ type.contained) :
    Occurs types part := by
  obtain ⟨root, among, deep⟩ := List.mem_flatMap.mp inside
  have near : part ∈ type.tree := mem_tree_of_contained present part.self_mem_tree
  exact .within (List.mem_flatMap.mpr ⟨root, among, tree_trans near deep⟩)

/-- A target occurs with the type that refers to it: as a part of it, or as the unknown one. -/
theorem target (inside : type ∈ types.flatMap tree)
    (refers : type.contained = if part.isNull then [] else [part]) : Occurs types part := by
  cases unknown : part.isNull with
  | true => exact isNull_eq_true.mp unknown ▸ .null
  | false => exact contained inside (by simp [refers, unknown])

theorem of_ref (occurs : Occurs types (ref part width)) : Occurs types part := by
  cases occurs with
  | within inside => exact target inside rfl
  | refTo _ before => exact before

theorem of_array (occurs : Occurs types (array part fixed align)) : Occurs types part := by
  cases occurs with
  | within inside => exact contained inside List.mem_cons_self

theorem of_refTable (occurs : Occurs types (refTable part fixed width)) : Occurs types part := by
  cases occurs with
  | within inside => exact target inside rfl

/-- What occurs in built types is built. -/
theorem built (roots : ∀ type ∈ types, type.Built) (occurs : Occurs types type) : type.Built := by
  induction occurs with
  | null => exact .null
  | within inside =>
    obtain ⟨root, among, deep⟩ := List.mem_flatMap.mp inside
    exact .part (roots root among) deep
  | refTo width _ ih => exact .ref width ih

/-- Of the types that occur, all but references and the unknown target are within the given
    ones. -/
theorem inside (occurs : Occurs types type) (direct : type.isRef = false)
    (known : type.isNull = false) : type ∈ types.flatMap tree := by
  cases occurs with
  | null => simp [isNull] at known
  | within inside => exact inside
  | refTo width _ => simp [isRef] at direct

/-- The agreement extends to the references that are put on top: only references are named like
    references, and their names tell their widths. -/
theorem agrees (roots : ∀ type ∈ types, type.Built) (agree : AgreeByName types)
    (first : Occurs types type) (second : Occurs types part)
    (named : type.uniqueName = part.uniqueName) : type.Agrees part := by
  have built := first.built roots
  have built' := second.built roots
  have refs : type.isRef = part.isRef := by
    rw [Bool.eq_iff_iff, ← arrow_mem_iff built.wellFormed (built.throughout nameDeclarable_law),
      ← arrow_mem_iff built'.wellFormed (built'.throughout nameDeclarable_law), named]
  have nulls := built.wellFormed.isNull_eq_of_uniqueName built'.wellFormed named
  cases direct : part.isRef with
  | true =>
    obtain ⟨other, width', rfl⟩ := isRef_eq_true.mp direct
    obtain ⟨target, width, rfl⟩ := isRef_eq_true.mp (refs.trans direct)
    obtain ⟨rfl, -⟩ := ref_of_uniqueName named
    exact ⟨rfl, rfl, rfl, rfl⟩
  | false =>
    cases known : part.isNull with
    | true =>
      rw [isNull_eq_true.mp known, isNull_eq_true.mp (nulls.trans known)]
      exact .refl _
    | false =>
      exact agree _ (first.inside (refs.trans direct) (nulls.trans known)) _
        (second.inside direct known) named

end Occurs

/-- A type with everything reduced to name and alignment that is no reference, table or array. -/
def sketch : Ty → Ty
  | null => null
  | ref target width => ref target.sketch width
  | array element fixed align => array element.sketch fixed align
  | refTable target fixed width => refTable target.sketch fixed width
  | type => struct ⟨type.uniqueName, [], type.align, none, .empty, []⟩

section Sketches

variable {a b : Ty}

@[simp] theorem sketch_align (type : Ty) : type.sketch.align = type.align := by
  cases type <;> rfl

@[simp] theorem sketch_uniqueName (type : Ty) : type.sketch.uniqueName = type.uniqueName := by
  induction type using Ty.induction with
  | ref target width ih => simp only [sketch, uniqueName, ih]
  | array element fixed align ih => simp only [sketch, uniqueName, ih, sketch_align]
  | refTable target fixed width ih => simp only [sketch, uniqueName, ih]
  | _ => rfl

@[simp] theorem sketch_outline (type : Ty) : type.sketch.outline = type.sketch := by
  induction type using Ty.induction with
  | ref target width ih => simp only [sketch, outline, ih]
  | array element fixed align ih => simp only [sketch, outline, ih]
  | refTable target fixed width ih => simp only [sketch, outline, ih]
  | _ => rfl

@[simp] theorem sketch_eq_null : a.sketch = null ↔ a = null := by
  cases a <;> simp [sketch]

/-- Types of one sketch have one name. -/
theorem uniqueName_of_sketch (same : a.sketch = b.sketch) : a.uniqueName = b.uniqueName := by
  rw [← sketch_uniqueName a, same, sketch_uniqueName]

/-- The second type has the sketch of the first one, but it may know targets that the first one
    does not know. -/
def SketchBelow (a b : Ty) : Prop :=
  a.sketch.Below b.sketch

theorem SketchBelow.of_eq (same : a.sketch = b.sketch) : a.SketchBelow b :=
  below_of_outline (by rw [same])

/-- Types that are below each other have one sketch. -/
theorem SketchBelow.antisymm (first : a.SketchBelow b) (second : b.SketchBelow a) :
    a.sketch = b.sketch := by
  simpa using Below.antisymm first second

end Sketches

/-- Types in which the name tells the sketch, with all their targets and elements. -/
structure Legible (parts : Ty → Prop) : Prop where
  sound : ∀ {type : Ty}, parts type → type.WellFormed
  of_ref : ∀ {target : Ty} {width : RefWidth}, parts (ref target width) → parts target
  of_array : ∀ {element : Ty} {fixed : Option Nat} {align : Nat},
    parts (array element fixed align) → parts element
  of_refTable : ∀ {target : Ty} {fixed : Option Nat} {width : RefWidth},
    parts (refTable target fixed width) → parts target
  sketch_eq : ∀ {a b : Ty}, parts a → parts b → a.uniqueName = b.uniqueName → a.sketch = b.sketch

/-- Of types that agree by name, the name tells the sketch. -/
theorem Occurs.sketch_eq {types : List Ty} {a b : Ty} (roots : ∀ type ∈ types, type.Built)
    (agree : AgreeByName types) (first : Occurs types a) (second : Occurs types b)
    (named : a.uniqueName = b.uniqueName) : a.sketch = b.sketch := by
  induction a using Ty.induction generalizing b with
  | ref target width ih =>
    have alike := (first.agrees roots agree second named).variant
    cases b with
    | ref other width' =>
      obtain ⟨rfl, targets⟩ := ref_of_uniqueName named
      rw [sketch, sketch, ih first.of_ref second.of_ref targets]
    | _ => simp [variant] at alike
  | array element fixed align ih =>
    have alike := first.agrees roots agree second named
    cases b with
    | array other fixed' align' =>
      obtain ⟨rfl, elements, -⟩ := array_of_uniqueName named
      obtain rfl : align = align' := alike.align
      rw [sketch, sketch, ih first.of_array second.of_array elements]
    | _ => simpa [variant] using alike.variant
  | refTable target fixed width ih =>
    have alike := first.agrees roots agree second named
    cases b with
    | refTable other fixed' width' =>
      obtain rfl : fixed = fixed' := alike.fixed
      obtain ⟨rfl, ⟨-, targets⟩ | ⟨count, rfl, absent, -⟩ | ⟨count, rfl, absent, -⟩⟩ :=
        refTable_of_uniqueName named
      · rw [sketch, sketch, ih first.of_refTable second.of_refTable targets]
      · simp at absent
      · simp at absent
    | _ => simpa [variant] using alike.variant
  | null =>
    have alike := (first.agrees roots agree second named).variant
    cases b <;> simp [variant] at alike
    rfl
  | _ =>
    have alike := first.agrees roots agree second named
    have aligns := alike.align
    have variants := alike.variant
    cases b <;> simp only [variant, reduceCtorEq] at variants
    simp only [sketch, named, aligns]

/-- What occurs in built types that agree by name can be read off its name. -/
theorem legible_occurs {types : List Ty} (roots : ∀ type ∈ types, type.Built)
    (agree : AgreeByName types) : Legible (Occurs types) where
  sound occurs := (occurs.built roots).wellFormed
  of_ref := Occurs.of_ref
  of_array := Occurs.of_array
  of_refTable := Occurs.of_refTable
  sketch_eq := Occurs.sketch_eq roots agree

section Parts

variable {parts : Ty → Prop} {a b c : Ty}

/-- The common type is the one of the two types that the other one is below. -/
def PicksUpper (a b c : Ty) : Prop :=
  c = a ∧ b.SketchBelow a ∨ c = b ∧ a.SketchBelow b

namespace PicksUpper

variable {d : Ty}

theorem upper (picks : PicksUpper a b c) : a.SketchBelow c ∧ b.SketchBelow c := by
  rcases picks with ⟨rfl, below⟩ | ⟨rfl, below⟩
  · exact ⟨.of_eq rfl, below⟩
  · exact ⟨below, .of_eq rfl⟩

theorem least (picks : PicksUpper a b c) (first : a.SketchBelow d) (second : b.SketchBelow d) :
    c.SketchBelow d := by
  rcases picks with ⟨rfl, -⟩ | ⟨rfl, -⟩
  · exact first
  · exact second

theorem keeps (picks : PicksUpper a b c) (first : parts a) (second : parts b) : parts c := by
  rcases picks with ⟨rfl, -⟩ | ⟨rfl, -⟩
  · exact first
  · exact second

end PicksUpper

/-- Targets of different names have one of the two as their common target: the known one, or the
    one that merging picks. -/
theorem known_picks (picks : a.merge b = .ok c → PicksUpper a b c)
    (merged : known a.merge a b = .ok c) :
    c = a ∧ (b = null ∨ b.SketchBelow a) ∨ c = b ∧ (a = null ∨ a.SketchBelow b) := by
  rcases known_eq_ok.mp merged with ⟨rfl, rfl⟩ | ⟨-, rfl, rfl⟩ | ⟨-, -, inner⟩
  · exact .inr ⟨rfl, .inl rfl⟩
  · exact .inl ⟨rfl, .inl rfl⟩
  · exact (picks inner).imp (And.imp_right .inr) (And.imp_right .inr)

/-- Parts of different names merge into one of them. -/
theorem merge_picks (legible : Legible parts) (first : parts a) (second : parts b)
    (differ : a.uniqueName ≠ b.uniqueName) (merged : a.merge b = .ok c) : PicksUpper a b c := by
  induction a using Ty.induction generalizing b c with
  | ref target width ih =>
    obtain ⟨other, common, rfl, targets, rfl⟩ := merge_ref.mp merged
    have names : target.uniqueName ≠ other.uniqueName := fun same =>
      differ (by simp only [uniqueName, same])
    rcases known_picks (ih (legible.of_ref first) (legible.of_ref second) names) targets with
      ⟨rfl, below⟩ | ⟨rfl, below⟩
    · exact .inl ⟨rfl, rfl, below.imp_left sketch_eq_null.mpr⟩
    · exact .inr ⟨rfl, rfl, below.imp_left sketch_eq_null.mpr⟩
  | array element fixed align ih =>
    obtain ⟨other, common, rfl, elements, rfl⟩ := merge_array.mp merged
    have first := legible.of_array first
    have second := legible.of_array second
    rcases unlessSame_eq_ok.mp elements with ⟨names, rfl⟩ | ⟨names, inner⟩
    · have same := legible.sketch_eq second first names.symm
      exact .inl ⟨rfl, rfl, rfl, SketchBelow.of_eq same⟩
    · rcases ih first second names inner with ⟨rfl, below⟩ | ⟨rfl, below⟩
      · exact .inl ⟨rfl, rfl, rfl, below⟩
      · exact .inr ⟨rfl, rfl, rfl, below⟩
  | refTable target fixed width ih =>
    obtain ⟨other, common, rfl, rfl, targets⟩ := merge_refTable.mp merged
    rcases targets with ⟨names, -⟩ | ⟨names, targets, -⟩
    -- Tables of targets of one name would have one name themselves.
    · exact absurd (by simp only [uniqueName, names]) differ
    · rcases known_picks (ih (legible.of_refTable first) (legible.of_refTable second) names)
        targets with ⟨rfl, below⟩ | ⟨rfl, below⟩
      · exact .inl ⟨rfl, rfl, rfl, below.imp_left sketch_eq_null.mpr⟩
      · exact .inr ⟨rfl, rfl, rfl, below.imp_left sketch_eq_null.mpr⟩
  | int kind => obtain ⟨rfl, -⟩ := merge_int.mp merged; exact absurd rfl differ
  | char => obtain ⟨rfl, -⟩ := merge_char.mp merged; exact absurd rfl differ
  | null => obtain ⟨rfl, -⟩ := merge_null.mp merged; exact absurd rfl differ
  | bitField type => obtain ⟨rfl, -⟩ := merge_bitField.mp merged; exact absurd rfl differ
  | bitTable type => obtain ⟨rfl, -⟩ := merge_bitTable.mp merged; exact absurd rfl differ
  | enum type => obtain ⟨rfl, -⟩ := merge_enum.mp merged; exact absurd rfl differ
  | struct record _ =>
    obtain ⟨other, -, rfl, named, -⟩ := merge_struct.mp merged
    exact absurd named differ

/-- Parts that are merged on demand have one of them as their common type. -/
theorem unlessSame_picks (legible : Legible parts) (first : parts a) (second : parts b)
    (merged : unlessSame a.merge a b = .ok c) : PicksUpper a b c := by
  rcases unlessSame_eq_ok.mp merged with ⟨named, rfl⟩ | ⟨differ, inner⟩
  · exact .inl ⟨rfl, .of_eq (legible.sketch_eq second first named.symm)⟩
  · exact merge_picks legible first second differ inner

theorem sketchBelow_ref {width : RefWidth} : a.SketchBelow (ref b width) ↔
    ∃ target, a = ref target width ∧ (target = null ∨ target.SketchBelow b) := by
  cases a <;> simp [SketchBelow, sketch, Below, outline]

theorem sketchBelow_array {fixed : Option Nat} {align : Nat} :
    a.SketchBelow (array b fixed align) ↔
      ∃ element, a = array element fixed align ∧ element.SketchBelow b := by
  cases a <;> simp [SketchBelow, sketch, Below, outline]
  grind

theorem sketchBelow_refTable {fixed : Option Nat} {width : RefWidth} :
    a.SketchBelow (refTable b fixed width) ↔
      ∃ target, a = refTable target fixed width ∧ (target = null ∨ target.SketchBelow b) := by
  cases a <;> simp [SketchBelow, sketch, Below, outline]
  grind

/-- Nothing can be unknown where outlines end. -/
theorem SketchBelow.eq_of_end (below : a.SketchBelow b) (ends : b.isEnd = true) :
    a.sketch = b.sketch := by
  have ends : b.sketch.isEnd = true := by rw [← ends]; cases b <;> rfl
  simpa using (below_end ends).mp below

/-- A target that knows more takes in the other one, whichever comes first. -/
theorem known_of_sketchBelow (takes : a.SketchBelow b → a.merge b = .ok b ∧ b.merge a = .ok b)
    (below : a = null ∨ a.SketchBelow b) :
    known a.merge a b = .ok b ∧ known b.merge b a = .ok b := by
  cases unknown : a.isNull with
  | true =>
    obtain rfl := isNull_eq_true.mp unknown
    exact ⟨rfl, known_null_right b.merge b⟩
  | false =>
    have below : a.SketchBelow b := below.resolve_left (by rintro rfl; simp [isNull] at unknown)
    cases unknown' : b.isNull with
    | true =>
      obtain rfl := isNull_eq_true.mp unknown'
      obtain rfl : a = null := sketch_eq_null.mp (below_null.mp below)
      simp [isNull] at unknown
    | false =>
      obtain ⟨forth, back⟩ := takes below
      exact ⟨known_eq_ok.mpr (.inr (.inr ⟨unknown, unknown', forth⟩)), known_of_merge back⟩

/-- Of two parts of different names, the one that knows more takes in the other one, whichever
    comes first. -/
theorem merge_of_sketchBelow (first : a.WellFormed) (second : b.WellFormed)
    (below : a.SketchBelow b) (differ : a.uniqueName ≠ b.uniqueName) :
    a.merge b = .ok b ∧ b.merge a = .ok b := by
  induction b using Ty.induction generalizing a with
  | ref target width ih =>
    obtain ⟨other, rfl, targets⟩ := sketchBelow_ref.mp below
    cases first with
    | ref _ sound =>
    cases second with
    | ref _ sound' =>
    have names : other.uniqueName ≠ target.uniqueName := fun same =>
      differ (by simp only [uniqueName, same])
    obtain ⟨forth, back⟩ :=
      known_of_sketchBelow (fun inner => ih sound sound' inner names) targets
    exact ⟨merge_ref.mpr ⟨target, target, rfl, forth, rfl⟩,
      merge_ref.mpr ⟨other, target, rfl, back, rfl⟩⟩
  | array element fixed align ih =>
    obtain ⟨other, rfl, elements⟩ := sketchBelow_array.mp below
    cases first with
    | array _ sound _ _ _ =>
    cases second with
    | array _ sound' _ _ _ =>
    -- What is unknown does not show in the alignment, so it is the elements that differ by name.
    have aligns : other.align = element.align := by simpa using elements.align
    have names : other.uniqueName ≠ element.uniqueName := fun same =>
      differ (by simp only [uniqueName, same, aligns])
    obtain ⟨forth, back⟩ := ih sound sound' elements names
    exact ⟨merge_array.mpr ⟨element, element, rfl, unlessSame_eq_ok.mpr (.inr ⟨names, forth⟩), rfl⟩,
      merge_array.mpr ⟨other, element, rfl, unlessSame_of_merge back, rfl⟩⟩
  | refTable target fixed width ih =>
    obtain ⟨other, rfl, targets⟩ := sketchBelow_refTable.mp below
    cases first with
    | refTable _ _ sound direct =>
    cases second with
    | refTable _ _ sound' direct' =>
    have names : other.uniqueName ≠ target.uniqueName := fun same =>
      differ (by simp only [uniqueName, same])
    obtain ⟨forth, back⟩ :=
      known_of_sketchBelow (fun inner => ih sound sound' inner names) targets
    exact ⟨merge_refTable.mpr ⟨target, target, rfl, rfl, .inr ⟨names, forth, direct'⟩⟩,
      merge_refTable.mpr ⟨other, target, rfl, rfl, .inr ⟨names.symm, back, direct'⟩⟩⟩
  | _ => exact absurd (uniqueName_of_sketch (below.eq_of_end rfl)) differ

/-- A part takes in every part that is below it. -/
theorem unlessSame_of_sketchBelow (first : a.WellFormed) (second : b.WellFormed)
    (below : a.SketchBelow b) : unlessSame b.merge b a = .ok b := by
  by_cases named : a.uniqueName = b.uniqueName
  · exact unlessSame_eq_ok.mpr (.inl ⟨named.symm, rfl⟩)
  · exact unlessSame_of_merge (merge_of_sketchBelow first second below named).2

/-- Parts below a third one have a common type. -/
theorem exists_unlessSame_below (first : a.WellFormed) (second : b.WellFormed)
    (below : a.SketchBelow c) (below' : b.SketchBelow c) :
    ∃ d, unlessSame a.merge a b = .ok d := by
  by_cases named : a.uniqueName = b.uniqueName
  · exact ⟨a, unlessSame_eq_ok.mpr (.inl ⟨named, rfl⟩)⟩
  · refine exists_unlessSame ?_
    rcases Below.comparable below below' with forth | back
    · exact ⟨b, (merge_of_sketchBelow first second forth named).1⟩
    · exact ⟨a, (merge_of_sketchBelow second first back (Ne.symm named)).2⟩

end Parts
end BinaryLayout.Ty
