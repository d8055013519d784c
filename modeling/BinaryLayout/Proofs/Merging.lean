import BinaryLayout.Proofs.Success
import BinaryLayout.Ty.Merge
import Mathlib.Data.List.Forall2

/-!
# What merging accepts and keeps

Every law here opens `Ty.merge` for one shape of its first type: which second types
it accepts, and which type it returns. Further proofs about merging are inductions
over the first type that use these laws and never the definition. A merged type is
stored exactly as the first one: width, alignment and place are its own.
-/

namespace BinaryLayout

/-- Where a member stands, and under which name. -/
def Member.place {τ : Type} (member : Member τ) : String × Nat :=
  (member.name, member.offset)

namespace Ty

@[simp] theorem isNull_eq_true {type : Ty} : type.isNull = true ↔ type = null := by
  cases type <;> simp [isNull]

/-- An unknown target gives way to the other one; two known ones are merged. -/
theorem known_eq_ok {merge : Ty → Except LayoutError Ty} {a b c : Ty} :
    known merge a b = .ok c ↔
      (a = null ∧ c = b) ∨ (a.isNull = false ∧ b = null ∧ c = a) ∨
        (a.isNull = false ∧ b.isNull = false ∧ merge b = .ok c) := by
  cases a <;> cases b <;> simp [known, isNull, eq_comm]

/-- Parts of one unique name are not looked into. -/
theorem unlessSame_eq_ok {merge : Ty → Except LayoutError Ty} {a b c : Ty} :
    unlessSame merge a b = .ok c ↔
      (a.uniqueName = b.uniqueName ∧ c = a) ∨
        (a.uniqueName ≠ b.uniqueName ∧ merge b = .ok c) := by
  by_cases same : a.uniqueName = b.uniqueName <;> simp [unlessSame, same, eq_comm]

section Shapes

attribute [local simp] merge conflict

variable {b c : Ty}

theorem merge_int {kind : IntKind} :
    (int kind).merge b = .ok c ↔ b = int kind ∧ c = int kind := by
  cases b with
  | int other => simp only [merge, conflict]; grind
  | _ => simp

theorem merge_char : char.merge b = .ok c ↔ b = char ∧ c = char := by
  cases b <;> simp [eq_comm]

theorem merge_null : null.merge b = .ok c ↔ b = null ∧ c = null := by
  cases b <;> simp [eq_comm]

theorem merge_ref {a : Ty} {width : RefWidth} :
    (ref a width).merge b = .ok c ↔
      ∃ target merged, b = ref target width ∧ known a.merge a target = .ok merged ∧
        c = ref merged width := by
  cases b with
  | ref target other => simp only [merge, conflict]; grind [map_eq_ok]
  | _ => simp

theorem merge_array {a : Ty} {fixed : Option Nat} {align : Nat} :
    (array a fixed align).merge b = .ok c ↔
      ∃ element merged, b = array element fixed align ∧
        unlessSame a.merge a element = .ok merged ∧ c = array merged fixed align := by
  cases b with
  | array element other place => simp only [merge, conflict]; grind [map_eq_ok]
  | _ => simp

/-- Tables of targets that share a unique name are taken as they are; other targets
    must merge into something that is no reference. -/
theorem merge_refTable {a : Ty} {fixed : Option Nat} {width : RefWidth} :
    (refTable a fixed width).merge b = .ok c ↔
      ∃ target merged, b = refTable target fixed width ∧ c = refTable merged fixed width ∧
        ((a.uniqueName = target.uniqueName ∧ merged = a) ∨
          (a.uniqueName ≠ target.uniqueName ∧ known a.merge a target = .ok merged ∧
            merged.isRef = false)) := by
  cases b with
  | refTable target other place =>
    simp only [merge, conflict, refTableOf, refuse]
    grind [bind_eq_ok]
  | _ => simp

theorem merge_bitField {type : BitFieldType} :
    (bitField type).merge b = .ok c ↔ b = bitField type ∧ c = bitField type := by
  cases b with
  | bitField other =>
    cases type
    cases other
    simp only [merge, conflict]
    grind
  | _ => simp

theorem merge_bitTable {type : BitTableType} :
    (bitTable type).merge b = .ok c ↔ b = bitTable type ∧ c = bitTable type := by
  cases b with
  | bitTable other => simp only [merge, conflict]; grind
  | _ => simp

theorem merge_enum {type : Enumeration} :
    (enum type).merge b = .ok c ↔ b = enum type ∧ c = enum type := by
  cases b with
  | enum other => simp only [merge, conflict]; grind
  | _ => simp

/-- Structs keep everything of the first one except the types of its members. -/
theorem merge_struct {record : Record Ty} :
    (struct record).merge b = .ok c ↔
      ∃ other members, b = struct other ∧ record.name = other.name ∧ record.size = other.size ∧
        record.members.map (·.name) = other.members.map (·.name) ∧
        mergeMembers record.members other.members = .ok members ∧
        c = struct { record with members } := by
  cases record
  cases b with
  | struct other => simp only [merge, conflict]; grind [map_eq_ok]
  | _ => simp

/-- The first members are merged, then the ones behind them. -/
theorem mergeMembers_cons {a b : Member Ty} {as bs members : List (Member Ty)} :
    mergeMembers (a :: as) (b :: bs) = .ok members ↔
      ∃ content rest, unlessSame a.content.merge a.content b.content = .ok content ∧
        mergeMembers as bs = .ok rest ∧ members = { a with content } :: rest := by
  simp only [mergeMembers, bind_eq_ok, pure, Except.pure]
  grind

@[simp] theorem mergeMembers_nil {bs : List (Member Ty)} : mergeMembers [] bs = .ok [] := by
  simp [mergeMembers]

/-- Only the unknown type merges with the unknown type. -/
theorem merge_null_right {a : Ty} : a.merge null = .ok c ↔ a = null ∧ c = null := by
  cases a <;> simp [eq_comm]

end Shapes

/-- Values of two types take equally many bytes, at the same alignment, and both or
    neither are stored in place. -/
structure StoredAlike (a b : Ty) : Prop where
  width : a.width? = b.width?
  align : a.align = b.align
  inPlace : a.isInPlace = b.isInPlace

namespace StoredAlike

theorem refl (a : Ty) : StoredAlike a a :=
  ⟨rfl, rfl, rfl⟩

theorem symm {a b : Ty} (alike : StoredAlike a b) : StoredAlike b a :=
  ⟨alike.width.symm, alike.align.symm, alike.inPlace.symm⟩

theorem trans {a b c : Ty} (first : StoredAlike a b) (second : StoredAlike b c) :
    StoredAlike a c :=
  ⟨first.width.trans second.width, first.align.trans second.align,
    first.inPlace.trans second.inPlace⟩

/-- Arrays of alike elements are alike. -/
theorem array {a b : Ty} (alike : StoredAlike a b) (fixed : Option Nat) (align : Nat) :
    StoredAlike (.array a fixed align) (.array b fixed align) :=
  ⟨by rw [width?_array, width?_array, alike.width], rfl, rfl⟩

/-- Tables of references are alike whatever they refer to. -/
theorem refTable (a b : Ty) (fixed : Option Nat) (width : RefWidth) :
    StoredAlike (.refTable a fixed width) (.refTable b fixed width) :=
  ⟨by rw [width?_refTable, width?_refTable], rfl, rfl⟩

end StoredAlike

/-- Part by part, the second list has the names and offsets of the first and contents
    stored like its. -/
def LaidAlike (as bs : List (Member Ty)) : Prop :=
  List.Forall₂ (fun a b => a.name = b.name ∧ a.offset = b.offset ∧
    StoredAlike a.content b.content) as bs

/-- Members that are laid alike have the same names and offsets. -/
theorem LaidAlike.places {as bs : List (Member Ty)} (alike : LaidAlike as bs) :
    as.map Member.place = bs.map Member.place := by
  induction alike with
  | nil => rfl
  | cons first _ ih => simp [Member.place, first.1, first.2.1, ih]

/-- A merged type is stored like the first one. -/
theorem merge_storedAlike {a b c : Ty} (merged : a.merge b = .ok c) : StoredAlike c a := by
  induction a using Ty.induction generalizing b c with
  | int kind => obtain ⟨-, rfl⟩ := merge_int.mp merged; exact .refl _
  | char => obtain ⟨-, rfl⟩ := merge_char.mp merged; exact .refl _
  | null => obtain ⟨-, rfl⟩ := merge_null.mp merged; exact .refl _
  | ref target width ih =>
    obtain ⟨-, -, -, -, rfl⟩ := merge_ref.mp merged
    exact ⟨rfl, rfl, rfl⟩
  | array element fixed align ih =>
    obtain ⟨other, kept, rfl, part, rfl⟩ := merge_array.mp merged
    rcases unlessSame_eq_ok.mp part with ⟨-, rfl⟩ | ⟨-, inner⟩
    · exact .refl _
    · exact (ih inner).array fixed align
  | refTable target fixed width ih =>
    obtain ⟨-, -, -, rfl, -⟩ := merge_refTable.mp merged
    exact .refTable _ _ fixed width
  | bitField type => obtain ⟨-, rfl⟩ := merge_bitField.mp merged; exact .refl _
  | bitTable type => obtain ⟨-, rfl⟩ := merge_bitTable.mp merged; exact .refl _
  | enum type => obtain ⟨-, rfl⟩ := merge_enum.mp merged; exact .refl _
  | struct record ih =>
    obtain ⟨-, -, -, -, -, -, -, rfl⟩ := merge_struct.mp merged
    exact ⟨rfl, rfl, rfl⟩

/-- A part that is merged on demand is stored like the first one. -/
theorem unlessSame_storedAlike {a b c : Ty} (merged : unlessSame a.merge a b = .ok c) :
    StoredAlike c a := by
  rcases unlessSame_eq_ok.mp merged with ⟨-, rfl⟩ | ⟨-, inner⟩
  · exact .refl _
  · exact merge_storedAlike inner

/-- Merged members stand where the first ones stood. -/
theorem mergeMembers_laidAlike {as bs members : List (Member Ty)}
    (merged : mergeMembers as bs = .ok members)
    (names : as.map (·.name) = bs.map (·.name)) : LaidAlike members as := by
  induction as generalizing bs members with
  | nil => simp_all [LaidAlike]
  | cons a as ih =>
    cases bs with
    | nil => simp at names
    | cons b bs =>
      obtain ⟨content, rest, part, later, rfl⟩ := mergeMembers_cons.mp merged
      have names : as.map (·.name) = bs.map (·.name) := by simp_all
      exact List.Forall₂.cons ⟨rfl, rfl, unlessSame_storedAlike part⟩ (ih later names)

/-- Every merged member comes from the pair of members at its place. -/
theorem mergeMembers_getElem? {as bs members : List (Member Ty)} {index : Nat}
    {member : Member Ty} (merged : mergeMembers as bs = .ok members)
    (names : as.map (·.name) = bs.map (·.name)) (found : members[index]? = some member) :
    ∃ a b, as[index]? = some a ∧ bs[index]? = some b ∧
      unlessSame a.content.merge a.content b.content = .ok member.content := by
  induction as generalizing bs members index with
  | nil => simp_all
  | cons a as ih =>
    cases bs with
    | nil => simp at names
    | cons b bs =>
      obtain ⟨content, rest, part, later, rfl⟩ := mergeMembers_cons.mp merged
      cases index with
      | zero =>
        obtain rfl : { a with content } = member := by simpa using found
        exact ⟨a, b, rfl, rfl, part⟩
      | succ index => simpa using ih later (by simp_all) (by simpa using found)

/-- Every merged member comes from a pair of members. -/
theorem mergeMembers_mem {as bs members : List (Member Ty)}
    (merged : mergeMembers as bs = .ok members) (names : as.map (·.name) = bs.map (·.name)) :
    ∀ member ∈ members, ∃ a ∈ as, ∃ b ∈ bs,
      unlessSame a.content.merge a.content b.content = .ok member.content := by
  intro member present
  obtain ⟨index, found⟩ := List.mem_iff_getElem?.mp present
  obtain ⟨a, b, ina, inb, part⟩ := mergeMembers_getElem? merged names found
  exact ⟨a, List.mem_of_getElem? ina, b, List.mem_of_getElem? inb, part⟩

/-- What holds of every pair of members that is merged holds of the members in order. -/
theorem mergeMembers_pairs {R : Member Ty → Member Ty → Prop} {as bs members : List (Member Ty)}
    (merged : mergeMembers as bs = .ok members) (names : as.map (·.name) = bs.map (·.name))
    (each : ∀ a ∈ as, ∀ b ∈ bs, ∀ c,
      unlessSame a.content.merge a.content b.content = .ok c → R a b) : List.Forall₂ R as bs := by
  induction as generalizing bs members with
  | nil => simp_all
  | cons a as ih =>
    cases bs with
    | nil => simp at names
    | cons b bs =>
      obtain ⟨content, rest, part, later, rfl⟩ := mergeMembers_cons.mp merged
      simp only [List.forall_mem_cons] at each
      exact .cons (each.1.1 content part)
        (ih later (by simp_all) fun x inRest y inRest' => (each.2 x inRest).2 y inRest')

/-- References only merge with references, into references. -/
theorem merge_isRef {a b c : Ty} (merged : a.merge b = .ok c) :
    b.isRef = a.isRef ∧ c.isRef = a.isRef := by
  cases a with
  | int kind => obtain ⟨rfl, rfl⟩ := merge_int.mp merged; simp
  | char => obtain ⟨rfl, rfl⟩ := merge_char.mp merged; simp
  | null => obtain ⟨rfl, rfl⟩ := merge_null.mp merged; simp
  | ref target width => obtain ⟨-, -, rfl, -, rfl⟩ := merge_ref.mp merged; simp [isRef]
  | array element fixed align => obtain ⟨-, -, rfl, -, rfl⟩ := merge_array.mp merged; simp [isRef]
  | refTable target fixed width =>
    obtain ⟨-, -, rfl, rfl, -⟩ := merge_refTable.mp merged
    simp [isRef]
  | bitField type => obtain ⟨rfl, rfl⟩ := merge_bitField.mp merged; simp
  | bitTable type => obtain ⟨rfl, rfl⟩ := merge_bitTable.mp merged; simp
  | enum type => obtain ⟨rfl, rfl⟩ := merge_enum.mp merged; simp
  | struct record =>
    obtain ⟨-, -, rfl, -, -, -, -, rfl⟩ := merge_struct.mp merged
    simp [isRef]

/-- Types only merge when both or neither are stored in place. -/
theorem merge_isInPlace {a b c : Ty} (merged : a.merge b = .ok c) :
    b.isInPlace = a.isInPlace := by
  cases a with
  | int kind => obtain ⟨rfl, -⟩ := merge_int.mp merged; rfl
  | char => obtain ⟨rfl, -⟩ := merge_char.mp merged; rfl
  | null => obtain ⟨rfl, -⟩ := merge_null.mp merged; rfl
  | ref target width => obtain ⟨-, -, rfl, -, -⟩ := merge_ref.mp merged; rfl
  | array element fixed align => obtain ⟨-, -, rfl, -, -⟩ := merge_array.mp merged; rfl
  | refTable target fixed width => obtain ⟨-, -, rfl, -, -⟩ := merge_refTable.mp merged; rfl
  | bitField type => obtain ⟨rfl, -⟩ := merge_bitField.mp merged; rfl
  | bitTable type => obtain ⟨rfl, -⟩ := merge_bitTable.mp merged; rfl
  | enum type => obtain ⟨rfl, -⟩ := merge_enum.mp merged; rfl
  | struct record =>
    obtain ⟨other, -, rfl, -, sizes, -, -, -⟩ := merge_struct.mp merged
    simp [isInPlace, Record.isFinalized, sizes]

/-- Two targets of which neither is a reference have a common type that is none. -/
theorem known_isRef {a b c : Ty} (merged : known a.merge a b = .ok c)
    (first : a.isRef = false) (second : b.isRef = false) : c.isRef = false := by
  rcases known_eq_ok.mp merged with ⟨-, rfl⟩ | ⟨-, -, rfl⟩ | ⟨-, -, inner⟩
  · exact second
  · exact first
  · exact (merge_isRef inner).2.trans first

end Ty
end BinaryLayout
