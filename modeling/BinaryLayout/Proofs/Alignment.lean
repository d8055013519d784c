import BinaryLayout.Proofs.Calls
import BinaryLayout.Proofs.Placement
import BinaryLayout.Proofs.Throughout

/-!
# Parts in place

Wherever a value is placed at a multiple of its alignment, its parts in place should stand at
multiples of theirs. Three numbers decide on it that are chosen apart: the size of a struct
is rounded to the alignment of its last step, its alignment is the widest of its members, and
the alignment of an array can be widened. Members always stand at multiples of their
alignments from the start of the struct; the rest is a condition on the alignments and, from
the second element of an array on, on the width of its elements.
-/

namespace BinaryLayout

namespace Ty

/-- In every struct within a type, members stand at multiples of their alignments. -/
def Steady (type : Ty) : Prop :=
  ∀ record, struct record ∈ type.tree → ∀ member ∈ record.members,
    member.content.align ∣ member.offset

/-- If a type is a struct, its members stand at multiples of their alignments. -/
def MembersAligned (type : Ty) : Prop :=
  ∀ record, type = struct record → ∀ member ∈ record.members, member.content.align ∣ member.offset

/-- Members that are laid like aligned ones are aligned. -/
theorem aligned_of_laidAlike {as bs : List (Member Ty)} (alike : LaidAlike as bs)
    (aligned : ∀ member ∈ bs, member.content.align ∣ member.offset) :
    ∀ member ∈ as, member.content.align ∣ member.offset := by
  induction alike with
  | nil => simp
  | cons first _ ih =>
    obtain ⟨-, offset, stored⟩ := first
    rw [List.forall_mem_cons] at aligned ⊢
    rw [offset, stored.align]
    exact ⟨aligned.1, ih aligned.2⟩

end Ty

namespace Draft

/-- The members of a draft stand at multiples of their alignments. -/
def Aligned (draft : Draft) : Prop :=
  ∀ member ∈ draft.members, member.content.type.align ∣ member.offset

/-- A zero byte is aligned everywhere. -/
theorem aligned_of_zero (member : Member Value) (zero : member.content = zeroByte) :
    member.content.type.align ∣ member.offset := by
  rw [zero]
  exact Nat.one_dvd _

/-- Padding keeps a draft aligned. -/
theorem Aligned.padTo {draft : Draft} (aligned : draft.Aligned) (position align : Nat) :
    (draft.padTo position align).Aligned :=
  forall_padTo aligned_of_zero aligned position align

/-- The type of a frozen draft has aligned members. -/
theorem Aligned.freeze {draft : Draft} (aligned : draft.Aligned) (size : Option Nat) :
    (draft.freeze size).type.MembersAligned := by
  rintro record same member present
  obtain rfl := Ty.struct.inj same
  obtain ⟨source, inside, rfl⟩ := Value.mem_memberTypes present
  exact aligned source inside

/-- A member that is added stands behind the padding that aligns it. -/
theorem Built.aligned {draft : Draft} (built : draft.Built) : draft.Aligned :=
  built.forall_members aligned_of_zero
    fun _ cursor _ before => (gap_spec cursor before.sound.type.one_le_align).2

end Draft

namespace Ty

/-- Members of structs are aligned when they are added, and merging leaves them where they
    are. -/
theorem membersAligned_law : Law MembersAligned where
  plain type plain := by
    rintro record rfl
    simp [isMade] at plain
  declaredField _ := by simp [MembersAligned]
  field _ := by simp [MembersAligned]
  declaredTable _ := by simp [MembersAligned]
  table _ := by simp [MembersAligned]
  openRecord built := built.aligned.freeze none
  finalize built made := by
    obtain ⟨cursor, -, -, -, rfl⟩ := Draft.finalize_eq_ok made
    exact (built.aligned.padTo cursor _).freeze _
  merge alike own := by
    rintro record same
    obtain rfl := Ty.struct.inj same
    exact aligned_of_laidAlike alike (own _ rfl)

namespace Steady

variable {type target element : Ty}

theorem iff_throughout : type.Steady ↔ type.Throughout MembersAligned := by
  constructor
  · rintro steady part inside record rfl
    exact steady record inside
  · exact fun holds record inside => holds _ inside record rfl

/-- The members of a steady struct stand at multiples of their alignments. -/
theorem aligned {record : Record Ty} (steady : (struct record).Steady) :
    ∀ member ∈ record.members, member.content.align ∣ member.offset :=
  (iff_throughout.mp steady).self record rfl

/-- The members of a steady struct are steady. -/
theorem member {record : Record Ty} (steady : (struct record).Steady) :
    ∀ member ∈ record.members, member.content.Steady :=
  fun member present => iff_throughout.mpr ((iff_throughout.mp steady).member member present)

theorem ref_iff {width : RefWidth} : (ref target width).Steady ↔ target.Steady := by
  rw [iff_throughout, Throughout.ref_iff membersAligned_law, iff_throughout]

theorem refTable_iff {fixed : Option Nat} {width : RefWidth} :
    (refTable target fixed width).Steady ↔ target.Steady := by
  rw [iff_throughout, Throughout.refTable_iff membersAligned_law, iff_throughout]

theorem array_iff {fixed : Option Nat} {align : Nat} :
    (array element fixed align).Steady ↔ element.Steady := by
  rw [iff_throughout, Throughout.array_iff membersAligned_law, iff_throughout]

end Steady

/-- Built types are steady. -/
theorem Built.steady {type : Ty} (built : type.Built) : type.Steady :=
  Steady.iff_throughout.mpr (built.throughout membersAligned_law)

end Ty

/-- Built values have steady types. -/
theorem Value.Built.steady {value : Value} (built : value.Built) : value.type.Steady :=
  Ty.Steady.iff_throughout.mpr (built.throughout Ty.membersAligned_law)

namespace Ty

/-- A part stands in place in a type at an offset: a member of a struct, an element of an
    array, a reference of a reference table, at any depth. -/
inductive InPlaceAt : (part whole : Ty) → (offset : Nat) → Prop
  | self {type : Ty} : InPlaceAt type type 0
  | member {part : Ty} {record : Record Ty} {member : Member Ty} {offset : Nat}
      (present : member ∈ record.members) (inside : InPlaceAt part member.content offset) :
      InPlaceAt part (struct record) (member.offset + offset)
  | slot {part element : Ty} {count align width index offset : Nat} (below : index < count)
      (known : element.width? = some width) (inside : InPlaceAt part element offset) :
      InPlaceAt part (array element (some count) align) (index * width + offset)
  | entry {target : Ty} {count index : Nat} {width : RefWidth} (below : index < count) :
      InPlaceAt (ref target width) (refTable target (some count) width) (index * width.bytes)

/-- Wherever a type is placed at a multiple of its alignment, its parts in place stand at
    multiples of theirs. -/
def KeepsParts (type : Ty) : Prop :=
  ∀ position, type.align ∣ position → ∀ part offset, InPlaceAt part type offset →
    part.align ∣ position + offset

/-- The alignments of a struct's members divide its own. The alignment of an array's elements
    divides its own as soon as it has one, and their width as soon as it has two. -/
def Fitting : Ty → Prop
  | struct record => ∀ member ∈ record.members, member.content.align ∣ record.align
  | array element (some count) align =>
      (1 ≤ count → element.align ∣ align) ∧
        (2 ≤ count → ∀ width, element.width? = some width → element.align ∣ width)
  | _ => True

/-- Parts of parts in place are in place. -/
theorem InPlaceAt.trans {inner part whole : Ty} {offset distance : Nat}
    (outside : InPlaceAt part whole offset) (inside : InPlaceAt inner part distance) :
    InPlaceAt inner whole (offset + distance) := by
  induction outside with
  | self => rwa [Nat.zero_add]
  | member present _ ih =>
    rw [Nat.add_assoc]
    exact .member present (ih inside)
  | slot below known _ ih =>
    rw [Nat.add_assoc]
    exact .slot below known (ih inside)
  | entry below =>
    cases inside with
    | self => exact .entry below

/-- The parts in place of a steady type are steady. -/
theorem InPlaceAt.steady {part whole : Ty} {offset : Nat} (inside : InPlaceAt part whole offset)
    (steady : whole.Steady) : part.Steady := by
  induction inside with
  | self => exact steady
  | member present _ ih => exact ih (steady.member _ present)
  | slot _ _ _ ih => exact ih (Steady.array_iff.mp steady)
  | entry _ => exact Steady.ref_iff.mpr (Steady.refTable_iff.mp steady)

/-- The parts in place of a well-formed type are well-formed. -/
theorem InPlaceAt.wellFormed {part whole : Ty} {offset : Nat}
    (inside : InPlaceAt part whole offset) (sound : whole.WellFormed) : part.WellFormed := by
  induction inside with
  | self => exact sound
  | member present _ ih => exact ih (sound.member _ present)
  | slot _ _ _ ih => cases sound with | array _ element _ _ _ => exact ih element
  | entry _ => cases sound with | refTable _ place target _ => exact .ref _ target

/-- A type keeps its parts exactly when each of them is aligned from the start of the type and
    has an alignment that divides the type's. -/
theorem keepsParts_iff_dvd {type : Ty} :
    type.KeepsParts ↔ ∀ part offset, InPlaceAt part type offset →
      part.align ∣ offset ∧ part.align ∣ type.align := by
  constructor
  · intro kept part offset inside
    have start : part.align ∣ offset := by
      have first := kept 0 (Nat.dvd_zero _) part offset inside
      rwa [Nat.zero_add] at first
    exact ⟨start, (Nat.dvd_add_left start).mp (kept _ (Nat.dvd_refl _) part offset inside)⟩
  · intro divides position aligned part offset inside
    obtain ⟨start, wide⟩ := divides part offset inside
    exact Nat.dvd_add (wide.trans aligned) start

/-- A type that keeps its parts is fitting. -/
theorem KeepsParts.fitting {type : Ty} (sound : type.WellFormed) (kept : type.KeepsParts) :
    type.Fitting := by
  have divides := keepsParts_iff_dvd.mp kept
  cases sound with
  | struct => exact fun member present => (divides _ _ (.member present .self)).2
  | @array element align fixed _ _ sized _ =>
    cases fixed with
    | none => trivial
    | some count =>
      constructor
      · intro one
        obtain ⟨width, known⟩ := Option.isSome_iff_exists.mp sized
        exact (divides _ _ (.slot one known .self)).2
      · intro two width known
        have second := (divides _ _ (.slot two known .self)).1
        rwa [Nat.one_mul, Nat.add_zero] at second
  | _ => trivial

/-- A steady type keeps its parts when it is fitting and so are all of them. -/
theorem Steady.keepsParts {type : Ty} (steady : type.Steady)
    (fitting : ∀ part offset, InPlaceAt part type offset → part.Fitting) : type.KeepsParts := by
  intro position aligned part offset inside
  induction inside generalizing position with
  | self => exact aligned
  | @member part record member offset present inside ih =>
    have wide : member.content.align ∣ record.align := fitting _ _ .self member present
    have place : member.content.align ∣ position + member.offset :=
      Nat.dvd_add (wide.trans aligned) (steady.aligned member present)
    rw [← Nat.add_assoc]
    exact ih (steady.member member present)
      (fun part offset deeper => fitting part _ (.member present deeper)) _ place
  | @slot part element count align width index offset below known inside ih =>
    obtain ⟨wide, apart⟩ := fitting _ _ .self
    have slot : element.align ∣ index * width := by
      rcases Nat.eq_zero_or_pos index with rfl | later
      · rw [Nat.zero_mul]
        exact Nat.dvd_zero _
      · exact (apart (by omega) width known).mul_left index
    have place : element.align ∣ position + index * width :=
      Nat.dvd_add ((wide (by omega)).trans aligned) slot
    rw [← Nat.add_assoc]
    exact ih (Steady.array_iff.mp steady)
      (fun part offset deeper => fitting part _ (.slot below known deeper)) _ place
  | entry _ => exact Nat.dvd_add aligned (Nat.dvd_mul_left _ _)

/-- A built type keeps its parts exactly when each of them is aligned from its start and has
    an alignment that divides its own. All its parts in place keep their parts, too, exactly
    when it is fitting and so are all of them. -/
theorem keepsParts_iff {type : Ty} (built : type.Built) :
    (type.KeepsParts ↔ ∀ part offset, InPlaceAt part type offset →
      part.align ∣ offset ∧ part.align ∣ type.align) ∧
    ((∀ part offset, InPlaceAt part type offset → part.KeepsParts) ↔
      ∀ part offset, InPlaceAt part type offset → part.Fitting) := by
  refine ⟨keepsParts_iff_dvd, ?_, ?_⟩
  · exact fun kept part offset inside =>
      (kept part offset inside).fitting (inside.wellFormed built.wellFormed)
  · intro fitting part offset inside
    exact (inside.steady built.steady).keepsParts fun inner distance deeper =>
      fitting inner _ (inside.trans deeper)

section Boundary

set_option maxRecDepth 10000

/-- A struct of a wide and a narrow integer, with some padding behind them. -/
def mixed (padding : Nat) : Value :=
  .struct ⟨"S", [⟨"x", 0, .int ⟨.int64, 1, by decide⟩, false⟩,
    ⟨"y", 8, .int ⟨.int8, 2, by decide⟩, false⟩] ++ (Draft.paddingRun ["x", "y"] padding 9 0).1,
    8, some (9 + padding), .empty, []⟩

/-- Two of these structs in an array. -/
def mixedPair (padding : Nat) : Ty :=
  array (mixed padding).type (some 2) 8

/-- The pair can be built when its struct can be finalized. -/
theorem mixedPair_built {padding align : Nat}
    (made : Draft.make "S" [.addInt "x" .int64 1, .addInt "y" .int8 2] (.finalize align) =
      .ok (mixed padding)) : (mixedPair padding).Built := by
  have struct : (mixed padding).Built := Draft.make_built (by simp [Draft.Call.Built]) made
  have type : Ty.arrayOf (mixed padding).type (some 2) none = .ok (mixedPair padding) := rfl
  exact .arrayOf (.ofValue struct) type

/-- Structs that are finalized to a multiple of four are twelve bytes wide, so the second one
    of an array at zero stands at no multiple of eight. -/
theorem mixedPair_skewed :
    (mixedPair 3).Built ∧ (mixedPair 3).width? = some 24 ∧
      InPlaceAt (mixed 3).type (mixedPair 3) 12 ∧ ¬ (mixedPair 3).KeepsParts := by
  have made : Draft.make "S" [.addInt "x" .int64 1, .addInt "y" .int8 2] (.finalize 4) =
      .ok (mixed 3) := rfl
  have second : InPlaceAt (mixed 3).type (mixedPair 3) (1 * 12 + 0) :=
    .slot (by decide) rfl .self
  refine ⟨mixedPair_built made, rfl, second, fun kept => ?_⟩
  have aligned : 8 ∣ 0 + (1 * 12 + 0) := kept 0 (Nat.dvd_zero _) _ _ second
  exact absurd aligned (by decide)

/-- Structs that are finalized to a multiple of eight keep their parts in an array. -/
theorem mixedPair_kept :
    (mixedPair 7).Built ∧ (∀ part offset, InPlaceAt part (mixedPair 7) offset → part.Fitting) ∧
      (mixedPair 7).KeepsParts := by
  have made : Draft.make "S" [.addInt "x" .int64 1, .addInt "y" .int8 2] (.finalize 8) =
      .ok (mixed 7) := rfl
  have built : (mixedPair 7).Built := mixedPair_built made
  obtain ⟨record, shape, members⟩ : ∃ record, (mixed 7).type = struct record ∧
      ∀ member ∈ record.members, member.content ∈ [int .int64, int .int8] ∧
        member.content.align ∣ record.align := ⟨_, rfl, by decide⟩
  have fitting : ∀ part offset, InPlaceAt part (mixedPair 7) offset → part.Fitting := by
    intro part offset inside
    cases inside with
    | self =>
      refine ⟨fun _ => by decide, fun _ width known => ?_⟩
      obtain rfl : 16 = width := Option.some.inj known
      decide
    | slot below known inside =>
      rw [shape] at inside
      cases inside with
      | self => exact fun member present => (members member present).2
      | member present inside =>
        have content := (members _ present).1
        simp only [List.mem_cons, List.not_mem_nil, or_false] at content
        rcases content with same | same
        · rw [same] at inside
          cases inside
          trivial
        · rw [same] at inside
          cases inside
          trivial
  exact ⟨built, fitting, (keepsParts_iff built).2.mpr fitting _ _ .self⟩

end Boundary

end Ty
end BinaryLayout
