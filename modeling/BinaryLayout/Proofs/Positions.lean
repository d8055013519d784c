import BinaryLayout.Proofs.Alignment
import BinaryLayout.Proofs.Recovery
import Mathlib.Logic.Relation

/-!
# Positions in a document

A document holds a value at its start and everything that the value refers to behind it. To
go from a value to one that it stores or refers to is a step, which a reference takes by the
distance in its bytes. The distance aligns the target, counted from the record that resolves
the reference, so what steps lead to is aligned as long as every record is as strict as its
targets. Items are the exception: what they are is not told by the type of their array.
-/

namespace BinaryLayout

namespace Value

/-- The items of an array take the declared bytes, and the alignment of its elements divides
    their width and its own. The alignments of a struct's members divide its own. -/
def Fitting : Value → Prop
  | array element _ align items =>
      (∀ item ∈ items, item.size = element.width) ∧ element.align ∣ align ∧
        ∀ width ∈ element.width?, element.align ∣ width
  | struct record => ∀ member ∈ record.members, member.content.type.align ∣ record.align
  | _ => True

instance (value : Value) : Decidable value.Fitting :=
  match value with
  | array element _ align items => inferInstanceAs (Decidable
      ((∀ item ∈ items, item.size = element.width) ∧ element.align ∣ align ∧
        ∀ width ∈ element.width?, element.align ∣ width))
  | struct record => inferInstanceAs (Decidable
      (∀ member ∈ record.members, member.content.type.align ∣ record.align))
  | int _ | char _ | null | ref .. | nullRef .. | text _ | blob .. | refTable .. | bitField _
  | bitTable _ | enum _ => inferInstanceAs (Decidable True)

/-- The targets of the references that a record resolves. -/
def targets : Value → List Value
  | refTable _ _ _ items => items.filter fun item => !item.isNull
  | struct record => record.members.filterMap fun member =>
      match member.content with
      | ref target _ => some target
      | _ => none
  | _ => []

/-- A record is as strict as the targets that it resolves. -/
def Covering (value : Value) : Prop :=
  ∀ target ∈ value.targets, target.type.align ∣ value.type.align

instance (value : Value) : Decidable value.Covering :=
  inferInstanceAs (Decidable (∀ target ∈ value.targets, target.type.align ∣ value.type.align))

/-- All parts of a value fit, and every record but the value itself is as strict as its
    targets. -/
structure Graded (whole : Value) : Prop where
  fitting : ∀ part, Within part whole → part.Fitting
  covering : ∀ child ∈ whole.children, ∀ part, Within part child → part.Covering

/-- Fitting arrays have items of the declared sizes. -/
theorem Graded.itemsAsDeclared {whole : Value} (graded : whole.Graded) : whole.ItemsAsDeclared :=
  fun _ _ _ _ inside => (graded.fitting _ inside).1

/-- It is enough that all parts fit and are as strict as their targets. -/
theorem Graded.of_parts {whole : Value}
    (each : ∀ part, Within part whole → part.Fitting ∧ part.Covering) :
    whole.Graded :=
  ⟨fun part inside => (each part inside).1,
    fun _ direct part inside => (each part (.of_child direct inside)).2⟩

/-- The items of an array in place are no references. -/
theorem Sound.items_direct {element : Ty} {fixed : Option Nat} {align : Nat} {items : List Value}
    (sound : (Value.array element fixed align items).Sound) : ∀ item ∈ items, item.isRef = false := by
  cases sound with
  | array _ _ _ direct _ => exact direct

/-- The members of a built struct stand at multiples of their alignments. -/
theorem Built.aligned {record : Record Value} (built : (struct record).Built) :
    ∀ member ∈ record.members, member.content.type.align ∣ member.offset := by
  intro member present
  have shape : (⟨member.name, member.offset, member.content.type, member.isPadding⟩ : Member Ty) ∈
      memberTypes record.members := by
    rw [memberTypes_eq_map]
    exact List.mem_map_of_mem present
  exact built.steady.aligned _ shape

/-- An entry of a reference table that leads somewhere is a reference. -/
theorem refTo_of_present {item : Value} (width : RefWidth) (present : item.isNull = false) :
    item.refTo width = ref item width := by
  rw [refTo, present]
  rfl

section Leading

variable {document : List UInt8} {width : RefWidth} {base position start other : Nat}

/-- The bytes of a reference lead to one place only. -/
theorem LeadsTo.unique (first : LeadsTo document width base position start)
    (second : LeadsTo document width base position other) : start = other := by
  obtain ⟨bytes, found, leads⟩ := first
  obtain ⟨bytes', found', leads'⟩ := second
  obtain rfl := Option.some.inj (found.symm.trans found')
  omega

/-- Where a reference leads, its target stands, at a multiple of the target's alignment from
    the record that resolves the reference. -/
theorem StandsAt.of_leads {target : Value} (sound : target.Sound) (uniform : target.Uniform)
    (stands : StandsAt document (.ref target width) base position)
    (leads : LeadsTo document width base position start) :
    target.isRef = false ∧ StandsAt document target start start ∧
      ∃ distance, start = base + distance ∧ target.type.align ∣ distance := by
  obtain ⟨free, -, direct, there, stands⟩ := stands.target (sound.exact uniform)
  obtain rfl := leads.unique there
  exact ⟨direct, stands, _, rfl, (gap_spec free sound.type.one_le_align).2⟩

end Leading

/-- A value in a document: where it stands, and where the record starts that resolves it if it
    is a reference. -/
structure Spot where
  value : Value
  base : Nat
  position : Nat

namespace Spot

/-- The values that a value stores or refers to, where a document has them. References lead
    where their bytes say. -/
inductive Step (document : List UInt8) : Spot → Spot → Prop
  | target {target : Value} {width : RefWidth} {base position start : Nat}
      (leads : LeadsTo document width base position start) :
      Step document ⟨ref target width, base, position⟩ ⟨target, start, start⟩
  | item {element : Ty} {fixed : Option Nat} {align : Nat} {items : List Value} {item : Value}
      {base position index width : Nat} (found : items[index]? = some item)
      (known : element.width? = some width) :
      Step document ⟨array element fixed align items, base, position⟩
        ⟨item, position + index * width, position + index * width⟩
  | entry {target : Ty} {fixed : Option Nat} {width : RefWidth} {items : List Value}
      {item : Value} {base position index start : Nat} (found : items[index]? = some item)
      (present : item.isNull = false)
      (leads : LeadsTo document width position (position + index * width.bytes) start) :
      Step document ⟨refTable target fixed width items, base, position⟩ ⟨item, start, start⟩
  | member {record : Record Value} {member : Member Value} {base position : Nat}
      (present : member ∈ record.members) :
      Step document ⟨struct record, base, position⟩
        ⟨member.content, position, position + member.offset⟩

/-- Steps lead from the value at the start of a document to a spot. -/
def Reached (document : List UInt8) (whole : Value) (spot : Spot) : Prop :=
  Relation.ReflTransGen (Step document) ⟨whole, 0, 0⟩ spot

/-- A value stands at a multiple of its alignment. -/
def Aligned (spot : Spot) : Prop :=
  spot.value.type.align ∣ spot.position

/-- The items of an array stand at multiples of their own alignments. -/
def ItemsAligned (spot : Spot) : Prop :=
  ∀ element fixed align items, spot.value = array element fixed align items →
    ∀ index item width, items[index]? = some item → element.width? = some width →
      item.type.align ∣ spot.position + index * width

/-- A part of a value stands in the document. Only at the start it may be the value itself and
    no part of a child. -/
structure Holds (document : List UInt8) (whole : Value) (spot : Spot) : Prop where
  inside : Within spot.value whole
  place : spot.position = 0 ∨ ∃ child ∈ whole.children, Within spot.value child
  stands : StandsAt document spot.value spot.base spot.position

/-- A value stands at a multiple of its alignment and, if it is a reference, is resolved by a
    record that starts at a multiple of the target's alignment. -/
structure Settled (spot : Spot) : Prop where
  aligned : spot.Aligned
  resolved : ∀ target width, spot.value = ref target width → target.type.align ∣ spot.base

/-- Every value but a reference is settled where it is aligned. -/
theorem Settled.direct {spot : Spot} (aligned : spot.Aligned) (direct : spot.value.isRef = false) :
    spot.Settled := by
  constructor
  · exact aligned
  · intro target width same
    rw [same] at direct
    contradiction

/-- The items of an aligned array are aligned when its elements are said to be as strict. -/
theorem Aligned.items {spot : Spot} (aligned : spot.Aligned) (fitting : spot.value.Fitting)
    (alike : ∀ element fixed align items, spot.value = array element fixed align items →
      ∀ item ∈ items, item.type.align ∣ element.align) : spot.ItemsAligned := by
  intro element fixed align items same index item width found known
  have stricter := alike element fixed align items same item (List.mem_of_getElem? found)
  obtain ⟨value, base, position⟩ := spot
  obtain rfl : value = _ := same
  obtain ⟨-, place, apart⟩ := fitting
  apply Nat.dvd_add
  · exact (stricter.trans place).trans aligned
  · exact (stricter.trans (apart width known)).mul_left index

section Steps

variable {document : List UInt8} {whole : Value} {spot next : Spot}

/-- Steps go to children. -/
theorem Step.child (step : Step document spot next) : next.value ∈ spot.value.children := by
  cases step with
  | target _ => exact List.mem_singleton_self _
  | item found _ => exact List.mem_of_getElem? found
  | entry found _ _ => exact List.mem_of_getElem? found
  | member present => exact List.mem_map_of_mem present

/-- Steps lead to parts that stand in the document. -/
theorem Step.holds (sound : whole.Sound) (uniform : whole.Uniform)
    (holds : spot.Holds document whole) (step : Step document spot next) :
    next.Holds document whole := by
  have inside := holds.inside.descend step.child
  refine ⟨inside, .inr (holds.inside.child_below step.child), ?_⟩
  have stands := holds.stands
  have sound' := sound.within holds.inside
  have uniform' := uniform.within holds.inside
  cases step with
  | target leads =>
    exact (stands.of_leads (sound.within inside) (uniform.within inside) leads).2.1
  | item found known =>
    obtain ⟨width, known', items, -⟩ := sound'.array_stands uniform' stands
    obtain rfl := Option.some.inj (known.symm.trans known')
    exact items _ _ found
  | entry found present leads =>
    have entry := (sound'.refTable_stands stands).1 _ _ found
    rw [refTo_of_present _ present] at entry
    exact (entry.of_leads (sound.within inside) (uniform.within inside) leads).2.1
  | member present => exact sound'.struct_stands uniform' stands _ present

/-- Steps lead to a settled value when items are aligned, structs are as strict as their
    members, and records that are not at the start are as strict as their targets.

    A target stands at an aligned distance from the record that resolves its reference. The
    record itself stands at a multiple of its own alignment, which the target's divides. -/
theorem Step.settled (built : whole.Built) (uniform : whole.Uniform)
    (holds : spot.Holds document whole) (settled : spot.Settled) (items : spot.ItemsAligned)
    (fitting : spot.value.Fitting) (covering : spot.position = 0 ∨ spot.value.Covering)
    (step : Step document spot next) : next.Settled := by
  have inside := holds.inside.descend step.child
  have stands := holds.stands
  have whole' := built.within holds.inside
  have sound := (built.within inside).sound
  have uniform' := uniform.within inside
  obtain ⟨aligned, resolved⟩ := settled
  cases step with
  | target leads =>
    obtain ⟨direct, -, distance, rfl, apart⟩ := stands.of_leads sound uniform' leads
    refine .direct ?_ direct
    apply Nat.dvd_add
    · exact resolved _ _ rfl
    · exact apart
  | item found known =>
    have direct := whole'.sound.items_direct _ (List.mem_of_getElem? found)
    have slot := items _ _ _ _ rfl _ _ _ found known
    exact .direct slot direct
  | @entry target fixed width entries item base position index start found present leads =>
    have entry := (whole'.sound.refTable_stands stands).1 _ _ found
    rw [refTo_of_present _ present] at entry
    obtain ⟨direct, -, distance, rfl, apart⟩ := entry.of_leads sound uniform' leads
    -- The value at the start is exempt, since zero is a multiple of every alignment.
    have table : item.type.align ∣ position := by
      rcases covering with rfl | covering
      · exact Nat.dvd_zero _
      · have resolved : item ∈ (refTable target fixed width entries).targets :=
          List.mem_filter.mpr ⟨List.mem_of_getElem? found, by simp [present]⟩
        exact (covering item resolved).trans aligned
    refine .direct ?_ direct
    apply Nat.dvd_add
    · exact table
    · exact apart
  | @member record member base position present =>
    constructor
    · apply Nat.dvd_add
      · exact (fitting member present).trans aligned
      · exact whole'.aligned member present
    · intro target width leads
      rcases covering with rfl | covering
      · exact Nat.dvd_zero _
      · have content : member.content = ref target width := leads
        have resolved : target ∈ (struct record).targets :=
          List.mem_filterMap.mpr ⟨member, present, by rw [content]⟩
        exact (covering target resolved).trans aligned

end Steps

section Runs

variable {document : List UInt8} {whole : Value} {spot : Spot}

/-- Everything that is reached from a value at the start of a document stands in it. -/
theorem Reached.holds (sound : whole.Sound) (uniform : whole.Uniform)
    (start : StandsAt document whole 0 0) (reached : Reached document whole spot) :
    spot.Holds document whole := by
  induction reached with
  | refl => exact ⟨.self, .inl rfl, start⟩
  | tail _ step ih => exact step.holds sound uniform ih

/-- Everything that is reached is settled when the items of all arrays that are reached and
    aligned are aligned. -/
theorem Reached.settled (built : whole.Built) (direct : whole.isRef = false)
    (graded : whole.Graded) (start : StandsAt document whole 0 0)
    (items : ∀ spot, Reached document whole spot → spot.Aligned → spot.ItemsAligned)
    (reached : Reached document whole spot) : spot.Settled := by
  have uniform := built.sound.itemsAsDeclared_iff.mp graded.itemsAsDeclared
  induction reached with
  | refl => exact .direct (Nat.dvd_zero _) direct
  | @tail spot next before step ih =>
    have holds : spot.Holds document whole := Reached.holds built.sound uniform start before
    refine step.settled built uniform holds ih (items spot before ih.aligned)
      (graded.fitting _ holds.inside) (holds.place.imp_right ?_)
    exact fun ⟨child, first, inside⟩ => graded.covering child first _ inside

/-- Steps from where a value stands lead to all its children but null ones, which have no
    place of their own. -/
theorem exists_step {child : Value} {base position : Nat} (direct : child ∈ whole.children)
    (present : child.isNull = false) (sound : whole.Sound) (uniform : whole.Uniform)
    (stands : StandsAt document whole base position) :
    ∃ place start, Step document ⟨whole, base, position⟩ ⟨child, place, start⟩ ∧
      StandsAt document child place start := by
  have inside : Within child whole := .of_child direct .self
  have exact := (sound.within inside).exact (uniform.within inside)
  cases whole with
  | ref target width =>
    obtain rfl := List.mem_singleton.mp direct
    obtain ⟨free, -, -, leads, there⟩ := stands.target exact
    exact ⟨_, _, .target leads, there⟩
  | array element fixed align items =>
    obtain ⟨index, found⟩ := List.mem_iff_getElem?.mp direct
    obtain ⟨width, known, there, -⟩ := sound.array_stands uniform stands
    exact ⟨_, _, .item found known, there index child found⟩
  | refTable target fixed width items =>
    obtain ⟨index, found⟩ := List.mem_iff_getElem?.mp direct
    have entry := (sound.refTable_stands stands).1 index child found
    rw [refTo_of_present width present] at entry
    obtain ⟨free, -, -, leads, there⟩ := entry.target exact
    exact ⟨_, _, .entry found present leads, there⟩
  | struct record =>
    obtain ⟨member, inMembers, rfl⟩ := List.mem_map.mp direct
    exact ⟨_, _, .member inMembers, sound.struct_stands uniform stands member inMembers⟩
  | _ => cases direct

/-- Steps from where a value stands lead to all its parts but null ones. -/
theorem exists_steps {part : Value} {base position : Nat} (inside : Within part whole)
    (present : part.isNull = false) (sound : whole.Sound) (uniform : whole.Uniform)
    (stands : StandsAt document whole base position) :
    ∃ spot, Relation.ReflTransGen (Step document) ⟨whole, base, position⟩ spot ∧
      spot.value = part := by
  induction inside using Within.through_children generalizing base position with
  | self => exact ⟨_, .refl, rfl⟩
  | child whole child direct deeper ih =>
    have below : Within child whole := .of_child direct .self
    obtain ⟨place, start, step, there⟩ :=
      exists_step direct (deeper.present present) sound uniform stands
    obtain ⟨spot, steps, same⟩ := ih (sound.within below) (uniform.within below) there
    exact ⟨spot, .head step steps, same⟩

end Runs

end Spot

/-- A value that is packed on its own stands at the start of its document. -/
theorem Sound.stands_at_start {value : Value} {blocks : Blocks} (sound : value.Sound)
    (uniform : value.Uniform) (packed : value.pack none = .ok blocks) :
    StandsAt blocks.bytes value 0 0 := by
  obtain ⟨free, size, inner, sized, enough, stored, held⟩ := pack_heldAt sound uniform packed
  obtain ⟨inPlace, referred⟩ := (held blocks.bytes 0).mp (List.prefix_refl _)
  refine ⟨free, size, inner, sized, enough, stored, ?_⟩
  rw [ite_self]
  exact ⟨inPlace, referred⟩

/-- In the document of a built value whose parts fit and whose records are as strict as their
    targets, every part that is reached stands in the bytes, every part but null ones is
    reached, and all are aligned exactly when the items of arrays are. They are as long as no
    item is stricter than the elements of its array are said to be. -/
theorem aligned_iff_itemsAligned {value : Value} {blocks : Blocks} (built : value.Built)
    (direct : value.isRef = false) (graded : value.Graded)
    (packed : value.pack none = .ok blocks) :
    (∀ spot, Spot.Reached blocks.bytes value spot →
      StandsAt blocks.bytes spot.value spot.base spot.position) ∧
    (∀ part, Within part value → part.isNull = false →
      ∃ spot, Spot.Reached blocks.bytes value spot ∧ spot.value = part) ∧
    ((∀ spot, Spot.Reached blocks.bytes value spot → spot.Aligned) ↔
      ∀ spot, Spot.Reached blocks.bytes value spot → spot.ItemsAligned) ∧
    ((∀ element fixed align items, Within (.array element fixed align items) value →
        ∀ item ∈ items, item.type.align ∣ element.align) →
      ∀ spot, Spot.Reached blocks.bytes value spot → spot.Aligned) := by
  have sound := built.sound
  have uniform := sound.itemsAsDeclared_iff.mp graded.itemsAsDeclared
  have start := sound.stands_at_start uniform packed
  have holds {spot : Spot} (reached : Spot.Reached blocks.bytes value spot) :
      spot.Holds blocks.bytes value := reached.holds sound uniform start
  have settled (items : ∀ spot, Spot.Reached blocks.bytes value spot → spot.Aligned →
      spot.ItemsAligned) (spot : Spot) (reached : Spot.Reached blocks.bytes value spot) :
      spot.Aligned := (reached.settled built direct graded start items).aligned
  refine ⟨?_, ?_, ⟨?_, ?_⟩, ?_⟩
  · intro spot reached
    exact (holds reached).stands
  · intro part inside present
    exact Spot.exists_steps inside present sound uniform start
  -- The items of an array that is reached are one step away.
  · rintro aligned ⟨_, base, position⟩ reached element fixed align items rfl
    intro index item width found known
    exact aligned _ (reached.tail (.item found known))
  · intro items
    apply settled
    intro spot reached _
    exact items spot reached
  · intro alike
    apply settled
    intro spot reached aligned
    have inside := (holds reached).inside
    exact aligned.items (graded.fitting _ inside) fun _ _ _ _ same => alike _ _ _ _ (same ▸ inside)

section Boundary

set_option maxRecDepth 10000

/-- A struct of a reference to a 32-bit integer. -/
def pointer : Value :=
  .struct ⟨"S", [⟨"next", 0, .ref (.int ⟨.int32, 7, .refl true⟩) .w32, false⟩], 4, some 4, .empty, []⟩

/-- Two structs of this kind in an array. -/
def pointers : Value :=
  .array pointer.type none 4 [pointer, pointer]

/-- Two structs of one name and size, of two narrow integers and of a wide one. -/
def narrow : Value :=
  .struct ⟨"T", [⟨"a", 0, .int ⟨.int16, 1, by decide⟩, false⟩,
    ⟨"b", 2, .int ⟨.int16, 2, by decide⟩, false⟩], 2, some 4, .empty, []⟩

def wide : Value :=
  .struct ⟨"T", [⟨"a", 0, .int ⟨.int32, 3, by decide⟩, false⟩], 4, some 4, .empty, []⟩

/-- A struct around one of them. -/
def boxing (inner : Value) : Value :=
  .struct ⟨"S", [⟨"x", 0, inner, false⟩], inner.type.align, some 4, .empty, []⟩

/-- An array of both in boxes, between two integers that need no padding. -/
def misplacing : Value :=
  .struct ⟨"R", [⟨"first", 0, .int ⟨.int16, 4, by decide⟩, false⟩,
    ⟨"items", 2, .array (boxing narrow).type (some 2) 2 [boxing narrow, boxing wide], false⟩,
    ⟨"last", 10, .int ⟨.int16, 5, by decide⟩, false⟩], 2, some 12, .empty, []⟩

/-- The array of references can be built. -/
theorem pointers_built : pointers.Built := by
  have built : pointer.Built := by
    refine Draft.layOut_built (fun member present => ?_) (show Draft.layOut "S"
      [("next", refTo (.int ⟨.int32, 7, by decide⟩) .w32)] = .ok pointer from rfl)
    obtain rfl := List.mem_singleton.mp present
    exact .refTo _ (.int _)
  have made : Value.sequence [pointer, pointer] none = .ok pointers := rfl
  exact .sequence (List.forall_mem_cons.mpr ⟨built, List.forall_mem_singleton.mpr built⟩) made

/-- Numbers have no parts of their own. -/
theorem int_parts (integer : Integer) :
    ∀ part, Within part (.int integer) → part.Fitting ∧ part.Covering :=
  forall_within ⟨trivial, fun _ none => nomatch none⟩ fun _ none => nomatch none

/-- Its parts fit, and its structs are as strict as the integers. -/
theorem pointers_graded : pointers.Graded := by
  have reference : ∀ part, Within part (.ref (.int ⟨.int32, 7, by decide⟩) .w32) →
      part.Fitting ∧ part.Covering :=
    forall_within (by decide) (List.forall_mem_singleton.mpr (int_parts _))
  have struct : ∀ part, Within part pointer → part.Fitting ∧ part.Covering :=
    forall_within (by decide) (List.forall_mem_singleton.mpr reference)
  exact .of_parts (forall_within (by decide)
    (List.forall_mem_cons.mpr ⟨struct, List.forall_mem_singleton.mpr struct⟩))

/-- Everything in its document is aligned. -/
theorem pointers_aligned :
    pointers.Built ∧ pointers.Graded ∧
      pointers.pack none =
        .ok (.ofBytes [8, 0, 0, 0, 8, 0, 0, 0, 7, 0, 0, 0, 7, 0, 0, 0]) ∧
      ∀ spot, Spot.Reached [8, 0, 0, 0, 8, 0, 0, 0, 7, 0, 0, 0, 7, 0, 0, 0] pointers spot →
        spot.Aligned := by
  have packed : pointers.pack none =
    .ok (.ofBytes [8, 0, 0, 0, 8, 0, 0, 0, 7, 0, 0, 0, 7, 0, 0, 0]) := rfl
  obtain ⟨-, -, -, alike⟩ :=
    aligned_iff_itemsAligned pointers_built rfl pointers_graded packed
  refine ⟨pointers_built, pointers_graded, packed, ?_⟩
  apply alike
  intro element fixed align items inside
  cases inside with
  | self => decide
  | item _ _ _ present inside =>
    obtain rfl : _ = pointer := by simpa using present
    cases inside with
    | member present inside =>
      obtain rfl := List.mem_singleton.mp present
      cases inside with
      | target _ inside => cases inside

/-- The array can be built, since merging does not look into structs of one name. -/
theorem misplacing_built : misplacing.Built := by
  have narrowBox : (boxing narrow).Built := by
    have inner : narrow.Built := Draft.layOut_built (List.forall_mem_cons.mpr
      ⟨.int _, List.forall_mem_singleton.mpr (.int _)⟩) (show Draft.layOut "T"
        [("a", .int ⟨.int16, 1, by decide⟩), ("b", .int ⟨.int16, 2, by decide⟩)] = _ from rfl)
    exact Draft.layOut_built (List.forall_mem_singleton.mpr inner)
      (show Draft.layOut "S" [("x", narrow)] = _ from rfl)
  have wideBox : (boxing wide).Built := by
    have inner : wide.Built := Draft.layOut_built (List.forall_mem_singleton.mpr (.int _))
      (show Draft.layOut "T" [("a", .int ⟨.int32, 3, by decide⟩)] = _ from rfl)
    exact Draft.layOut_built (List.forall_mem_singleton.mpr inner)
      (show Draft.layOut "S" [("x", wide)] = _ from rfl)
  have array : Value.Built
      (.array (boxing narrow).type (some 2) 2 [boxing narrow, boxing wide]) :=
    .sequence (List.forall_mem_cons.mpr ⟨narrowBox, List.forall_mem_singleton.mpr wideBox⟩)
      (show Value.sequence [boxing narrow, boxing wide] (some 2) = _ from rfl)
  have made : Draft.layOut "R" [("first", .int ⟨.int16, 4, by decide⟩),
      ("items", .array (boxing narrow).type (some 2) 2 [boxing narrow, boxing wide]),
      ("last", .int ⟨.int16, 5, by decide⟩)] = .ok misplacing := rfl
  refine Draft.layOut_built (List.forall_mem_cons.mpr ⟨.int _, ?_⟩) made
  exact List.forall_mem_cons.mpr ⟨array, List.forall_mem_singleton.mpr (.int _)⟩

/-- The parts of the boxes fit, and there are no references. -/
theorem misplacing_graded : misplacing.Graded := by
  have narrow : ∀ part, Within part (boxing narrow) → part.Fitting ∧ part.Covering :=
    forall_within (by decide) (List.forall_mem_singleton.mpr (forall_within (by decide)
      (List.forall_mem_cons.mpr ⟨int_parts _, List.forall_mem_singleton.mpr (int_parts _)⟩)))
  have wide : ∀ part, Within part (boxing wide) → part.Fitting ∧ part.Covering :=
    forall_within (by decide) (List.forall_mem_singleton.mpr (forall_within (by decide)
      (List.forall_mem_singleton.mpr (int_parts _))))
  have array : ∀ part, Within part
      (.array (boxing Value.narrow).type (some 2) 2 [boxing Value.narrow, boxing Value.wide]) →
      part.Fitting ∧ part.Covering :=
    forall_within (by decide)
      (List.forall_mem_cons.mpr ⟨narrow, List.forall_mem_singleton.mpr wide⟩)
  refine .of_parts (forall_within (by decide) (List.forall_mem_cons.mpr ⟨int_parts _, ?_⟩))
  exact List.forall_mem_cons.mpr ⟨array, List.forall_mem_singleton.mpr (int_parts _)⟩

/-- The struct of the wide integer stands at six, although it is aligned to four. -/
theorem misplacing_unaligned :
    misplacing.Built ∧ misplacing.isRef = false ∧ misplacing.Graded ∧
      misplacing.pack none = .ok (.ofBytes [4, 0, 1, 0, 2, 0, 3, 0, 0, 0, 5, 0]) ∧
      Spot.Reached [4, 0, 1, 0, 2, 0, 3, 0, 0, 0, 5, 0] misplacing ⟨boxing wide, 6, 6⟩ ∧
      ¬ Spot.Aligned ⟨boxing wide, 6, 6⟩ := by
  have items : Spot.Step [4, 0, 1, 0, 2, 0, 3, 0, 0, 0, 5, 0] ⟨misplacing, 0, 0⟩
      ⟨.array (boxing narrow).type (some 2) 2 [boxing narrow, boxing wide], 0, 2⟩ :=
    @Spot.Step.member _ _ ⟨"items", 2, _, false⟩ 0 0 (List.mem_cons_of_mem _ List.mem_cons_self)
  have second : [boxing narrow, boxing wide][1]? = some (boxing wide) := rfl
  have width : (boxing narrow).type.width? = some 4 := rfl
  have unaligned : ¬ (boxing wide).type.align ∣ 6 := by decide
  exact ⟨misplacing_built, rfl, misplacing_graded, rfl,
    .tail (.single items) (.item second width), unaligned⟩

end Boundary

end Value
end BinaryLayout
