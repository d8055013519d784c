import BinaryLayout.Proofs.Links
import Mathlib.Data.Nat.ModEq

/-!
# Blocks without gaps

Behind the bytes of a value follow, for each of its links, the zeros that align the target
and the target's document, and nothing else. Each link stores the distance to its document.
-/

namespace BinaryLayout

/-- The gap leads to a multiple of the alignment, and it is shorter than the alignment. -/
theorem gap_spec {align : Nat} (position : Nat) (positive : 0 < align) :
    gap position align < align ∧ align ∣ position + gap position align := by
  refine ⟨Nat.mod_lt _ positive, ?_⟩
  have below := Nat.mod_lt position positive
  rw [gap, Nat.dvd_iff_mod_eq_zero, Nat.add_mod, Nat.mod_mod]
  rcases Nat.eq_zero_or_pos (position % align) with zero | inside
  · rw [zero, Nat.sub_zero, Nat.mod_self, Nat.zero_add, Nat.zero_mod]
  · rw [Nat.mod_eq_of_lt (by omega : align - position % align < align),
      Nat.add_sub_cancel' below.le, Nat.mod_self]

/-- No other number below the alignment does. -/
theorem eq_gap {align position padding : Nat} (few : padding < align)
    (aligned : align ∣ position + padding) : padding = gap position align := by
  have positive : 0 < align := by omega
  obtain ⟨few', aligned'⟩ := gap_spec position positive
  have same : Nat.ModEq align (position + padding) (position + gap position align) :=
    (Nat.modEq_zero_iff_dvd.mpr aligned).trans (Nat.modEq_zero_iff_dvd.mpr aligned').symm
  exact (Nat.ModEq.add_left_cancel' position same).eq_of_lt_of_lt few few'

/-- Nothing is aligned to zero. -/
theorem Ty.WellFormed.one_le_align {type : Ty} (sound : type.WellFormed) : 1 ≤ type.align := by
  have words (width : WordWidth) : 1 ≤ width.bytes := by cases width <;> decide
  induction sound with
  | int kind => exact words kind.width
  | char => exact Nat.le_refl 1
  | null => exact Nat.le_refl 1
  | ref width _ _ => exact width.bytes_pos
  | array _ _ _ _ wide ih => exact ih.trans wide
  | refTable _ width _ _ _ => exact width.bytes_pos
  | @bitField type _ => exact words type.total
  | bitTable _ => exact (by decide : 1 ≤ BitTableType.align)
  | @enum type _ =>
    rw [Ty.align, Enumeration.width]
    cases type.storage with
    | int kind => exact words kind.width
    | char => exact Nat.le_refl 1
  | struct _ _ widest _ _ _ =>
    rw [Ty.align, widest]
    exact one_le_widestAlign _

namespace Value

/-- What stands in a referred block for one link: zeros, then a document. -/
structure Stretch where
  link : Link
  padding : Nat
  document : List UInt8

namespace Stretch

/-- The bytes of a stretch. -/
def bytes (stretch : Stretch) : List UInt8 :=
  List.replicate stretch.padding 0 ++ stretch.document

/-- How far the document of a stretch that starts at a free byte is from the record that
    resolves its link. -/
def distance (stretch : Stretch) (free : Nat) : Nat :=
  free + stretch.padding - stretch.link.base

/-- A stretch at a free byte is what its link asks for: the packed target, behind the fewest
    zeros that align it, at the distance that the link stores in these bytes. -/
structure Fills (stretch : Stretch) (inPlace : List UInt8) (free : Nat) : Prop where
  document : ∃ blocks, stretch.link.target.pack none = .ok blocks ∧ stretch.document = blocks.bytes
  behind : stretch.link.base ≤ free
  few : stretch.padding < stretch.link.target.type.align
  aligned : stretch.link.target.type.align ∣ stretch.distance free
  least : ∀ fewer < stretch.padding,
    ¬ stretch.link.target.type.align ∣ free + fewer - stretch.link.base
  stored : ∃ bytes, bytes? inPlace stretch.link.position stretch.link.width.bytes = some bytes ∧
    stretch.link.width.kind.load bytes = stretch.distance free

end Stretch

/-- Each stretch fills the bytes behind the ones before. -/
def FillInOrder (inPlace : List UInt8) : List Stretch → (free : Nat) → Prop
  | [], _ => True
  | stretch :: rest, free =>
      stretch.Fills inPlace free ∧ FillInOrder inPlace rest (free + stretch.bytes.length)

/-- Where the documents of stretches start and end. -/
def spans : List Stretch → (free : Nat) → List (Nat × Nat)
  | [], _ => []
  | stretch :: rest, free =>
      (free + stretch.padding, free + stretch.bytes.length) ::
        spans rest (free + stretch.bytes.length)

/-- Blocks of a value at an offset: its own bytes, as many as its size says, and behind the
    offset one stretch for each link, in layout order. No span overlaps another. -/
structure Stretched (value : Value) (offset : Nat) (blocks : Blocks) (size : Nat)
    (stretches : List Stretch) : Prop where
  sized : value.size = .ok size
  inPlace : blocks.inPlace.bytes.length = size
  links : stretches.map (·.link) = value.links 0 0
  referred : blocks.referred.bytes = stretches.flatMap (·.bytes)
  filled : FillInOrder blocks.inPlace.bytes stretches offset
  length : blocks.bytes.length =
    size + (stretches.map fun stretch => stretch.padding + stretch.document.length).sum
  apart : ((0, size) :: spans stretches offset).Pairwise fun before after => before.2 ≤ after.1

/-- The blocks have no gaps but the zeros that alignment asks for. -/
def GapFree (value : Value) (offset : Nat) (blocks : Blocks) : Prop :=
  ∃ size stretches, value.Stretched offset blocks size stretches

/-- The zeros that align the target of a link at a free byte. -/
def Link.padding (link : Link) (free : Nat) : Nat :=
  gap (free - link.base) link.target.type.align

/-- How far the target is from the record that resolves the link. -/
def Link.distance (link : Link) (free : Nat) : Nat :=
  free + link.padding free - link.base

section Spans

variable {stretches : List Stretch} {inPlace : List UInt8} {free : Nat}

@[simp] theorem Stretch.length_bytes (stretch : Stretch) :
    stretch.bytes.length = stretch.padding + stretch.document.length := by
  simp [Stretch.bytes]

/-- No document starts before the free byte. -/
theorem le_spans : ∀ span ∈ spans stretches free, free ≤ span.1 := by
  induction stretches generalizing free with
  | nil => simp [spans]
  | cons stretch rest ih =>
    refine List.forall_mem_cons.mpr ⟨Nat.le_add_right .., fun span present => ?_⟩
    have behind := ih span present
    omega

/-- Documents that follow one another do not overlap. -/
theorem spans_apart : (spans stretches free).Pairwise fun before after => before.2 ≤ after.1 := by
  induction stretches generalizing free with
  | nil => exact .nil
  | cons stretch rest ih => exact .cons (fun after present => le_spans after present) ih

/-- Stretches have the bytes of their zeros and documents. -/
theorem length_stretches :
    (stretches.flatMap (·.bytes)).length =
      (stretches.map fun stretch => stretch.padding + stretch.document.length).sum := by
  simp [List.length_flatMap]

end Spans

section Resolved

variable {inPlace : List UInt8} {free : Nat}

/-- A resolved link stores the distance to its target, in front of the padding and the target's
    document. -/
theorem Link.resolve_eq_ok {link : Link} {part : Blocks} (behind : link.base ≤ free) :
    link.resolve free = .ok part ↔
      ∃ data, link.target.pack none = .ok data ∧
        link.width.kind.contains (link.distance free : Int) = true ∧
        part = ⟨⟨link.width.kind.store (link.distance free : Int), false⟩,
          ⟨List.replicate (link.padding free) 0 ++ data.bytes, data.endsInBits⟩⟩ := by
  have place : free - link.base + gap (free - link.base) link.target.type.align =
      link.distance free := (Nat.sub_add_comm behind).symm
  rw [Link.resolve, Value.resolve_eq_ok, place]
  rfl

/-- A resolved link leaves a stretch behind, and stores the distance. -/
theorem Link.exists_stretch {link : Link} {part : Blocks} (resolved : link.resolve free = .ok part)
    (behind : link.base ≤ free) (positive : 0 < link.target.type.align)
    (held : HoldsAt inPlace link.position part.inPlace.bytes) :
    ∃ stretch : Stretch, stretch.link = link ∧ stretch.bytes = part.referred.bytes ∧
      stretch.Fills inPlace free := by
  obtain ⟨data, packed, inRange, rfl⟩ := (link.resolve_eq_ok behind).mp resolved
  obtain ⟨few, aligned⟩ := gap_spec (free - link.base) positive
  refine ⟨⟨link, link.padding free, data.bytes⟩, rfl, rfl, ?_⟩
  constructor
  case document => exact ⟨data, packed, rfl⟩
  case behind => exact behind
  case few => exact few
  case aligned => rwa [← Nat.sub_add_comm behind] at aligned
  case least =>
    intro fewer below divides
    rw [Nat.sub_add_comm behind] at divides
    exact below.ne (eq_gap (Nat.lt_trans below few) divides)
  case stored =>
    exact ⟨_, held.bytes?_eq (by simp [RefWidth.bytes]), IntKind.load_store inRange⟩

/-- Resolved links leave stretches behind, one behind the other. -/
theorem exists_stretches {links : List Link} {parts : List Blocks}
    (resolved : resolveAll links free = .ok parts)
    (held : List.Forall₂ (fun link part => HoldsAt inPlace link.position part.inPlace.bytes)
      links parts)
    (behind : ∀ link ∈ links, link.base ≤ free)
    (positive : ∀ link ∈ links, 0 < link.target.type.align) :
    ∃ stretches : List Stretch, stretches.map (·.link) = links ∧
      (Blocks.join parts).referred.bytes = stretches.flatMap (·.bytes) ∧
      FillInOrder inPlace stretches free := by
  induction links generalizing free parts with
  | nil =>
    obtain rfl : parts = [] := by simpa [resolveAll, eq_comm] using resolved
    exact ⟨[], rfl, rfl, trivial⟩
  | cons link rest ih =>
    obtain ⟨part, later, here, others, rfl⟩ := resolveAll_cons.mp resolved
    obtain ⟨heldHere, heldLater⟩ := List.forall₂_cons.mp held
    rw [List.forall_mem_cons] at behind positive
    obtain ⟨stretch, rfl, bytes, fills⟩ :=
      link.exists_stretch here behind.1 positive.1 heldHere
    rw [← bytes] at others
    obtain ⟨stretches, rfl, referred, filled⟩ := ih others heldLater
      (fun other present => (behind.2 other present).trans (Nat.le_add_right ..)) positive.2
    refine ⟨stretch :: stretches, rfl, ?_, fills, filled⟩
    rw [Blocks.join_cons_referred, referred, List.flatMap_cons, bytes]

end Resolved

/-- Blocks of a packed built value have no gaps and store the distances to what they refer to. -/
theorem pack_gapFree {value : Value} {offset : Nat} {blocks : Blocks} (built : value.Built)
    (declared : value.ItemsAsDeclared) (packed : value.pack (some offset) = .ok blocks) :
    value.GapFree offset blocks := by
  have sound := built.sound
  have uniform := sound.itemsAsDeclared_iff.mp declared
  obtain ⟨size, sized, enough, stored⟩ := pack_eq_ok.mp packed
  have written := sound.exact uniform _ _ _ sized enough stored
  have within := sound.links_within uniform sized (Nat.le_refl 0)
  obtain ⟨parts, resolved, referred, held⟩ := sound.flat uniform 0 0 offset size blocks sized
    (Nat.le_refl 0) (by omega) (by simpa using stored)
  obtain ⟨stretches, links, same, filled⟩ := exists_stretches resolved
    (held blocks.inPlace.bytes (List.prefix_refl _))
    (fun link present => by have := within link present; omega)
    (fun link present => (sound.within (links_inside link present)).type.one_le_align)
  rw [referred] at same
  refine ⟨size, stretches, sized, written, links, same, filled, ?_, .cons ?_ spans_apart⟩
  · rw [Blocks.bytes, List.length_append, written, same, length_stretches]
  · exact fun span present => enough.trans (le_spans span present)

section Nested

/-- A struct of a reference and of a struct with a reference of its own, which three bytes of
    padding align. -/
def nested : Value :=
  .struct ⟨"R", [⟨"first", 0, .ref (.int ⟨.int8, 5, by decide⟩) .w8, false⟩,
    ⟨"paddingByte0", 1, Draft.zeroByte, true⟩, ⟨"paddingByte1", 2, Draft.zeroByte, true⟩,
    ⟨"paddingByte2", 3, Draft.zeroByte, true⟩,
    ⟨"inner", 4, .struct ⟨"S", [⟨"next", 0, .ref (.int ⟨.int32, 7, by decide⟩) .w32, false⟩],
      4, some 4, .empty, []⟩, false⟩], 4, some 8, .empty, []⟩

/-- Such a struct can be laid out. -/
theorem nested_built : nested.Built := by
  refine Draft.layOut_built (fun member present => ?_) (show Draft.layOut "R"
    [("first", refTo (.int ⟨.int8, 5, by decide⟩) .w8),
      ("inner", .struct ⟨"S", [⟨"next", 0, .ref (.int ⟨.int32, 7, by decide⟩) .w32, false⟩],
        4, some 4, .empty, []⟩)] = .ok nested from rfl)
  simp only [List.mem_cons, List.not_mem_nil, or_false] at present
  rcases present with rfl | rfl
  · exact .refTo _ (.int _)
  · refine Draft.layOut_built (fun member present => ?_) (show Draft.layOut "S"
      [("next", refTo (.int ⟨.int32, 7, by decide⟩) .w32)] = _ from rfl)
    obtain rfl := List.mem_singleton.mp present
    exact .refTo _ (.int _)

/-- It has no arrays, so their items are as declared. -/
theorem nested_itemsAsDeclared : nested.ItemsAsDeclared := by
  intro element fixed align items inside
  cases inside with
  | member present inside =>
    simp only [List.mem_cons, List.not_mem_nil, or_false] at present
    rcases present with rfl | rfl | rfl | rfl | rfl
    · cases inside with
      | target _ inside => cases inside
    · cases inside
    · cases inside
    · cases inside
    · cases inside with
      | member present inside =>
        obtain rfl := List.mem_singleton.mp present
        cases inside with
        | target _ inside => cases inside

/-- The second target stands twelve bytes behind the outer struct and eight behind the inner
    one, which resolves the reference. -/
theorem nested_gapFree :
    nested.pack (some 8) = .ok ⟨⟨[8, 0, 0, 0, 8, 0, 0, 0], false⟩,
      ⟨[5, 0, 0, 0, 7, 0, 0, 0], false⟩⟩ ∧
    nested.GapFree 8 ⟨⟨[8, 0, 0, 0, 8, 0, 0, 0], false⟩, ⟨[5, 0, 0, 0, 7, 0, 0, 0], false⟩⟩ :=
  ⟨rfl, pack_gapFree nested_built nested_itemsAsDeclared rfl⟩

end Nested

end Value
end BinaryLayout
