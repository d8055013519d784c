import BinaryLayout.Proofs.Decoding

/-!
# Packing can be undone

Wherever the blocks of a built value are put, a reader finds the value again. Packing stops
rather than store a distance, or count a free byte, that is no word, so whatever it gives can be
read back.
-/

namespace BinaryLayout.Value

/-- A buffer holds a packed value from a position on: its blocks apart, the second one at
    the offset, or both in one block. -/
def HeldAt (buffer : List UInt8) (start : Nat) : (offset : Option Nat) → Blocks → Prop
  | some offset, blocks =>
      HoldsAt buffer start blocks.inPlace.bytes ∧
        HoldsAt buffer (start + offset) blocks.referred.bytes
  | none, blocks => HoldsAt buffer start blocks.bytes

/-- In every buffer that holds the packed value somewhere, a reader finds exactly the value. -/
def ReadsBack (value : Value) (offset : Option Nat) (blocks : Blocks) : Prop :=
  ∀ buffer start, HeldAt buffer start offset blocks →
    value.plan.read buffer start start = some value.reading

/-- A packed value is a value packed at a free byte: the one asked for, or its own end. -/
theorem pack_heldAt {value : Value} {offset : Option Nat} {blocks : Blocks} (sound : value.Sound)
    (uniform : value.Uniform) (packed : value.pack offset = .ok blocks) :
    ∃ free size inner, value.size = .ok size ∧ size ≤ free ∧ value.packAt free = .ok inner ∧
      ∀ buffer start, HeldAt buffer start offset blocks ↔
        HoldsAt buffer start inner.inPlace.bytes ∧
          HoldsAt buffer (start + free) inner.referred.bytes := by
  cases offset with
  | some free =>
    obtain ⟨size, sized, enough, stored⟩ := pack_eq_ok.mp packed
    exact ⟨free, size, blocks, sized, enough, stored, fun _ _ => Iff.rfl⟩
  | none =>
    obtain ⟨size, inner, sized, -, stored, rfl⟩ := packWhole_eq_ok.mp packed
    have written := sound.exact uniform _ _ _ sized (Nat.le_refl _) stored
    have both : inner.combine.bytes = inner.inPlace.bytes ++ inner.referred.bytes := by
      simp [Blocks.combine, Blocks.bytes, Run.empty]
    refine ⟨size, size, inner, sized, Nat.le_refl _, stored, ?_⟩
    intro buffer start
    rw [HeldAt, both]
    constructor
    · intro holds
      exact ⟨holds.left, written ▸ holds.right⟩
    · rintro ⟨inPlace, referred⟩
      exact inPlace.append (written ▸ referred)

/-- Wherever a built value is put whose arrays have items of the declared sizes, it is read
    back. -/
theorem pack_readsBack {value : Value} {offset : Option Nat} {blocks : Blocks}
    (built : value.Built) (declared : value.ItemsAsDeclared)
    (packed : value.pack offset = .ok blocks) : value.ReadsBack offset blocks := by
  have sound := built.sound
  have uniform := sound.itemsAsDeclared_iff.mp declared
  obtain ⟨free, size, inner, sized, enough, stored, held⟩ := pack_heldAt sound uniform packed
  intro buffer start holds
  obtain ⟨inPlace, referred⟩ := (held _ _).mp holds
  exact sound.recovered uniform buffer start start free size inner sized enough stored
    (by rw [ite_self]; exact ⟨inPlace, referred⟩)

section Packed

set_option maxRecDepth 10000

/-- A bit field with an unsigned and a signed field. -/
def signs : BitField :=
  ⟨"B", .w8, [⟨"a", 3, .unsigned 5⟩, ⟨"b", 5, .signed (-2)⟩]⟩

/-- A struct of an integer and a reference to the bit field. -/
def linked : Value :=
  .struct ⟨"S", [⟨"x", 0, .int ⟨.int32, -2, by decide⟩, false⟩,
    ⟨"next", 4, .ref (.bitField signs) .w32, false⟩], 4, some 8, .empty, []⟩

/-- Such a struct can be laid out. -/
theorem linked_built : linked.Built := by
  have empty : BitField.Built ⟨"B", .w8, []⟩ := .declare (show BitField.declare "B" 8 = _ from rfl)
  have first : BitField.Built ⟨"B", .w8, [⟨"a", 3, .unsigned 5⟩]⟩ :=
    .add empty (show BitField.add _ "a" 5 3 = _ from rfl)
  have both : signs.Built := .addSigned first (show BitField.addSigned _ "b" (-2) 5 = _ from rfl)
  refine Draft.layOut_built (fun member present => ?_) (show Draft.layOut "S"
    [("x", .int ⟨.int32, -2, by decide⟩), ("next", refTo (.bitField signs) .w32)] = _ from rfl)
  simp only [List.mem_cons, List.not_mem_nil, or_false] at present
  rcases present with rfl | rfl
  · exact .int _
  · exact .refTo _ (.bitField both)

/-- The struct with its bit field behind it is read back from wherever it stands. -/
theorem linked_readsBack :
    linked.pack none = .ok (.ofBytes [254, 255, 255, 255, 8, 0, 0, 0, 0b00011101]) ∧
      linked.ReadsBack none (.ofBytes [254, 255, 255, 255, 8, 0, 0, 0, 0b00011101]) := by
  refine ⟨rfl, pack_readsBack linked_built ?_ rfl⟩
  intro element fixed align items inside
  cases inside with
  | member present inside =>
    simp only [List.mem_cons, List.not_mem_nil, or_false] at present
    rcases present with rfl | rfl
    · cases inside
    · cases inside with
      | target _ inside => cases inside

end Packed

end BinaryLayout.Value
