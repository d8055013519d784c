import BinaryLayout.Proofs.Construction

/-!
# Values within values

A value is made of the values that it stores and of those that its references point
to, at every depth. All parts of a sound value are sound, and all parts of a value that
can be built can be built. Whether the items of its arrays are as wide as their arrays
say is not decided by the checks on it: merging passes over conflicts, so this is a
condition of its own.
-/

namespace BinaryLayout

namespace Value

/-- A value is stored in another one or reached through its references. -/
inductive Within (part : Value) : Value → Prop
  | self : Within part part
  | target {target : Value} (width : RefWidth) (inside : Within part target) :
      Within part (.ref target width)
  | item {item : Value} {items : List Value} (element : Ty) (fixed : Option Nat) (align : Nat)
      (present : item ∈ items) (inside : Within part item) :
      Within part (.array element fixed align items)
  | entry {item : Value} {items : List Value} (target : Ty) (fixed : Option Nat)
      (width : RefWidth) (present : item ∈ items) (inside : Within part item) :
      Within part (.refTable target fixed width items)
  | member {member : Member Value} {record : Record Value} (present : member ∈ record.members)
      (inside : Within part member.content) : Within part (.struct record)

/-- Parts of parts are parts. -/
theorem Within.trans {first second third : Value} (inner : Within first second)
    (outer : Within second third) : Within first third := by
  induction outer with
  | self => exact inner
  | target width _ ih => exact .target width ih
  | item element fixed align present _ ih => exact .item element fixed align present ih
  | entry target fixed width present _ ih => exact .entry target fixed width present ih
  | member present _ ih => exact .member present ih

/-- The values that a value stores or refers to directly. -/
def children : Value → List Value
  | ref target _ => [target]
  | array _ _ _ items => items
  | refTable _ _ _ items => items
  | struct record => record.members.map (·.content)
  | _ => []

section Children

variable {part whole child : Value}

/-- What is within a child is within the value. -/
theorem Within.of_child (direct : child ∈ whole.children) (inside : Within part child) :
    Within part whole := by
  cases whole with
  | ref target width => exact .target width (List.mem_singleton.mp direct ▸ inside)
  | array element fixed align items => exact .item element fixed align direct inside
  | refTable target fixed width items => exact .entry target fixed width direct inside
  | struct record =>
    obtain ⟨member, present, rfl⟩ := List.mem_map.mp direct
    exact .member present inside
  | _ => cases direct

/-- Induction from a part to the values around it, by children of any kind. -/
@[elab_as_elim]
theorem Within.through_children {motive : (whole : Value) → Within part whole → Prop}
    (self : motive part .self)
    (child : ∀ whole child (direct : child ∈ whole.children) (inside : Within part child),
      motive child inside → motive whole (.of_child direct inside))
    (inside : Within part whole) : motive whole inside := by
  induction inside with
  | self => exact self
  | target width deeper ih => exact child (.ref _ width) _ (List.mem_singleton_self _) deeper ih
  | item element fixed align present deeper ih =>
    exact child (.array element fixed align _) _ present deeper ih
  | entry target fixed width present deeper ih =>
    exact child (.refTable target fixed width _) _ present deeper ih
  | @member member record present deeper ih =>
    exact child (.struct record) _ (List.mem_map_of_mem present) deeper ih

/-- A value within another one is that value or within one of its children. -/
theorem Within.cases_child (inside : Within part whole) :
    part = whole ∨ ∃ child ∈ whole.children, Within part child := by
  induction inside using Within.through_children with
  | self => exact .inl rfl
  | child whole child direct deeper => exact .inr ⟨child, direct, deeper⟩

/-- Null values have no parts but themselves. -/
theorem Within.present (inside : Within part whole) (present : part.isNull = false) :
    whole.isNull = false := by
  cases inside with
  | self => exact present
  | _ => rfl

/-- What holds of a value and of all parts of its children holds of all its parts. -/
theorem forall_within {motive : Value → Prop} (itself : motive whole)
    (below : ∀ child ∈ whole.children, ∀ part, Within part child → motive part) :
    ∀ part, Within part whole → motive part := by
  intro part inside
  rcases inside.cases_child with rfl | ⟨child, direct, deeper⟩
  · exact itself
  · exact below child direct part deeper

/-- The children of a part are parts. -/
theorem Within.descend (inside : Within part whole) (direct : child ∈ part.children) :
    Within child whole :=
  (Within.of_child direct .self).trans inside

/-- The children of a part are within a child of the whole. -/
theorem Within.child_below (inside : Within part whole) (direct : child ∈ part.children) :
    ∃ top ∈ whole.children, Within child top := by
  rcases inside.cases_child with rfl | ⟨top, first, deeper⟩
  · exact ⟨child, direct, .self⟩
  · exact ⟨top, first, deeper.descend direct⟩

end Children

/-- The parts of a sound value are sound. -/
theorem Sound.within {part whole : Value} (sound : whole.Sound) (inside : Within part whole) :
    part.Sound := by
  induction inside with
  | self => exact sound
  | target width _ ih => cases sound with | ref _ sound _ => exact ih sound
  | item _ _ _ present _ ih => cases sound with | array _ _ sound _ _ => exact ih (sound _ present)
  | entry _ _ _ present _ ih =>
    cases sound with | refTable _ _ sound _ => exact ih (sound _ present)
  | member present _ ih => cases sound with | struct _ sound => exact ih (sound _ present)

/-- In every array in place, the types of the items are as wide as the element type. -/
def Uniform (value : Value) : Prop :=
  ∀ element fixed align items, Within (.array element fixed align items) value →
    ∀ item ∈ items, item.type.width? = element.width?

namespace Uniform

theorem within {part whole : Value} (uniform : whole.Uniform) (inside : Within part whole) :
    part.Uniform :=
  fun _ _ _ _ deeper => uniform _ _ _ _ (deeper.trans inside)

theorem target {target : Value} {width : RefWidth} (uniform : (ref target width).Uniform) :
    target.Uniform :=
  uniform.within (.target width .self)

theorem item {element : Ty} {fixed : Option Nat} {align : Nat} {items : List Value}
    (uniform : (array element fixed align items).Uniform) : ∀ item ∈ items, item.Uniform :=
  fun _ present => uniform.within (.item element fixed align present .self)

theorem entry {target : Ty} {fixed : Option Nat} {width : RefWidth} {items : List Value}
    (uniform : (refTable target fixed width items).Uniform) : ∀ item ∈ items, item.Uniform :=
  fun _ present => uniform.within (.entry target fixed width present .self)

theorem member {record : Record Value} (uniform : (struct record).Uniform) :
    ∀ member ∈ record.members, member.content.Uniform :=
  fun _ present => uniform.within (.member present .self)

end Uniform

/-- Another alignment leaves the items of an array as they are. -/
theorem realign_children {value next : Value} {align : Nat} (made : value.realign align = .ok next) :
    next.children = value.children := by
  rcases realign_eq_ok made with rfl | ⟨element, fixed, before, items, place, rfl, -, rfl⟩ |
    ⟨content, place, rfl, -, rfl⟩ | ⟨fixed, before, content, place, rfl, -, rfl⟩
  · rfl
  · rfl
  · rfl
  · rfl

end Value

namespace Draft

variable {holds : Member Value → Prop} {draft : Draft}

/-- What holds of zero bytes and of the members of a draft holds behind padding. -/
theorem forall_padTo (zeros : ∀ member : Member Value, member.content = zeroByte → holds member)
    (before : ∀ member ∈ draft.members, holds member) (position align : Nat) :
    ∀ member ∈ (draft.padTo position align).members, holds member := by
  intro member present
  rcases mem_padTo present with old | zero
  · exact before member old
  · exact zeros member zero

/-- What holds of zero bytes, and of built values behind the gap that aligns them, holds of the
    members of a built draft. -/
theorem Built.forall_members
    (zeros : ∀ member : Member Value, member.content = zeroByte → holds member)
    (put : ∀ name cursor (value : Value), value.Built →
      holds ⟨name, cursor + gap cursor value.type.align, value, false⟩)
    (built : draft.Built) : ∀ member ∈ draft.members, holds member := by
  -- Drafts, values and types are built together. Only drafts matter here.
  apply @Draft.Built.rec (fun _ _ => True) (fun _ _ => True)
    (fun draft _ => ∀ member ∈ draft.members, holds member) (t := built)
  case declare =>
    intro name draft declared member present
    obtain ⟨_, -, same⟩ := bind_eq_ok.mp declared
    obtain rfl := Except.ok.inj same
    cases present
  case addInPlace =>
    intro draft next name value _ content added before _ member present
    obtain ⟨cursor, _, -, -, rfl⟩ := place_eq_ok (place_of_addInPlace added)
    rcases List.mem_append.mp present with old | new
    · exact forall_padTo zeros before _ _ member old
    · obtain rfl := List.mem_singleton.mp new
      exact put _ _ _ content
  case addConstant =>
    intro draft next name datum _ added before
    obtain ⟨constants, rfl⟩ := addConstant_eq_ok added
    exact before
  case addConstants =>
    intro draft next ignorePrivate items _ added before
    obtain ⟨constants, rfl⟩ := addConstants_eq_ok added
    exact before
  case declareEnum => exact fun _ _ before => before
  all_goals
    intros
    trivial

/-- A zero byte is built. -/
theorem content_built_of_zero (member : Member Value) (zero : member.content = zeroByte) :
    member.content.Built := by
  rw [zero]
  exact .int _

/-- The members of a built draft are built. -/
theorem Built.content (built : draft.Built) : ∀ member ∈ draft.members, member.content.Built :=
  built.forall_members content_built_of_zero fun _ _ _ before => before

end Draft

namespace Value

/-- The children of a built value are built. -/
theorem Built.child {value : Value} (built : value.Built) :
    ∀ child ∈ value.children, child.Built := by
  -- The hypothesis of the induction is for `realign` alone, which keeps the children.
  apply @Value.Built.rec (fun _ _ => True)
    (fun value _ => ∀ child ∈ value.children, child.Built) (fun _ _ => True) (t := built)
  -- Types, drafts, and values without children.
  all_goals try (intros; trivial)
  case refTo =>
    intro target width before _ child direct
    rw [Value.refTo] at direct
    split at direct
    · cases direct
    · exact List.mem_singleton.mp direct ▸ before
  case arrayOf =>
    intro element items fixed value _ before made _ _ child direct
    obtain ⟨common, place, -, -, -, rfl⟩ := arrayOf_eq_ok made
    exact before child direct
  case realign =>
    intro value next align _ made before child direct
    rw [realign_children made] at direct
    exact before child direct
  case stringOf =>
    intro content fixed terminated value made child direct
    obtain ⟨array, -, rfl⟩ := map_eq_ok.mp made
    cases direct
  case blobOf =>
    intro content fixed align value made child direct
    obtain ⟨place, -, -, rfl⟩ := blobOf_eq_ok made
    cases direct
  case refTableOf =>
    intro items fixed width value before made _ child direct
    obtain ⟨first, target, -, -, -, -, rfl⟩ := refTableOf_eq_ok made
    exact before child direct
  case openRecord =>
    intro draft before _ child direct
    obtain ⟨member, present, rfl⟩ := List.mem_map.mp direct
    exact before.content member present
  case finalize =>
    intro draft align value before made _ child direct
    obtain ⟨cursor, -, -, -, rfl⟩ := Draft.finalize_eq_ok made
    obtain ⟨member, present, rfl⟩ := List.mem_map.mp direct
    exact Draft.forall_padTo Draft.content_built_of_zero before.content _ _ member present

/-- The parts of a built value are built. -/
theorem Built.within {part whole : Value} (built : whole.Built) (inside : Within part whole) :
    part.Built := by
  induction inside using Within.through_children with
  | self => exact built
  | child whole child direct _ ih => exact ih (built.child child direct)

end Value
end BinaryLayout
