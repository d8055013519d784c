import BinaryLayout.Proofs.Decoding

/-!
# References stored in place

Through all records and arrays that a value stores in place, its references stand in a
row: each has a position, a record that resolves it, and a target. Packing a value is
resolving this row at one free byte that only moves forward. What a reference points to
is a document of its own, so an induction over documents goes from targets to the value
that refers to them.
-/

namespace BinaryLayout.Value

/-- A reference that leads somewhere: where its bytes stand, where the record that resolves
    it starts, how wide it is, and what it points to. -/
structure Link where
  position : Nat
  base : Nat
  width : RefWidth
  target : Value

mutual

/-- The references in the bytes of a value that stands at a position, in layout order. Only
    a reference resolves against the record around it, which starts at the base; every other
    value resolves against itself. -/
def links : Value → (base position : Nat) → List Link
  | ref target width, base, position => [⟨position, base, width, target⟩]
  | array element _ _ items, _, position => itemLinks (element.width?.getD 0) items position
  | refTable _ _ width items, _, position => entryLinks width items position position
  | struct ⟨_, members, _, _, _, _⟩, _, position => memberLinks members position
  | _, _, _ => []

/-- Items stand at multiples of the width of their type. -/
def itemLinks (width : Nat) : List Value → (position : Nat) → List Link
  | [], _ => []
  | item :: rest, position => item.links position position ++ itemLinks width rest (position + width)

/-- Entries of a reference table, of which null items lead nowhere. -/
def entryLinks (width : RefWidth) : List Value → (base position : Nat) → List Link
  | [], _, _ => []
  | item :: rest, base, position =>
      (if item.isNull then [] else [⟨position, base, width, item⟩]) ++
        entryLinks width rest base (position + width.bytes)

/-- Members stand at their offsets. -/
def memberLinks : List (Member Value) → (start : Nat) → List Link
  | [], _ => []
  | ⟨_, offset, value, _⟩ :: rest, start =>
      value.links start (start + offset) ++ memberLinks rest start

end

section Shape

attribute [local simp] links itemLinks entryLinks memberLinks

theorem links_struct (record : Record Value) (base position : Nat) :
    (struct record).links base position = memberLinks record.members position := by
  cases record
  rfl

/-- The links of items are links of the items. -/
theorem mem_itemLinks {width position : Nat} {items : List Value} {link : Link}
    (present : link ∈ itemLinks width items position) :
    ∃ item ∈ items, ∃ place, position ≤ place ∧ place + width ≤ position + width * items.length ∧
      link ∈ item.links place place := by
  induction items generalizing position with
  | nil => simp at present
  | cons item rest ih =>
    simp only [itemLinks, List.mem_append] at present
    simp only [List.length_cons, Nat.mul_succ]
    rcases present with here | later
    · exact ⟨item, by simp, position, Nat.le_refl _, by omega, here⟩
    · obtain ⟨other, inRest, place, behind, room, inside⟩ := ih later
      exact ⟨other, by simp [inRest], place, by omega, by omega, inside⟩

/-- The links of a reference table lead to its items. -/
theorem mem_entryLinks {width : RefWidth} {base position : Nat} {items : List Value} {link : Link}
    (present : link ∈ entryLinks width items base position) :
    link.target ∈ items ∧ link.target.isNull = false ∧ link.base = base ∧
      position ≤ link.position ∧
      link.position + link.width.bytes ≤ position + width.bytes * items.length := by
  induction items generalizing position with
  | nil => simp at present
  | cons item rest ih =>
    simp only [entryLinks, List.mem_append] at present
    simp only [List.length_cons, Nat.mul_succ]
    rcases present with here | later
    · split at here
      · simp at here
      · rename_i leads
        obtain rfl := List.mem_singleton.mp here
        exact ⟨by simp, by simpa using leads, rfl, Nat.le_refl _, by simp⟩
    · obtain ⟨inRest, leads, same, behind, room⟩ := ih later
      exact ⟨by simp [inRest], leads, same, by omega, by omega⟩

/-- The links of members are links of the members. -/
theorem mem_memberLinks {start : Nat} {members : List (Member Value)} {link : Link}
    (present : link ∈ memberLinks members start) :
    ∃ member ∈ members, link ∈ member.content.links start (start + member.offset) := by
  induction members with
  | nil => simp at present
  | cons member rest ih =>
    obtain ⟨name, offset, value, isPadding⟩ := member
    simp only [memberLinks, List.mem_append] at present
    rcases present with here | later
    · exact ⟨_, List.mem_cons_self, here⟩
    · obtain ⟨other, inRest, inside⟩ := ih later
      exact ⟨other, by simp [inRest], inside⟩

/-- Items have their links among those of the array. -/
theorem exists_itemLinks {item : Value} {items : List Value} (present : item ∈ items)
    (width position : Nat) :
    ∃ place, ∀ link ∈ item.links place place, link ∈ itemLinks width items position := by
  induction items generalizing position with
  | nil => simp at present
  | cons first rest ih =>
    rcases List.mem_cons.mp present with rfl | later
    · exact ⟨position, fun link inside => List.mem_append_left _ inside⟩
    · obtain ⟨place, among⟩ := ih later (position + width)
      exact ⟨place, fun link inside => List.mem_append_right _ (among link inside)⟩

/-- Items of a reference table that are not null have a link to them. -/
theorem exists_entryLink {item : Value} {items : List Value} (present : item ∈ items)
    (leads : item.isNull = false) (width : RefWidth) (base position : Nat) :
    ∃ link ∈ entryLinks width items base position, link.target = item := by
  induction items generalizing position with
  | nil => simp at present
  | cons first rest ih =>
    rcases List.mem_cons.mp present with rfl | later
    · exact ⟨⟨position, base, width, item⟩, by simp [leads], rfl⟩
    · obtain ⟨link, inside, same⟩ := ih later (position + width.bytes)
      exact ⟨link, List.mem_append_right _ inside, same⟩

/-- Members have their links among those of the struct. -/
theorem exists_memberLinks {member : Member Value} {members : List (Member Value)}
    (present : member ∈ members) (start : Nat) :
    ∃ place, ∀ link ∈ member.content.links start place, link ∈ memberLinks members start := by
  induction members with
  | nil => simp at present
  | cons first rest ih =>
    obtain ⟨name, offset, value, isPadding⟩ := first
    rcases List.mem_cons.mp present with rfl | later
    · exact ⟨start + offset, fun link inside => List.mem_append_left _ inside⟩
    · obtain ⟨place, among⟩ := ih later
      exact ⟨place, fun link inside => List.mem_append_right _ (among link inside)⟩

end Shape

/-- Induction over documents: what holds of a value when it holds of all targets of its links
    holds of every value. -/
theorem links_induction {motive : Value → Prop}
    (step : ∀ value : Value,
      (∀ base position, ∀ link ∈ value.links base position, motive link.target) → motive value)
    (value : Value) : motive value := by
  refine step value ?_
  induction value using Value.induction <;> intro base position link present
  case ref target width ih =>
    obtain rfl := List.mem_singleton.mp present
    exact step target ih
  case array element fixed align items ih =>
    obtain ⟨item, inItems, place, -, -, inside⟩ := mem_itemLinks present
    exact ih item inItems _ _ link inside
  case refTable target fixed width items ih =>
    exact step _ (ih _ (mem_entryLinks present).1)
  case struct record ih =>
    rw [links_struct] at present
    obtain ⟨member, inMembers, inside⟩ := mem_memberLinks present
    exact ih member inMembers _ _ link inside
  all_goals cases present

/-- The targets of links are parts of the value. -/
theorem links_inside {value : Value} {base position : Nat} :
    ∀ link ∈ value.links base position, Within link.target value := by
  induction value using Value.induction generalizing base position <;> intro link present
  case ref target width ih =>
    obtain rfl := List.mem_singleton.mp present
    exact .target width .self
  case array element fixed align items ih =>
    obtain ⟨item, inItems, place, -, -, inside⟩ := mem_itemLinks present
    exact .item element fixed align inItems (ih item inItems link inside)
  case refTable target fixed width items ih =>
    exact .entry target fixed width (mem_entryLinks present).1 .self
  case struct record ih =>
    rw [links_struct] at present
    obtain ⟨member, inMembers, inside⟩ := mem_memberLinks present
    exact .member inMembers (ih member inMembers link inside)
  all_goals cases present

/-- Members stand one behind the other, each where the sizes of those before it end. -/
def Placed : (start : Nat) → List (Member Value) → Prop
  | _, [] => True
  | start, member :: rest =>
      member.offset = start ∧ ∃ size, member.content.size = .ok size ∧ Placed (start + size) rest

/-- Members that are laid out in a row of widths stand in a row of sizes. -/
theorem placed_of_laid {members : List (Member Value)} {start total : Nat} {finish : Option Nat}
    (laid : Consecutive start (memberTypes members) finish)
    (widths : ∀ member ∈ members, ∀ width, member.content.type.width? = some width →
      member.content.size = .ok width)
    (sized : membersSize 0 members = .ok total) : Placed start members := by
  induction members generalizing start total finish with
  | nil => trivial
  | cons member rest ih =>
    obtain ⟨size, remaining, measured, measured', rfl, -⟩ := membersSize_cons.mp sized
    obtain ⟨here, tail⟩ := laid
    rw [List.forall_mem_cons] at widths
    refine ⟨here, size, measured, ?_⟩
    cases known : member.content.type.width? with
    | none =>
      obtain ⟨ends, -⟩ : memberTypes rest = [] ∧ finish = none := by simpa [known] using tail
      cases rest with
      | nil => trivial
      | cons next others => cases next; simp [memberTypes] at ends
    | some width =>
      obtain rfl : width = size := Except.ok.inj ((widths.1 width known).symm.trans measured)
      exact ih (by simpa [known] using tail) widths.2 measured'

/-- The members of a sound struct stand in a row. -/
theorem Sound.placed {record : Record Value} {size : Nat} (sound : (Value.struct record).Sound)
    (sized : (Value.struct record).size = .ok size) :
    Placed 0 record.members ∧ membersSize 0 record.members = .ok size := by
  obtain ⟨name, members, align, announced, constants, enums⟩ := record
  have measured : membersSize 0 members = .ok size := sized
  cases sound with
  | struct type sound =>
  cases type with
  | struct _ _ _ laid _ =>
  obtain ⟨finish, laid, -⟩ := laid
  refine ⟨placed_of_laid laid (fun member present width known => ?_) measured, measured⟩
  exact (sound member present).size_of_width known

/-- A member lies within the members together. -/
theorem Placed.within {members : List (Member Value)} {start total : Nat}
    (placed : Placed start members) (sized : membersSize 0 members = .ok total) :
    ∀ member ∈ members, ∃ size, member.content.size = .ok size ∧ start ≤ member.offset ∧
      member.offset + size ≤ start + total := by
  induction members generalizing start total with
  | nil => simp
  | cons member rest ih =>
    obtain ⟨first, remaining, measured, measured', rfl, -⟩ := membersSize_cons.mp sized
    obtain ⟨here, size, known, later⟩ := placed
    obtain rfl : size = first := Except.ok.inj (known.symm.trans measured)
    refine List.forall_mem_cons.mpr ⟨⟨size, known, by omega, by omega⟩, fun other present => ?_⟩
    obtain ⟨otherSize, otherKnown, behind, room⟩ := ih later measured' other present
    exact ⟨otherSize, otherKnown, by omega, by omega⟩

/-- The links of a value lie within its bytes, and no record that resolves them starts behind
    them. -/
theorem Sound.links_within {value : Value} (sound : value.Sound) (uniform : value.Uniform)
    {base position size : Nat} (sized : value.size = .ok size) (behind : base ≤ position) :
    ∀ link ∈ value.links base position, link.base ≤ link.position ∧ position ≤ link.position ∧
      link.position + link.width.bytes ≤ position + size := by
  induction value using Value.induction generalizing base position size <;> intro link present
  case ref target width ih =>
    obtain rfl := List.mem_singleton.mp present
    obtain rfl := Except.ok.inj sized
    exact ⟨behind, Nat.le_refl _, Nat.le_refl _⟩
  case array element fixed align items ih =>
    obtain ⟨width, known, itemSizes⟩ := sound.item_size uniform
    obtain ⟨-, rfl⟩ := checked_eq_ok.mp ((size_array known ..).symm.trans sized)
    cases sound with
    | array _ fits sound _ _ =>
    have room := Nat.mul_le_mul_left width (Fits.le_getD fits)
    obtain ⟨item, inItems, place, after, before, inside⟩ := mem_itemLinks present
    rw [known, Option.getD_some] at before
    obtain ⟨resolved, first, last⟩ := ih item inItems (sound item inItems)
      (uniform.item item inItems) (itemSizes item inItems) (Nat.le_refl place) link inside
    exact ⟨resolved, by omega, by omega⟩
  case refTable target fixed width items ih =>
    obtain ⟨-, rfl⟩ := checked_eq_ok.mp sized
    cases sound with
    | refTable _ fits _ _ =>
    have room := Nat.mul_le_mul_left width.bytes (Fits.le_getD fits)
    obtain ⟨-, -, same, first, last⟩ := mem_entryLinks present
    exact ⟨by omega, first, by omega⟩
  case struct record ih =>
    obtain ⟨placed, measured⟩ := sound.placed sized
    cases sound with
    | struct _ sound =>
    rw [links_struct] at present
    obtain ⟨member, inMembers, inside⟩ := mem_memberLinks present
    obtain ⟨memberSize, known, -, room⟩ := placed.within measured member inMembers
    obtain ⟨resolved, first, last⟩ := ih member inMembers (sound member inMembers)
      (uniform.member member inMembers) known (Nat.le_add_right ..) link inside
    exact ⟨resolved, by omega, by omega⟩
  all_goals cases present

/-- Resolve a link at a free byte, which is counted like the positions. -/
def Link.resolve (link : Link) (free : Nat) : Except LayoutError Blocks :=
  Value.resolve link.width link.target.type.align (free - link.base)
    (packWhole link.target link.target.packAt)

/-- Resolve links in order, each at the free byte behind what the ones before refer to. -/
def resolveAll : List Link → (free : Nat) → Except LayoutError (List Blocks)
  | [], _ => .ok []
  | link :: rest, free => do
      let part ← link.resolve free
      let parts ← resolveAll rest (free + part.referred.bytes.length)
      return part :: parts

/-- The bytes of a value are those of its links: resolving these from the free byte on gives
    what the value refers to, and wherever a buffer holds the value it holds the links. -/
def Resolved (links : List Link) (free position : Nat) (inPlace referred : List UInt8) : Prop :=
  ∃ parts, resolveAll links free = .ok parts ∧ (Blocks.join parts).referred.bytes = referred ∧
    ∀ buffer, HoldsAt buffer position inPlace →
      List.Forall₂ (fun link part => HoldsAt buffer link.position part.inPlace.bytes) links parts

section Rows

variable {first second : List Link} {free position : Nat}

theorem resolveAll_cons {link : Link} {rest : List Link} {parts : List Blocks} :
    resolveAll (link :: rest) free = .ok parts ↔
      ∃ part later, link.resolve free = .ok part ∧
        resolveAll rest (free + part.referred.bytes.length) = .ok later ∧ parts = part :: later := by
  simp [resolveAll, bind_eq_ok, pure, Except.pure, eq_comm (a := parts)]

/-- Two rows of links are resolved one behind the other. -/
theorem resolveAll_append {parts later : List Blocks}
    (resolved : resolveAll first free = .ok parts)
    (behind : resolveAll second (free + (Blocks.join parts).referred.bytes.length) = .ok later) :
    resolveAll (first ++ second) free = .ok (parts ++ later) := by
  induction first generalizing free parts with
  | nil =>
    obtain rfl : parts = [] := by simpa [resolveAll, eq_comm] using resolved
    exact behind
  | cons link rest ih =>
    obtain ⟨part, others, here, tail, rfl⟩ := resolveAll_cons.mp resolved
    rw [Blocks.join_cons_referred, List.length_append, ← Nat.add_assoc] at behind
    exact resolveAll_cons.mpr ⟨part, others ++ later, here, ih tail behind, rfl⟩

theorem join_append_referred (parts later : List Blocks) :
    (Blocks.join (parts ++ later)).referred.bytes =
      (Blocks.join parts).referred.bytes ++ (Blocks.join later).referred.bytes := by
  simp [Blocks.join, Run.join]

namespace Resolved

/-- A value without links refers to nothing. -/
theorem nil {inPlace : List UInt8} : Resolved [] free position inPlace [] :=
  ⟨[], rfl, rfl, fun _ _ => .nil⟩

/-- A single link. -/
theorem single {link : Link} {part : Blocks} (resolved : link.resolve free = .ok part) :
    Resolved [link] free link.position part.inPlace.bytes part.referred.bytes :=
  ⟨[part], resolveAll_cons.mpr ⟨part, [], resolved, rfl, rfl⟩, by simp [Run.empty],
    fun _ holds => .cons holds .nil⟩

/-- Parts in a row. -/
theorem append {inPlace inPlace' referred referred' : List UInt8}
    (here : Resolved first free position inPlace referred)
    (behind : Resolved second (free + referred.length) (position + inPlace.length) inPlace'
      referred') :
    Resolved (first ++ second) free position (inPlace ++ inPlace') (referred ++ referred') := by
  obtain ⟨parts, resolved, rfl, held⟩ := here
  obtain ⟨later, resolved', rfl, held'⟩ := behind
  refine ⟨parts ++ later, resolveAll_append resolved resolved', join_append_referred .., ?_⟩
  intro buffer holds
  exact List.rel_append (held buffer holds.left) (held' buffer holds.right)

/-- Bytes behind the links do not matter. -/
theorem fill {inPlace referred unused : List UInt8}
    (here : Resolved first free position inPlace referred) :
    Resolved first free position (inPlace ++ unused) referred := by
  obtain ⟨parts, resolved, same, held⟩ := here
  exact ⟨parts, resolved, same, fun buffer holds => held buffer holds.left⟩

end Resolved

end Rows

/-- Packing a value from a free byte behind it is resolving its links. -/
def Flat (value : Value) : Prop :=
  ∀ base position free size blocks, value.size = .ok size → base ≤ position →
    position + size ≤ free →
    value.packAt (free - if value.isRef then base else position) = .ok blocks →
    Resolved (value.links base position) free position blocks.inPlace.bytes blocks.referred.bytes

section Lists

variable {position free : Nat} {parts : List Blocks}

/-- Items of one width resolve the links of the items. -/
theorem packItems_resolved {items : List Value} {width start : Nat}
    (flat : ∀ item ∈ items, item.Flat) (exact : ∀ item ∈ items, item.Exact)
    (direct : ∀ item ∈ items, item.isRef = false) (sized : ∀ item ∈ items, item.size = .ok width)
    (room : position + start + width * items.length ≤ free)
    (packed : packItems items start (free - position) = .ok parts) :
    Resolved (itemLinks width items (position + start)) free (position + start)
      (Blocks.join parts).inPlace.bytes (Blocks.join parts).referred.bytes := by
  induction items generalizing start free parts with
  | nil =>
    obtain rfl : parts = [] := by simpa [packItems, eq_comm] using packed
    exact .nil
  | cons item rest ih =>
    obtain ⟨part, later, first, others, rfl, -⟩ := packItems_cons.mp packed
    simp only [List.length_cons, Nat.mul_succ] at room
    rw [Nat.sub_sub] at first
    rw [List.forall_mem_cons] at flat exact direct sized
    have written := exact.1 _ _ _ sized.1 (by omega) first
    have here := flat.1 (position + start) (position + start) free width part sized.1
      (Nat.le_refl _) (by omega) (by rwa [direct.1])
    rw [← Nat.sub_add_comm (by omega), written] at others
    have behind := ih flat.2 exact.2 direct.2 sized.2 (by omega) others
    rw [Blocks.join_cons_inPlace, Blocks.join_cons_referred]
    refine here.append ?_
    rwa [written, Nat.add_assoc]

/-- Entries of a reference table resolve the links to its items. -/
theorem packEntries_resolved {items : List Value} {width : RefWidth} {base : Nat}
    (behind : base ≤ free) (packed : packEntries width items (free - base) = .ok parts) :
    Resolved (entryLinks width items base position) free position
      (Blocks.join parts).inPlace.bytes (Blocks.join parts).referred.bytes := by
  induction items generalizing position free parts with
  | nil =>
    obtain rfl : parts = [] := by simpa [packEntries, eq_comm] using packed
    exact .nil
  | cons item rest ih =>
    obtain ⟨part, later, first, others, rfl, -⟩ := packEntries_cons.mp packed
    rw [← Nat.sub_add_comm behind] at others
    have later : Resolved (entryLinks width rest base (position + width.bytes)) _ _ _ _ :=
      ih (by omega) others
    rw [Blocks.join_cons_inPlace, Blocks.join_cons_referred, entryLinks]
    unfold packEntry at first
    split at first
    · rename_i absent
      obtain rfl := Except.ok.inj first
      rw [if_pos absent]
      exact Resolved.append .nil (by simpa [Blocks.ofBytes, RefWidth.bytes, Run.empty] using later)
    · rename_i leads
      have length : part.inPlace.bytes.length = width.bytes := by
        obtain ⟨data, -, -, rfl⟩ := resolve_eq_ok.mp first
        simp [RefWidth.bytes]
      rw [if_neg leads]
      have resolved : Link.resolve ⟨position, base, width, item⟩ free = .ok part := first
      exact (Resolved.single resolved).append (by rwa [length])

/-- Where a member is packed, counted from its struct. -/
theorem memberOffset (member : Member Value) (start : Nat) :
    (if member.content.isRef then free - position else free - position - start) =
      free - if member.content.isRef then position else position + start := by
  rw [Nat.sub_sub]
  split <;> rfl

/-- Members in a row resolve the links of the members. -/
theorem packMembers_resolved {members : List (Member Value)} {start total : Nat}
    (flat : ∀ member ∈ members, member.content.Flat)
    (exact : ∀ member ∈ members, member.content.Exact) (placed : Placed start members)
    (sized : membersSize 0 members = .ok total) (room : position + start + total ≤ free)
    (packed : packMembers members start (free - position) = .ok parts) :
    Resolved (memberLinks members position) free (position + start)
      (Blocks.join parts).inPlace.bytes (Blocks.join parts).referred.bytes := by
  induction members generalizing start free total parts with
  | nil =>
    obtain rfl : parts = [] := by simpa [packMembers, eq_comm] using packed
    exact .nil
  | cons member rest ih =>
    obtain ⟨part, later, first, others, rfl, -⟩ := packMembers_cons.mp packed
    obtain ⟨size, remaining, measured, measured', rfl, -⟩ := membersSize_cons.mp sized
    obtain ⟨here, size', known, tail⟩ := placed
    obtain rfl : size' = size := Except.ok.inj (known.symm.trans measured)
    rw [memberOffset] at first
    rw [List.forall_mem_cons] at flat exact
    have written := exact.1 _ _ _ measured (by split <;> omega) first
    have resolved := flat.1 position (position + start) free size' part measured
      (Nat.le_add_right ..) (by omega) first
    rw [← Nat.sub_add_comm (by omega), written] at others
    have behind := ih flat.2 exact.2 tail measured' (by omega) others
    obtain ⟨name, place, content, isPadding⟩ := member
    obtain rfl : place = start := here
    rw [Blocks.join_cons_inPlace, Blocks.join_cons_referred, memberLinks]
    refine resolved.append ?_
    rwa [written, Nat.add_assoc]

end Lists

/-- Packing a sound uniform value is resolving its links. -/
theorem Sound.flat {value : Value} (sound : value.Sound) (uniform : value.Uniform) :
    value.Flat := by
  induction value using Value.induction <;>
    intro base position free size blocks sized behind room packed
  case ref target width ih =>
    have resolved : Link.resolve ⟨position, base, width, target⟩ free = .ok blocks := packed
    exact .single resolved
  case array element fixed align items ih =>
    obtain ⟨width, known, itemSizes⟩ := sound.item_size uniform
    obtain ⟨parts, stored, rfl⟩ := (packAt_array sized).mp packed
    obtain ⟨-, rfl⟩ := checked_eq_ok.mp ((size_array known ..).symm.trans sized)
    cases sound with
    | array _ fits sound direct _ =>
    have enough := Nat.mul_le_mul_left width (Fits.le_getD fits)
    have resolved : Resolved (itemLinks width items (position + 0)) _ _ _ _ := packItems_resolved
      (fun item present => ih item present (sound item present) (uniform.item item present))
      (fun item present => (sound item present).exact (uniform.item item present)) direct
      itemSizes (by omega) stored
    rw [Blocks.fill, Run.fill_bytes, links, known]
    exact resolved.fill
  case refTable target fixed width items ih =>
    obtain ⟨parts, stored, rfl⟩ := (packAt_refTable sized).mp packed
    rw [Blocks.fill, Run.fill_bytes, links]
    have resolved : Resolved (entryLinks width items position position) _ _ _ _ :=
      packEntries_resolved (by omega) stored
    exact resolved.fill
  case struct record ih =>
    obtain ⟨parts, stored, rfl⟩ := (sound.packAt_struct sized).mp packed
    obtain ⟨placed, measured⟩ := sound.placed sized
    cases sound with
    | struct _ sound =>
    have resolved : Resolved (memberLinks record.members position) _ _ _ _ := packMembers_resolved
      (fun member present => ih member present (sound member present) (uniform.member member present))
      (fun member present => (sound member present).exact (uniform.member member present))
      placed measured (by omega) stored
    rw [Blocks.fill, Run.fill_bytes, links_struct]
    exact resolved.fill
  case bitField field =>
    obtain ⟨bytes, stored, rfl⟩ := map_eq_ok.mp packed
    exact .nil
  case bitTable table =>
    obtain ⟨bytes, stored, rfl⟩ := map_eq_ok.mp packed
    exact .nil
  all_goals
    obtain rfl := Except.ok.inj packed
    exact .nil

end BinaryLayout.Value
