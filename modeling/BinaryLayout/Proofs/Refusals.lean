import BinaryLayout.Proofs.Documents

/-!
# Why packing is refused

A built value is packed as a document unless one of three conditions is broken somewhere in
it: no document is a bare reference, no bit field array has entries too wide for its header,
and no reference has to store a distance out of its range. A refusal names a condition that is
broken, together with the part that breaks it. Nothing else that packing could refuse is left
once the checks at construction are passed.

Distances and lengths are counted without bound here, and packing counts them in 64-bit words.
It stops where they leave these, which they do in no document that memory can hold.
-/

namespace BinaryLayout.Value

/-- What a document must satisfy to be packed. -/
structure Packable (value : Value) : Prop where
  /-- Neither the value nor a target is a reference itself. -/
  direct : ∀ part, Document part value → part.isRef = false
  /-- The entries of every bit field array have room in its header. -/
  narrow : ∀ table, Within (.bitTable table) value → table.stride ≤ 65535
  /-- The distance of every target, counted without bound, can be stored. -/
  near : ∀ part, Document part value → ∀ place ∈ part.places, place.2 ≤ place.1.width.kind.max

/-- A broken condition, and how packing reports it. -/
inductive Violation (value : Value) : LayoutError → Prop
  | bare {part : Value} (document : Document part value) (reference : part.isRef = true) :
      Violation value .unresolvedReference
  | wide {table : BitTable} (inside : Within (.bitTable table) value)
      (overflow : 65535 < table.stride) :
      Violation value (.bitField table.type.name (.strideOverflow table.stride))
  | far {part : Value} {place : Link × Nat} (document : Document part value)
      (placed : place ∈ part.places) (overflow : place.1.width.kind.max < place.2) :
      Violation value (.valueRange (toString (place.2 : Int)) place.1.width.kind.name)

/-- A value that can be packed has no broken condition. -/
theorem Violation.not_packable {value : Value} {error : LayoutError}
    (violation : Violation value error) : ¬ value.Packable := by
  intro packable
  cases violation with
  | bare document reference => simp [packable.direct _ document] at reference
  | wide inside overflow => exact absurd (packable.narrow _ inside) (by omega)
  | far document placed overflow => exact absurd (packable.near _ document _ placed) (by omega)

/-- What is broken in a target is broken in the value. -/
theorem Violation.ofTarget {value : Value} {link : Link} {error : LayoutError}
    (present : link ∈ value.links 0 0) (violation : Violation link.target error) :
    Violation value error := by
  cases violation with
  | bare document reference => exact .bare (.target present document) reference
  | wide inside overflow => exact .wide (inside.trans (links_inside link present)) overflow
  | far document placed overflow => exact .far (.target present document) placed overflow

/-- A value is stored in place in another one. -/
inductive StoredIn (part : Value) : Value → Prop
  | self : StoredIn part part
  | item {item : Value} {items : List Value} (element : Ty) (fixed : Option Nat) (align : Nat)
      (present : item ∈ items) (inside : StoredIn part item) :
      StoredIn part (.array element fixed align items)
  | member {member : Member Value} {record : Record Value} (present : member ∈ record.members)
      (inside : StoredIn part member.content) : StoredIn part (.struct record)

/-- What is stored in a value is within it. -/
theorem StoredIn.within {part whole : Value} (stored : StoredIn part whole) : Within part whole := by
  induction stored with
  | self => exact .self
  | item element fixed align present _ ih => exact .item element fixed align present ih
  | member present _ ih => exact .member present ih

/-- A bit field array within a value is stored in it, or it is within the target of a link. -/
theorem Within.stored_or_target {table : BitTable} {value : Value}
    (inside : Within (.bitTable table) value) (base position : Nat) :
    StoredIn (.bitTable table) value ∨
      ∃ link ∈ value.links base position, Within (.bitTable table) link.target := by
  induction inside generalizing base position with
  | self => exact .inl .self
  | @target target width inside _ =>
    exact .inr ⟨⟨position, base, width, target⟩, List.mem_singleton.mpr rfl, inside⟩
  | @item item items element fixed align present _ ih =>
    obtain ⟨place, among⟩ := exists_itemLinks present (element.width?.getD 0) position
    rcases ih place place with stored | ⟨link, inItem, deeper⟩
    · exact .inl (.item element fixed align present stored)
    · exact .inr ⟨link, among link inItem, deeper⟩
  | @entry item items target fixed width present inside _ =>
    have leads : item.isNull = false := by
      cases inside <;> rfl
    obtain ⟨link, inLinks, rfl⟩ := exists_entryLink present leads width position position
    exact .inr ⟨link, inLinks, inside⟩
  | @member member record present _ ih =>
    obtain ⟨place, among⟩ := exists_memberLinks present position
    rw [links_struct]
    rcases ih position place with stored | ⟨link, inMember, deeper⟩
    · exact .inl (.member present stored)
    · exact .inr ⟨link, among link inMember, deeper⟩

/-- A value satisfies all conditions when it does so itself and all targets do. -/
theorem Packable.of_targets {value : Value} (direct : value.isRef = false)
    (narrow : ∀ table, StoredIn (.bitTable table) value → table.stride ≤ 65535)
    (near : ∀ place ∈ value.places, place.2 ≤ place.1.width.kind.max)
    (targets : ∀ link ∈ value.links 0 0, link.target.Packable) : value.Packable := by
  refine ⟨fun part document => ?_, fun table inside => ?_, fun part document => ?_⟩
  · cases document with
    | self => exact direct
    | target present inside => exact (targets _ present).direct part inside
  · rcases inside.stored_or_target 0 0 with here | ⟨link, present, deeper⟩
    · exact narrow table here
    · exact (targets link present).narrow table deeper
  · cases document with
    | self => exact near
    | target present inside => exact (targets _ present).near part inside

section Packed

/-- The items of packed items are packed. -/
theorem packItems_packed {items : List Value} {position running : Nat} {parts : List Blocks}
    (packed : packItems items position running = .ok parts) :
    ∀ item ∈ items, ∃ offset part, item.packAt offset = .ok part := by
  induction items generalizing position running parts with
  | nil => simp
  | cons item rest ih =>
    obtain ⟨part, later, first, others, -⟩ := packItems_cons.mp packed
    exact List.forall_mem_cons.mpr ⟨⟨_, part, first⟩, ih others⟩

/-- The members of packed members are packed. -/
theorem packMembers_packed {members : List (Member Value)} {position running : Nat}
    {parts : List Blocks} (packed : packMembers members position running = .ok parts) :
    ∀ member ∈ members, ∃ offset part, member.content.packAt offset = .ok part := by
  induction members generalizing position running parts with
  | nil => simp
  | cons member rest ih =>
    obtain ⟨part, later, first, others, -⟩ := packMembers_cons.mp packed
    exact List.forall_mem_cons.mpr ⟨⟨_, part, first⟩, ih others⟩

/-- The bit field arrays that are stored in a packed value have bytes. -/
theorem StoredIn.exists_bytes {table : BitTable} {value : Value}
    (stored : StoredIn (.bitTable table) value) {offset : Nat} {blocks : Blocks}
    (packed : value.packAt offset = .ok blocks) : ∃ bytes, table.bytes = .ok bytes := by
  induction stored generalizing offset blocks with
  | self =>
    obtain ⟨bytes, encoded, -⟩ := map_eq_ok.mp packed
    exact ⟨bytes, encoded⟩
  | item element fixed align present _ ih =>
    obtain ⟨parts, items, -⟩ := bind_eq_ok.mp packed
    obtain ⟨offset', part, first⟩ := packItems_packed items _ present
    exact ih first
  | @member member record present _ ih =>
    obtain ⟨name, members, align, size, constants, enums⟩ := record
    obtain ⟨parts, members, -⟩ := bind_eq_ok.mp packed
    obtain ⟨offset', part, first⟩ := packMembers_packed members _ present
    exact ih first

end Packed

section Failed

variable {position free running : Nat} {error : LayoutError}

/-- A bit field array that is stored in a value cannot be encoded. -/
def BadTable (value : Value) (error : LayoutError) : Prop :=
  ∃ table, StoredIn (.bitTable table) value ∧ table.bytes = .error error

/-- Links cannot all be resolved from a free byte on: one of them fails, or the program stops
    because the free byte has left the address space. -/
inductive Stuck : List Link → (free : Nat) → LayoutError → Prop
  | full {links : List Link} {free : Nat} (long : addressSpace ≤ free) : Stuck links free .overflow
  | here {link : Link} {rest : List Link} {free : Nat} {error : LayoutError}
      (failed : link.resolve free = .error error) : Stuck (link :: rest) free error
  | later {link : Link} {rest : List Link} {free : Nat} {part : Blocks} {error : LayoutError}
      (resolved : link.resolve free = .ok part)
      (stuck : Stuck rest (free + part.referred.bytes.length) error) :
      Stuck (link :: rest) free error

/-- Links are stuck with others behind them when they are stuck alone. -/
theorem Stuck.append {first : List Link} (stuck : Stuck first free error) (second : List Link) :
    Stuck (first ++ second) free error := by
  induction stuck with
  | full long => exact .full long
  | here failed => exact .here failed
  | later resolved _ ih => exact .later resolved ih

/-- Links of a part that is packed lead on to the links behind them. -/
theorem Resolved.stuck {first second : List Link} {inPlace referred : List UInt8}
    (resolved : Resolved first free position inPlace referred)
    (stuck : Stuck second (free + referred.length) error) : Stuck (first ++ second) free error := by
  obtain ⟨parts, resolved, rfl, -⟩ := resolved
  induction first generalizing free parts with
  | nil =>
    obtain rfl : parts = [] := by simpa [resolveAll, eq_comm] using resolved
    exact stuck
  | cons link rest ih =>
    obtain ⟨part, others, here, tail, rfl⟩ := resolveAll_cons.mp resolved
    rw [Blocks.join_cons_referred, List.length_append, ← Nat.add_assoc] at stuck
    exact .later here (ih others tail stuck)

/-- Parts in a row fail at the first one, at the free byte behind it, or further behind. -/
theorem row_eq_error {first : Except LayoutError Blocks}
    {later : Blocks → Nat → Except LayoutError (List Blocks)}
    (failed : (do
      let part ← first
      let running ← checked .overflow (running + part.referred.bytes.length)
      let parts ← later part running
      return part :: parts) = .error error) :
    first = .error error ∨ ∃ part, first = .ok part ∧
      (addressSpace ≤ running + part.referred.bytes.length ∧ .overflow = error ∨
        later part (running + part.referred.bytes.length) = .error error) := by
  simp only [bind_eq_error, checked_eq_error, checked_eq_ok, pure, Except.pure] at failed
  grind

/-- The first member is packed, then the ones behind it. -/
theorem packMembers_eq_bind {member : Member Value} {rest : List (Member Value)}
    (behind : position ≤ running) :
    packMembers (member :: rest) position running = (do
      let part ← member.content.packAt
        (if member.content.isRef then running else running - position)
      let running ← checked .overflow (running + part.referred.bytes.length)
      let parts ← packMembers rest (position + part.inPlace.bytes.length) running
      return part :: parts) := by
  rw [packMembers, rebase_of_le behind]
  split <;> rfl

/-- A value that cannot be packed from a free byte behind it holds a bit field array that cannot
    be encoded, or its links are stuck. -/
def FailsFlat (value : Value) : Prop :=
  ∀ base position free size error, value.size = .ok size → base ≤ position →
    position + size ≤ free →
    value.packAt (free - if value.isRef then base else position) = .error error →
    value.BadTable error ∨ Stuck (value.links base position) free error

/-- Items fail at a bit field array of an item, or at the links. -/
theorem packItems_failed {items : List Value} {width start : Nat}
    (fails : ∀ item ∈ items, item.FailsFlat) (flat : ∀ item ∈ items, item.Flat)
    (exact : ∀ item ∈ items, item.Exact) (direct : ∀ item ∈ items, item.isRef = false)
    (sized : ∀ item ∈ items, item.size = .ok width)
    (room : position + start + width * items.length ≤ free)
    (failed : packItems items start (free - position) = .error error) :
    (∃ item ∈ items, item.BadTable error) ∨
      Stuck (itemLinks width items (position + start)) free error := by
  induction items generalizing start free with
  | nil => simp [packItems] at failed
  | cons item rest ih =>
    simp only [List.length_cons, Nat.mul_succ] at room
    rw [List.forall_mem_cons] at fails flat exact direct sized
    rw [packItems, rebase_of_le (by omega), Nat.sub_sub] at failed
    rw [itemLinks]
    rcases row_eq_error failed with first | ⟨part, first, others⟩
    · rcases fails.1 (position + start) (position + start) free width error sized.1
        (Nat.le_refl _) (by omega) (by rwa [direct.1]) with bad | stuck
      · exact .inl ⟨item, List.mem_cons_self, bad⟩
      · exact .inr (stuck.append _)
    · have written := exact.1 _ _ _ sized.1 (by omega) first
      have here := flat.1 (position + start) (position + start) free width part sized.1
        (Nat.le_refl _) (by omega) (by rwa [direct.1])
      rcases others with ⟨long, rfl⟩ | others
      · exact .inr (here.stuck (.full (by omega)))
      · rw [← Nat.sub_add_comm (by omega), written] at others
        rcases ih fails.2 flat.2 exact.2 direct.2 sized.2 (by omega) others with bad | stuck
        · obtain ⟨other, inRest, bad⟩ := bad
          exact .inl ⟨other, List.mem_cons_of_mem _ inRest, bad⟩
        · exact .inr (here.stuck (by rwa [Nat.add_assoc]))

/-- Entries of a reference table fail at the links. -/
theorem packEntries_failed {items : List Value} {width : RefWidth} {base : Nat}
    (behind : base ≤ free) (failed : packEntries width items (free - base) = .error error) :
    Stuck (entryLinks width items base position) free error := by
  induction items generalizing position free with
  | nil => simp [packEntries] at failed
  | cons item rest ih =>
    rw [packEntries_eq_bind] at failed
    rw [entryLinks]
    rcases row_eq_error failed with first | ⟨part, first, others⟩
    · unfold packEntry at first
      split at first
      · simp at first
      · rename_i leads
        rw [if_neg leads]
        exact .here first
    · have links : Stuck (entryLinks width rest base (position + width.bytes))
          (free + part.referred.bytes.length) error := by
        rcases others with ⟨long, rfl⟩ | others
        · exact .full (by omega)
        · rw [← Nat.sub_add_comm behind] at others
          exact ih (by omega) others
      unfold packEntry at first
      split at first
      · rename_i absent
        obtain rfl := Except.ok.inj first
        rw [if_pos absent]
        exact links
      · rename_i leads
        rw [if_neg leads]
        exact .later first links

/-- Members fail at a bit field array of a member, or at the links. -/
theorem packMembers_failed {members : List (Member Value)} {start total : Nat}
    (fails : ∀ member ∈ members, member.content.FailsFlat)
    (flat : ∀ member ∈ members, member.content.Flat)
    (exact : ∀ member ∈ members, member.content.Exact) (placed : Placed start members)
    (sized : membersSize 0 members = .ok total) (room : position + start + total ≤ free)
    (failed : packMembers members start (free - position) = .error error) :
    (∃ member ∈ members, member.content.BadTable error) ∨
      Stuck (memberLinks members position) free error := by
  induction members generalizing start free total with
  | nil => simp [packMembers] at failed
  | cons member rest ih =>
    obtain ⟨size, remaining, measured, measured', rfl, -⟩ := membersSize_cons.mp sized
    obtain ⟨here, size', known, tail⟩ := placed
    obtain rfl : size' = size := Except.ok.inj (known.symm.trans measured)
    have offset := @memberOffset position free member start
    obtain ⟨name, place, content, isPadding⟩ := member
    obtain rfl : place = start := here
    rw [List.forall_mem_cons] at fails flat exact
    rw [packMembers_eq_bind (by omega), offset] at failed
    rw [memberLinks]
    rcases row_eq_error failed with first | ⟨part, first, others⟩
    · rcases fails.1 position (position + place) free size' error measured
        (Nat.le_add_right ..) (by omega) first with bad | stuck
      · exact .inl ⟨_, List.mem_cons_self, bad⟩
      · exact .inr (stuck.append _)
    · have written := exact.1 _ _ _ measured (by split <;> omega) first
      have resolved := flat.1 position (position + place) free size' part measured
        (Nat.le_add_right ..) (by omega) first
      rcases others with ⟨long, rfl⟩ | others
      · exact .inr (resolved.stuck (.full (by omega)))
      · rw [← Nat.sub_add_comm (by omega), written] at others
        rcases ih fails.2 flat.2 exact.2 tail measured' (by omega) others with bad | stuck
        · obtain ⟨other, inRest, bad⟩ := bad
          exact .inl ⟨other, List.mem_cons_of_mem _ inRest, bad⟩
        · exact .inr (resolved.stuck stuck)

/-- An array fails at a bit field array of an item, or at the links. -/
theorem Sound.array_failsFlat {element : Ty} {fixed : Option Nat} {align : Nat}
    {items : List Value} (sound : (Value.array element fixed align items).Sound)
    (uniform : (Value.array element fixed align items).Uniform)
    (fails : ∀ item ∈ items, item.FailsFlat) :
    (Value.array element fixed align items).FailsFlat := by
  intro base position free size error sized behind room failed
  obtain ⟨width, known, itemSizes⟩ := sound.item_size uniform
  have measured := (size_array known ..).symm.trans sized
  obtain ⟨-, rfl⟩ := checked_eq_ok.mp measured
  cases sound with
  | array _ fits sound direct _ =>
  have enough := Nat.mul_le_mul_left width (Fits.le_getD fits)
  rcases bind_eq_error.mp failed with failed | ⟨parts, stored, -⟩
  · have causes : (∃ item ∈ items, item.BadTable error) ∨
        Stuck (itemLinks width items (position + 0)) free error :=
      packItems_failed fails
        (fun item present => (sound item present).flat (uniform.item item present))
        (fun item present => (sound item present).exact (uniform.item item present)) direct
        itemSizes (by omega) failed
    rw [links, known]
    rcases causes with ⟨item, present, table, stored, bad⟩ | stuck
    · exact .inl ⟨table, .item _ _ _ present stored, bad⟩
    · exact .inr stuck
  · have packed := (packAt_array sized).mpr ⟨parts, stored, rfl⟩
    simp [failed] at packed

/-- A struct fails at a bit field array of a member, or at the links. -/
theorem Sound.struct_failsFlat {record : Record Value} (sound : (Value.struct record).Sound)
    (uniform : (Value.struct record).Uniform)
    (fails : ∀ member ∈ record.members, member.content.FailsFlat) :
    (Value.struct record).FailsFlat := by
  intro base position free size error sized behind room failed
  have packs (parts : List Blocks)
      (stored : packMembers record.members 0 (free - position) = .ok parts) :
      (Value.struct record).packAt (free - position) = .ok ((Blocks.join parts).fill size) :=
    (sound.packAt_struct sized).mpr ⟨parts, stored, rfl⟩
  obtain ⟨placed, measured⟩ := sound.placed sized
  cases sound with
  | struct _ sound =>
  have causes (failed : packMembers record.members 0 (free - position) = .error error) :
      (∃ member ∈ record.members, member.content.BadTable error) ∨
        Stuck (memberLinks record.members position) free error :=
    packMembers_failed fails
      (fun member present => (sound member present).flat (uniform.member member present))
      (fun member present => (sound member present).exact (uniform.member member present))
      placed measured (by omega) failed
  rw [links_struct]
  obtain ⟨name, members, align, announced, constants, enums⟩ := record
  rcases bind_eq_error.mp failed with failed | ⟨parts, stored, -⟩
  · rcases causes failed with ⟨member, present, table, stored, bad⟩ | stuck
    · exact .inl ⟨table, .member present stored, bad⟩
    · exact .inr stuck
  · cases failed.symm.trans (packs parts stored)

/-- A sound uniform value whose parts went through their checks fails at a bit field array that
    is stored in it, or at its links. -/
theorem Sound.failsFlat {value : Value} (sound : value.Sound) (uniform : value.Uniform)
    (certain : value.PartsChecked) : value.FailsFlat := by
  induction value using Value.induction
  case array element fixed align items ih =>
    refine sound.array_failsFlat uniform fun item present => ?_
    have inside : Within item (.array element fixed align items) := .item _ _ _ present .self
    exact ih item present (sound.within inside) (uniform.within inside) (certain.within inside)
  case struct record ih =>
    refine sound.struct_failsFlat uniform fun member present => ?_
    have inside : Within member.content (.struct record) := .member present .self
    exact ih member present (sound.within inside) (uniform.within inside) (certain.within inside)
  all_goals intro base position free size error sized behind room failed
  case ref target width ih => exact .inr (.here failed)
  case refTable target fixed width items ih =>
    rcases bind_eq_error.mp failed with failed | ⟨parts, stored, -⟩
    · exact .inr (packEntries_failed (by omega) failed)
    · have packed := (packAt_refTable sized).mpr ⟨parts, stored, rfl⟩
      simp [failed] at packed
  case bitField field =>
    obtain ⟨bytes, packed⟩ := BitField.Built.exists_bytes (certain _ .self)
    simp [packAt, packed, Except.map] at failed
  case bitTable table =>
    cases packed : table.bytes with
    | ok bytes => simp [packAt, packed, Except.map] at failed
    | error refusal =>
      obtain rfl : refusal = error := by simpa [packAt, packed, Except.map] using failed
      exact .inl ⟨table, .self, packed⟩
  all_goals simp [packAt] at failed

end Failed

section Rows

variable {links : List Link} {free : Nat}

/-- A distance is in the range of a reference when it is not above the greatest one. -/
theorem contains_iff {width : RefWidth} {distance : Nat} :
    width.kind.contains (distance : Int) = true ↔ (distance : Int) ≤ width.kind.max := by
  have least : width.kind.min ≤ 0 := by cases width <;> decide
  simp only [IntKind.contains, Bool.and_eq_true, decide_eq_true_eq]
  omega

/-- A number out of the range of a kind is refused. -/
theorem encode_eq_error {kind : IntKind} {number : Int} {error : LayoutError} :
    kind.encode number = .error error ↔
      ¬ kind.contains number = true ∧ .valueRange (toString number) kind.name = error := by
  by_cases inRange : kind.contains number = true <;> simp [IntKind.encode, inRange]

/-- A link fails when its target cannot be packed, when the distance is out of range, or when
    the program stops because the distance is no word. -/
theorem Link.resolve_eq_error {link : Link} {error : LayoutError} (behind : link.base ≤ free)
    (failed : link.resolve free = .error error) :
    link.target.pack none = .error error ∨
      (link.width.kind.max < link.distance free ∧
        .valueRange (toString (link.distance free : Int)) link.width.kind.name = error) ∨
      (addressSpace ≤ link.distance free ∧ .overflow = error) := by
  have place : free - link.base + gap (free - link.base) link.target.type.align =
      link.distance free := (Nat.sub_add_comm behind).symm
  rw [Link.resolve, Value.resolve, place] at failed
  rcases bind_eq_error.mp failed with stop | ⟨start, held, failed⟩
  · exact .inr (.inr (checked_eq_error.mp stop))
  obtain ⟨-, rfl⟩ := checked_eq_ok.mp held
  rcases bind_eq_error.mp failed with target | ⟨data, -, failed⟩
  · exact .inl target
  rcases bind_eq_error.mp failed with range | ⟨stored, -, impossible⟩
  · obtain ⟨outside, same⟩ := encode_eq_error.mp range
    rw [contains_iff, Int.not_le] at outside
    exact .inr (.inl ⟨outside, same⟩)
  · simp [pure, Except.pure] at impossible

/-- Behind the free byte come the targets. -/
theorem le_reach (length : Value → Nat) : free ≤ reach length links free := by
  induction links generalizing free with
  | nil => exact Nat.le_refl free
  | cons link rest ih =>
    rw [reach_cons]
    exact le_trans (by omega) ih

/-- No target is longer than the document. -/
theorem length_le_reach (length : Value → Nat) {link : Link} (present : link ∈ links) :
    length link.target ≤ reach length links free := by
  induction links generalizing free with
  | nil => cases present
  | cons first rest ih =>
    rw [reach_cons]
    rcases List.mem_cons.mp present with rfl | later
    · exact le_trans (by omega) (le_reach length)
    · exact ih later

section Counted

variable (behind : ∀ link ∈ links, link.base ≤ free)
  (lengths : ∀ link ∈ links, ∀ data, link.target.pack none = .ok data →
    data.bytes.length = link.target.documentLength)

include behind lengths

/-- Links whose targets are as long as counted are resolved to packed targets at distances that
    are in range, and end where they were counted to end. -/
theorem resolveAll_packed {parts : List Blocks} (resolved : resolveAll links free = .ok parts) :
    (∀ link ∈ links, ∃ data, link.target.pack none = .ok data) ∧
      (∀ place ∈ distances documentLength links free, place.2 ≤ place.1.width.kind.max) ∧
      free + (Blocks.join parts).referred.bytes.length = reach documentLength links free := by
  induction links generalizing free parts with
  | nil =>
    obtain rfl : parts = [] := by simpa [resolveAll, eq_comm] using resolved
    exact ⟨by simp, by simp [distances], rfl⟩
  | cons link rest ih =>
    rw [List.forall_mem_cons] at behind lengths
    obtain ⟨part, later, here, others, rfl⟩ := resolveAll_cons.mp resolved
    obtain ⟨data, packed, inRange, rfl⟩ := (link.resolve_eq_ok behind.1).mp here
    simp only [List.length_append, List.length_replicate, lengths.1 data packed,
      ← Nat.add_assoc] at others
    obtain ⟨targets, near, ends⟩ := ih
      (fun other present => (behind.2 other present).trans (by omega)) lengths.2 others
    refine ⟨List.forall_mem_cons.mpr ⟨⟨data, packed⟩, targets⟩, ?_, ?_⟩
    · exact List.forall_mem_cons.mpr ⟨contains_iff.mp inRange, near⟩
    · rw [reach_cons, ← ends, Blocks.join_cons_referred]
      simp only [List.length_append, List.length_replicate, lengths.1 data packed]
      omega

/-- Links whose targets are as long as counted are stuck at a target, at a distance that is out
    of range, or because they reach out of the address space. -/
theorem Stuck.cause {error : LayoutError} (stuck : Stuck links free error) :
    (∃ link ∈ links, link.target.pack none = .error error) ∨
      (∃ place ∈ distances documentLength links free, place.1.width.kind.max < place.2 ∧
        .valueRange (toString (place.2 : Int)) place.1.width.kind.name = error) ∨
      (addressSpace ≤ reach documentLength links free ∧ .overflow = error) := by
  induction stuck with
  | full long => exact .inr (.inr ⟨long.trans (le_reach documentLength), rfl⟩)
  | @here link rest free error failed =>
    rw [List.forall_mem_cons] at behind
    rw [distances, reach_cons]
    rcases link.resolve_eq_error behind.1 failed with target | ⟨far, same⟩ | ⟨long, same⟩
    · exact .inl ⟨link, List.mem_cons_self, target⟩
    · exact .inr (.inl ⟨_, List.mem_cons_self, far, same⟩)
    · refine .inr (.inr ⟨long.trans (le_trans ?_ (le_reach documentLength)), same⟩)
      rw [Link.distance]
      omega
  | @later link rest free part error resolved _ ih =>
    rw [List.forall_mem_cons] at behind lengths
    obtain ⟨data, packed, -, rfl⟩ := (link.resolve_eq_ok behind.1).mp resolved
    simp only [List.length_append, List.length_replicate, lengths.1 data packed,
      ← Nat.add_assoc] at ih
    rw [distances, reach_cons]
    rcases ih (fun other present => (behind.2 other present).trans (by omega)) lengths.2 with
      ⟨other, inRest, target⟩ | ⟨place, inRest, far⟩ | long
    · exact .inl ⟨other, List.mem_cons_of_mem _ inRest, target⟩
    · exact .inr (.inl ⟨place, List.mem_cons_of_mem _ inRest, far⟩)
    · exact .inr (.inr long)

end Counted

end Rows

/-- No document of a value is longer than the value itself. -/
theorem Document.documentLength_le {part value : Value} (document : Document part value) :
    part.documentLength ≤ value.documentLength := by
  induction document with
  | self => exact Nat.le_refl _
  | @target whole link present _ ih =>
    rw [whole.documentLength_eq]
    exact ih.trans (length_le_reach documentLength present)

/-- What packing a document tells: bytes are as many as counted and show that all conditions
    hold, and a refusal names a condition that is broken. The program stops only at a document
    that is longer than the address space. -/
structure Judged (value : Value) : Prop where
  packed : ∀ blocks, value.pack none = .ok blocks →
    value.Packable ∧ blocks.bytes.length = value.documentLength
  refused : ∀ error, value.pack none = .error error →
    Violation value error ∨ error = .overflow ∧ addressSpace ≤ value.documentLength

section Judging

variable {value : Value} {size : Nat}
  (sound : value.Sound) (uniform : value.Uniform) (certain : value.PartsChecked)
  (sized : value.size = .ok size) (targets : ∀ link ∈ value.links 0 0, link.target.Judged)

include sound certain sized in
/-- The size of a value is its length. -/
theorem Sound.ownLength_eq : value.ownLength = size :=
  (checked_eq_ok.mp ((sound.size_eq certain).symm.trans sized)).2

include sound uniform sized in
/-- The records that resolve the links of a value start before its own bytes end. -/
theorem Sound.links_behind : ∀ link ∈ value.links 0 0, link.base ≤ size := by
  intro link present
  have within := sound.links_within uniform sized (Nat.le_refl 0) link present
  omega

include sound uniform certain sized targets in
/-- A document that is packed satisfies all conditions. -/
theorem Sound.packed_of_targets {blocks : Blocks} (packed : value.pack none = .ok blocks) :
    value.Packable ∧ blocks.bytes.length = value.documentLength := by
  have own := sound.ownLength_eq certain sized
  obtain ⟨size', inner, sized', direct, stored, rfl⟩ := packWhole_eq_ok.mp packed
  obtain rfl : size' = size := Except.ok.inj (sized'.symm.trans sized)
  have written := sound.exact uniform _ _ _ sized (Nat.le_refl _) stored
  obtain ⟨parts, resolved, referred, -⟩ := sound.flat uniform 0 0 size' size' inner sized
    (Nat.le_refl 0) (by omega) (by simpa using stored)
  have length : inner.combine.bytes.length =
      size' + (Blocks.join parts).referred.bytes.length := by
    simp [Blocks.combine, Blocks.bytes, Run.empty, written, referred]
  obtain ⟨packedTargets, near, ends⟩ := resolveAll_packed (sound.links_behind uniform sized)
    (fun link present data packed => ((targets link present).packed data packed).2) resolved
  have packable : ∀ link ∈ value.links 0 0, link.target.Packable := by
    intro link present
    obtain ⟨data, packed⟩ := packedTargets link present
    exact ((targets link present).packed data packed).1
  have narrow : ∀ table, StoredIn (.bitTable table) value → table.stride ≤ 65535 := by
    intro table here
    obtain ⟨bytes, encoded⟩ := here.exists_bytes stored
    have built : table.Built := certain _ here.within
    rcases built.bytes_eq with ⟨narrow, -⟩ | ⟨-, refused⟩
    · exact narrow
    · cases encoded.symm.trans refused
  refine ⟨.of_targets direct narrow (by rwa [places, own]) packable, ?_⟩
  rw [length, documentLength_eq, own, ← ends]

include sound uniform certain sized targets in
/-- A document that is refused breaks a condition. -/
theorem Sound.refused_of_targets {error : LayoutError} (failed : value.pack none = .error error) :
    Violation value error ∨ error = .overflow ∧ addressSpace ≤ value.documentLength := by
  have own := sound.ownLength_eq certain sized
  have cases : value.isRef = true ∧ error = .unresolvedReference ∨
      value.isRef = false ∧ value.packAt size = .error error := by
    have whole : packWhole value value.packAt = .error error := failed
    rw [packWhole, sized] at whole
    change (if value.isRef then _ else _) = _ at whole
    cases reference : value.isRef with
    | true => simpa [reference, eq_comm] using whole
    | false => simpa [reference, bind_eq_error, pure, Except.pure] using whole
  rcases cases with ⟨reference, rfl⟩ | ⟨direct, failed⟩
  · exact .inl (.bare .self reference)
  rcases sound.failsFlat uniform certain 0 0 size size error sized (Nat.le_refl 0) (by omega)
    (by simpa using failed) with ⟨table, stored, bad⟩ | stuck
  · have built : table.Built := certain _ stored.within
    rcases built.bytes_eq with ⟨-, bytes, encoded⟩ | ⟨wide, refused⟩
    · cases encoded.symm.trans bad
    · obtain rfl := Except.error.inj (refused.symm.trans bad)
      exact .inl (.wide stored.within wide)
  rcases stuck.cause (sound.links_behind uniform sized)
    (fun link present data packed => ((targets link present).packed data packed).2) with
    ⟨link, present, target⟩ | ⟨place, present, far, rfl⟩ | ⟨long, rfl⟩
  · refine ((targets link present).refused error target).imp (.ofTarget present) ?_
    rintro ⟨stopped, long⟩
    exact ⟨stopped, long.trans (Document.target present .self).documentLength_le⟩
  · exact .inl (.far .self (by rwa [places, own]) far)
  · exact .inr ⟨rfl, by rwa [documentLength_eq, own]⟩

end Judging

/-- Packing judges every sound uniform value whose parts went through their checks. -/
theorem Sound.judged {value : Value} (sound : value.Sound) (uniform : value.Uniform)
    (certain : value.PartsChecked) : value.Judged := by
  induction value using links_induction with
  | step value ih =>
    have measured := sound.size_eq certain
    by_cases long : addressSpace ≤ value.ownLength
    · -- Such a value has no size, so that it is not even known whether it is a reference.
      rw [checked_of_le long] at measured
      have stopped : value.pack none = .error .overflow := by
        show packWhole value value.packAt = _
        rw [packWhole, measured]
        rfl
      constructor
      case packed =>
        intro blocks packed
        cases stopped.symm.trans packed
      case refused =>
        intro error failed
        obtain rfl := Except.error.inj (stopped.symm.trans failed)
        refine .inr ⟨rfl, long.trans ?_⟩
        rw [value.documentLength_eq]
        exact le_reach documentLength
    rw [checked_of_lt (Nat.lt_of_not_le long)] at measured
    have targets : ∀ link ∈ value.links 0 0, link.target.Judged := by
      intro link present
      have inside := links_inside link present
      exact ih 0 0 link present (sound.within inside) (uniform.within inside)
        (certain.within inside)
    exact ⟨fun blocks => sound.packed_of_targets uniform certain measured targets,
      fun error => sound.refused_of_targets uniform certain measured targets⟩

end BinaryLayout.Value
