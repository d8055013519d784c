import BinaryLayout.Proofs.Sketches

/-!
# Types in order

Merging compares the frames of two types and picks, of the types that they store, the ones that
know more. So types that state more and more are ordered, and where the types that are stored can
be read off their names, merging finds the least type above two types, or no type is above both.
-/

namespace BinaryLayout.Ty

/-- What is left of a type without the types that it stores. -/
def hollow : Ty → Ty
  | array _ fixed align => array null fixed align
  | refTable _ fixed width => refTable null fixed width
  | struct record => struct { record with members := record.members.map ({ · with content := null }) }
  | type => type

/-- A member of which only the name is left. -/
def namedOnly (name : String) : Member Ty :=
  ⟨name, 0, null, false⟩

/-- What two types must share to be merged, apart from what is asked of the types that they
    store: of a struct, only its name and size and the names of its members. -/
def frame (type : Ty) : Ty :=
  match type.hollow with
  | struct record =>
      struct ⟨record.name, record.members.map (namedOnly ·.name), 0, record.size, .empty, []⟩
  | hollow => hollow

/-- The types of the parts that are stored in a value: a table stores references. -/
def stored : Ty → List Ty
  | array element _ _ => [element]
  | refTable target _ width => [ref target width]
  | struct record => record.members.map (·.content)
  | _ => []

/-- One by one, the types of the third list are merged on demand from those of the others. -/
inductive Joined : List Ty → List Ty → List Ty → Prop
  | nil : Joined [] [] []
  | cons {a b c : Ty} {as bs cs : List Ty} (here : unlessSame a.merge a b = .ok c)
      (behind : Joined as bs cs) : Joined (a :: as) (b :: bs) (c :: cs)

section Frames

variable {a b c : Ty}

theorem frame_array {element : Ty} {fixed : Option Nat} {align : Nat} :
    (array element fixed align).frame = b.frame ↔ ∃ other, b = array other fixed align := by
  cases b <;> simp [frame, hollow, eq_comm]

theorem frame_refTable {target : Ty} {fixed : Option Nat} {width : RefWidth} :
    (refTable target fixed width).frame = b.frame ↔ ∃ other, b = refTable other fixed width := by
  cases b <;> simp [frame, hollow, eq_comm]

theorem frame_struct {record : Record Ty} :
    (struct record).frame = b.frame ↔ ∃ other, b = struct other ∧ record.name = other.name ∧
      record.size = other.size ∧ record.members.map (·.name) = other.members.map (·.name) := by
  have injective : Function.Injective (List.map namedOnly) :=
    List.map_injective_iff.mpr fun _ _ same => congrArg Member.name same
  have names (as bs : List (Member Ty)) :
      as.map (namedOnly ·.name) = bs.map (namedOnly ·.name) ↔
        as.map (·.name) = bs.map (·.name) := by
    rw [← injective.eq_iff, List.map_map, List.map_map]
    rfl
  cases b <;> simp [frame, hollow, Function.comp_def, names]
  grind

/-- The frames of all other types are the types themselves. -/
theorem frame_leaf (leaf : a.isLeaf = true) : a.frame = b.frame ↔ b = a := by
  cases a <;> simp [isLeaf] at leaf <;> cases b <;> simp [frame, hollow, eq_comm]

theorem hollow_leaf (leaf : a.isLeaf = true) : c.hollow = a.hollow ↔ c = a := by
  cases a <;> simp [isLeaf] at leaf <;> cases c <;> simp [hollow]

theorem frame_of_hollow (same : a.hollow = b.hollow) : a.frame = b.frame := by
  simp only [frame, same]

theorem hollow_array {element : Ty} {fixed : Option Nat} {align : Nat} :
    c.hollow = (array element fixed align).hollow ↔ ∃ other, c = array other fixed align := by
  cases c <;> simp [hollow]

theorem hollow_refTable {target : Ty} {fixed : Option Nat} {width : RefWidth} :
    c.hollow = (refTable target fixed width).hollow ↔ ∃ other, c = refTable other fixed width := by
  cases c <;> simp [hollow]

theorem hollow_struct {record : Record Ty} :
    c.hollow = (struct record).hollow ↔ ∃ members, c = struct { record with members } ∧
      members.map ({ · with content := null }) = record.members.map ({ · with content := null }) := by
  constructor
  · intro kept
    cases c with
    | struct merged =>
      obtain ⟨-, members, -⟩ := Record.mk.inj (struct.inj kept)
      refine ⟨merged.members, ?_, members⟩
      cases merged
      simp_all [hollow]
    | _ => simp [hollow] at kept
  · rintro ⟨members, rfl, kept⟩
    simp only [hollow, kept]

theorem joined_singleton : Joined [a] [b] [c] ↔ unlessSame a.merge a b = .ok c := by
  constructor
  · rintro (_ | ⟨here, _⟩)
    exact here
  · exact fun here => .cons here .nil

/-- References are merged on demand like their targets. -/
theorem unlessSame_ref {width : RefWidth} :
    unlessSame (ref a width).merge (ref a width) (ref b width) = .ok c ↔
      ∃ common, c = ref common width ∧ ((a.uniqueName = b.uniqueName ∧ common = a) ∨
        (a.uniqueName ≠ b.uniqueName ∧ known a.merge a b = .ok common)) := by
  have names : (ref a width).uniqueName = (ref b width).uniqueName ↔
      a.uniqueName = b.uniqueName := by
    simp only [uniqueName, String.append_right_inj]
    rfl
  rw [unlessSame_eq_ok, merge_ref]
  simp only [names, ne_eq, ref.injEq, and_true, exists_eq_left', exists_and_left]
  grind

/-- Members are merged when the types stored in them are, one by one, and keep everything else. -/
theorem mergeMembers_iff_joined {as bs members : List (Member Ty)}
    (length : as.length = bs.length) :
    mergeMembers as bs = .ok members ↔
      members.map ({ · with content := null }) = as.map ({ · with content := null }) ∧
        Joined (as.map (·.content)) (bs.map (·.content)) (members.map (·.content)) := by
  induction as generalizing bs members with
  | nil =>
    obtain rfl : bs = [] := List.length_eq_zero_iff.mp length.symm
    cases members with
    | nil => simpa using Joined.nil
    | cons member rest => simp
  | cons a as ih =>
    cases bs with
    | nil => simp at length
    | cons b bs =>
      rw [mergeMembers_cons]
      constructor
      · rintro ⟨content, rest, part, later, rfl⟩
        obtain ⟨kept, joined⟩ := (ih (Nat.succ.inj length)).mp later
        exact ⟨by simp [kept], .cons part joined⟩
      · rintro ⟨kept, joined⟩
        cases members with
        | nil => simp at kept
        | cons member rest =>
          obtain ⟨here, behind⟩ := List.cons.inj kept
          cases joined with
          | cons part joined =>
          refine ⟨member.content, rest, part, (ih (Nat.succ.inj length)).mpr ⟨behind, joined⟩, ?_⟩
          cases member
          simp_all

/-- Merging compares the frames of two types and merges the types that they store; nothing else
    of the first type is touched. -/
theorem merge_iff_joined (first : a.WellFormed) (second : b.WellFormed) (direct : a.isRef = false) :
    a.merge b = .ok c ↔ a.frame = b.frame ∧ c.hollow = a.hollow ∧
      Joined a.stored b.stored c.stored := by
  cases a with
  | ref target width => simp [isRef] at direct
  | array element fixed align =>
    rw [merge_array, frame_array, hollow_array]
    constructor
    · rintro ⟨other, common, rfl, elements, rfl⟩
      exact ⟨⟨other, rfl⟩, ⟨common, rfl⟩, joined_singleton.mpr elements⟩
    · rintro ⟨⟨other, rfl⟩, ⟨common, rfl⟩, elements⟩
      exact ⟨other, common, rfl, joined_singleton.mp elements, rfl⟩
  | refTable target fixed width =>
    rw [merge_refTable, frame_refTable, hollow_refTable]
    constructor
    · rintro ⟨other, common, rfl, rfl, targets⟩
      refine ⟨⟨other, rfl⟩, ⟨common, rfl⟩,
        joined_singleton.mpr (unlessSame_ref.mpr ⟨common, rfl, ?_⟩)⟩
      exact targets.imp_right (And.imp_right And.left)
    · rintro ⟨⟨other, rfl⟩, ⟨common, rfl⟩, targets⟩
      obtain ⟨_, same, targets⟩ := unlessSame_ref.mp (joined_singleton.mp targets)
      obtain rfl := (ref.inj same).1
      -- Merging asks that the common target is no reference, which follows from both sides.
      cases first with
      | refTable _ _ _ direct =>
      cases second with
      | refTable _ _ _ direct' =>
      refine ⟨other, common, rfl, rfl, targets.imp_right ?_⟩
      rintro ⟨differ, merged⟩
      exact ⟨differ, merged, known_isRef merged direct direct'⟩
  | struct record =>
    rw [merge_struct, frame_struct, hollow_struct]
    have length {other : Record Ty}
        (names : record.members.map (·.name) = other.members.map (·.name)) :
        record.members.length = other.members.length := by
      simpa using congrArg List.length names
    constructor
    · rintro ⟨other, members, rfl, named, sized, names, parts, rfl⟩
      obtain ⟨kept, joined⟩ := (mergeMembers_iff_joined (length names)).mp parts
      exact ⟨⟨other, rfl, named, sized, names⟩, ⟨members, rfl, kept⟩, joined⟩
    · rintro ⟨⟨other, rfl, named, sized, names⟩, ⟨members, rfl, kept⟩, joined⟩
      exact ⟨other, members, rfl, named, sized, names,
        (mergeMembers_iff_joined (length names)).mpr ⟨kept, joined⟩, rfl⟩
  | _ =>
    rw [merge_leaf rfl, frame_leaf rfl, hollow_leaf rfl]
    constructor
    · rintro ⟨rfl, rfl⟩
      exact ⟨rfl, rfl, .nil⟩
    · rintro ⟨rfl, rfl, -⟩
      exact ⟨rfl, rfl⟩

/-- Types of one frame whose stored types merge one by one have a common type. -/
theorem exists_merge_of_stored (first : a.WellFormed) (second : b.WellFormed)
    (direct : a.isRef = false) (framed : a.frame = b.frame)
    (parts : List.Forall₂ (fun x y => ∃ z, unlessSame x.merge x y = .ok z) a.stored b.stored) :
    ∃ c, a.merge b = .ok c := by
  cases a with
  | ref target width => simp [isRef] at direct
  | array element fixed align =>
    obtain ⟨other, rfl⟩ := frame_array.mp framed
    obtain ⟨⟨common, merged⟩, -⟩ := List.forall₂_cons.mp parts
    exact ⟨_, merge_array.mpr ⟨other, common, rfl, merged, rfl⟩⟩
  | refTable target fixed width =>
    obtain ⟨other, rfl⟩ := frame_refTable.mp framed
    cases first with
    | refTable _ _ _ direct =>
    cases second with
    | refTable _ _ _ direct' =>
    obtain ⟨⟨_, merged⟩, -⟩ := List.forall₂_cons.mp parts
    obtain ⟨common, -, targets⟩ := unlessSame_ref.mp merged
    exact (mergesTables direct direct').mpr
      ⟨rfl, rfl, targets.imp And.left fun targets => ⟨common, targets.2⟩⟩
  | struct record =>
    obtain ⟨other, rfl, named, sized, names⟩ := frame_struct.mp framed
    obtain ⟨members, merged⟩ := exists_mergeMembers (by simpa [stored] using parts)
    exact ⟨_, merge_struct.mpr ⟨other, members, rfl, named, sized, names, merged, rfl⟩⟩
  | _ => exact ⟨_, (merge_leaf rfl).mpr ⟨(frame_leaf rfl).mp framed, rfl⟩⟩

end Frames

/-- The second type states all that the first one states: it has the same frame, and the types
    that it stores know at least as much. An unknown type states nothing. -/
def Under (a b : Ty) : Prop :=
  a = null ∨ a.frame = b.frame ∧ List.Forall₂ SketchBelow a.stored b.stored

section Order

variable {a b c : Ty}

theorem Under.refl (type : Ty) : type.Under type :=
  .inr ⟨rfl, List.forall₂_same.mpr fun _ _ => .of_eq rfl⟩

/-- Nothing but the unknown type is under it. -/
theorem under_null : a.Under null ↔ a = null := by
  constructor
  · rintro (unknown | ⟨framed, -⟩)
    · exact unknown
    · exact (frame_leaf rfl).mp framed.symm
  · exact .inl

theorem stored_trans {as bs cs : List Ty} (first : List.Forall₂ SketchBelow as bs)
    (second : List.Forall₂ SketchBelow bs cs) : List.Forall₂ SketchBelow as cs := by
  induction first generalizing cs with
  | nil => exact second
  | cons here _ ih =>
    cases second with
    | cons here' behind => exact .cons (Below.trans here here') (ih behind)

theorem Under.trans (first : a.Under b) (second : b.Under c) : a.Under c := by
  rcases second with rfl | ⟨framed, parts⟩
  · exact .inl (under_null.mp first)
  · rcases first with rfl | ⟨framed', parts'⟩
    · exact .inl rfl
    · exact .inr ⟨framed'.trans framed, stored_trans parts' parts⟩

/-- Types that are under each other have one name. -/
theorem Under.uniqueName_eq (direct : a.isRef = false) (first : a.Under b) (second : b.Under a) :
    a.uniqueName = b.uniqueName := by
  rcases first with rfl | ⟨framed, parts⟩
  · rw [under_null.mp second]
  rcases second with rfl | ⟨-, parts'⟩
  · rw [(frame_leaf rfl).mp framed.symm]
  cases a with
  | ref target width => simp [isRef] at direct
  | array element fixed align =>
    obtain ⟨other, rfl⟩ := frame_array.mp framed
    have same : element.sketch = other.sketch :=
      (List.forall₂_cons.mp parts).1.antisymm (List.forall₂_cons.mp parts').1
    exact uniqueName_of_sketch (by rw [sketch, sketch, same])
  | refTable target fixed width =>
    obtain ⟨other, rfl⟩ := frame_refTable.mp framed
    have same : (ref target width).sketch = (ref other width).sketch :=
      (List.forall₂_cons.mp parts).1.antisymm (List.forall₂_cons.mp parts').1
    exact uniqueName_of_sketch (by rw [sketch, sketch, (ref.inj same).1])
  | struct record =>
    obtain ⟨other, rfl, named, -⟩ := frame_struct.mp framed
    exact named
  | _ => rw [(frame_leaf rfl).mp framed]

/-- A type that is no reference, and whose stored types are among the given ones. -/
structure MadeOf (parts : Ty → Prop) (type : Ty) : Prop where
  sound : type.WellFormed
  direct : type.isRef = false
  stored : ∀ part ∈ type.stored, parts part

variable {parts : Ty → Prop}

/-- The types that are stored by a common type are the upper ones of each pair. -/
theorem Joined.picks (legible : Legible parts) {as bs cs : List Ty} (joined : Joined as bs cs)
    (first : ∀ a ∈ as, parts a) (second : ∀ b ∈ bs, parts b) :
    (∀ c ∈ cs, parts c) ∧ List.Forall₂ SketchBelow as cs ∧ List.Forall₂ SketchBelow bs cs ∧
      ∀ ds, List.Forall₂ SketchBelow as ds → List.Forall₂ SketchBelow bs ds →
        List.Forall₂ SketchBelow cs ds := by
  induction joined with
  | nil => exact ⟨by simp, .nil, .nil, fun _ below _ => below⟩
  | cons here _ ih =>
    rw [List.forall_mem_cons] at first second
    have picks := unlessSame_picks legible first.1 second.1 here
    obtain ⟨kept, upper, upper', least⟩ := ih first.2 second.2
    refine ⟨List.forall_mem_cons.mpr ⟨picks.keeps first.1 second.1, kept⟩,
      .cons picks.upper.1 upper, .cons picks.upper.2 upper', fun ds below below' => ?_⟩
    cases below with
    | cons here behind =>
    cases below' with
    | cons here' behind' => exact .cons (picks.least here here') (least _ behind behind')

/-- Stored types below common ones merge one by one. -/
theorem exists_each_unlessSame (legible : Legible parts) {as bs ds : List Ty}
    (below : List.Forall₂ SketchBelow as ds) (below' : List.Forall₂ SketchBelow bs ds)
    (first : ∀ a ∈ as, parts a) (second : ∀ b ∈ bs, parts b) :
    List.Forall₂ (fun x y => ∃ z, unlessSame x.merge x y = .ok z) as bs := by
  induction below generalizing bs with
  | nil => cases below'; exact .nil
  | cons here _ ih =>
    cases below' with
    | cons here' behind =>
      rw [List.forall_mem_cons] at first second
      exact .cons
        (exists_unlessSame_below (legible.sound first.1) (legible.sound second.1) here here')
        (ih behind first.2 second.2)

/-- Stored types take in the ones below them, one by one. -/
theorem joined_of_below (legible : Legible parts) {as ds : List Ty}
    (below : List.Forall₂ SketchBelow as ds) (first : ∀ a ∈ as, parts a)
    (second : ∀ d ∈ ds, parts d) : Joined ds as ds := by
  induction below with
  | nil => exact .nil
  | cons here _ ih =>
    rw [List.forall_mem_cons] at first second
    exact .cons
      (unlessSame_of_sketchBelow (legible.sound first.1) (legible.sound second.1) here)
      (ih first.2 second.2)

/-- A type takes in every known type that is under it, and does not change. -/
theorem merge_of_under (legible : Legible parts) (first : MadeOf parts a) (second : MadeOf parts b)
    (below : a.Under b) (known : a.isNull = false) : b.merge a = .ok b := by
  rcases below with rfl | ⟨framed, below⟩
  · simp [isNull] at known
  · exact (merge_iff_joined second.sound first.sound second.direct).mpr
      ⟨framed.symm, rfl, joined_of_below legible below first.stored second.stored⟩

/-- The laws of a way of joining two types: it finds the least type above both of them, if there is
    a type above both. -/
structure FindsLeast (held : Ty → Prop) (join : Ty → Ty → Except LayoutError Ty) : Prop where
  keeps : ∀ {a b c}, held a → held b → join a b = .ok c → held c
  upper : ∀ {a b c}, held a → held b → join a b = .ok c → a.Under c ∧ b.Under c
  least : ∀ {a b c d}, held a → held b → join a b = .ok c → a.Under d → b.Under d → c.Under d
  found : ∀ {a b d}, held a → held b → a.Under d → b.Under d → ∃ c, join a b = .ok c

/-- The order of the two types does not matter. -/
theorem FindsLeast.flip {held : Ty → Prop} {join : Ty → Ty → Except LayoutError Ty}
    (laws : FindsLeast held join) : FindsLeast held fun a b => join b a where
  keeps first second := laws.keeps second first
  upper first second joined := (laws.upper second first joined).symm
  least first second joined below below' := laws.least second first joined below' below
  found first second below below' := laws.found second first below' below

/-- What merging two types finds is made of their parts, and is the least type above both. -/
theorem MadeOf.merge (legible : Legible parts) (first : MadeOf parts a) (second : MadeOf parts b)
    (merged : a.merge b = .ok c) :
    MadeOf parts c ∧ (a.Under c ∧ b.Under c) ∧ ∀ d, a.Under d → b.Under d → c.Under d := by
  obtain ⟨framed, kept, joined⟩ :=
    (merge_iff_joined first.sound second.sound first.direct).mp merged
  have frames : a.frame = c.frame := (frame_of_hollow kept).symm
  obtain ⟨held, upper, upper', least⟩ := joined.picks legible first.stored second.stored
  refine ⟨⟨first.sound.merge second.sound merged, (merge_isRef merged).2.trans first.direct, held⟩,
    ⟨.inr ⟨frames, upper⟩, .inr ⟨framed.symm.trans frames, upper'⟩⟩, fun d below below' => ?_⟩
  -- An unknown type merges with an unknown one only, so the common type is unknown, too.
  rcases below with rfl | ⟨framed', below⟩
  · exact .inl ((frame_leaf rfl).mp frames)
  · rcases below' with rfl | ⟨-, below'⟩
    · exact .inl ((frame_leaf rfl).mp (framed.symm.trans frames))
    · exact .inr ⟨frames.symm.trans framed', least _ below below'⟩

/-- The same where either type may be unknown. -/
theorem MadeOf.mergeKnown (legible : Legible parts) (first : MadeOf parts a)
    (second : MadeOf parts b) (merged : a.mergeKnown b = .ok c) :
    MadeOf parts c ∧ (a.Under c ∧ b.Under c) ∧ ∀ d, a.Under d → b.Under d → c.Under d := by
  rcases known_eq_ok.mp merged with ⟨rfl, rfl⟩ | ⟨-, rfl, rfl⟩ | ⟨-, -, inner⟩
  · exact ⟨second, ⟨.inl rfl, .refl c⟩, fun _ _ below => below⟩
  · exact ⟨first, ⟨.refl c, .inl rfl⟩, fun _ below _ => below⟩
  · exact first.merge legible second inner

/-- Merging finds the least type above two, or nothing is above both. -/
theorem mergeKnown_findsLeast (legible : Legible parts) :
    FindsLeast (MadeOf parts) Ty.mergeKnown where
  keeps first second merged := (first.mergeKnown legible second merged).1
  upper first second merged := (first.mergeKnown legible second merged).2.1
  least first second merged := (first.mergeKnown legible second merged).2.2 _
  found first second below below' := by
    refine exists_known ?_
    rcases below with unknown | ⟨framed, below⟩
    · exact .inl unknown
    · rcases below' with unknown | ⟨framed', below'⟩
      · exact .inr (.inl unknown)
      · exact .inr (.inr (exists_merge_of_stored first.sound second.sound first.direct
          (framed.trans framed'.symm)
          (exists_each_unlessSame legible below below' first.stored second.stored)))

end Order

end BinaryLayout.Ty
