import BinaryLayout.Proofs.Collection

/-!
# Collecting in any order

The roots of a collection can be given in any order. Whatever is collected stands in the
catalog under its name in one outline, so that types of one name can always be merged, and
the entry of a struct knows of each member what the struct that knows most of it does. Both
hold for every list of the same roots.
-/

namespace BinaryLayout

/-- What a catalog states about a member: its name and offset, and the name of its type. -/
def Member.stated (member : Member Ty) : (String × Nat) × String :=
  (member.place, member.content.uniqueName)

namespace Ty

/-- Structs that tell each other state the same of their members: what either one knows of a
    member, the other one knows too. -/
theorem stated_eq_of_tells {record other : Record Ty}
    (forth : Tells (.struct other) (.struct record))
    (back : Tells (.struct record) (.struct other)) :
    other.size = record.size ∧
      other.members.map Member.stated = record.members.map Member.stated := by
  obtain ⟨sizes, places⟩ : other.size = record.size ∧
      other.members.map Member.place = record.members.map Member.place := by
    simpa [shape] using forth.shape
  have names : (Ty.struct other).contents.map uniqueName =
      (Ty.struct record).contents.map uniqueName := by
    refine List.ext_getElem? fun index => ?_
    rw [List.getElem?_map, List.getElem?_map]
    cases found : (Ty.struct record).contents[index]? with
    | none =>
      cases found' : (Ty.struct other).contents[index]? with
      | none => rfl
      | some content =>
        obtain ⟨known, present, -⟩ := back.contents index content found'
        simp [present] at found
    | some content =>
      obtain ⟨known, present, below⟩ := forth.contents index content found
      obtain ⟨known', present', below'⟩ := back.contents index known present
      obtain rfl := Option.some.inj (present'.symm.trans found)
      rw [present, Option.map_some, Option.map_some,
        uniqueName_eq_of_outline (below'.antisymm below)]
  simp only [contents, List.map_map] at names
  have stated (members : List (Member Ty)) : members.map Member.stated =
      (members.map Member.place).zip (members.map (uniqueName ∘ (·.content))) :=
    List.zip_map' .. |>.symm
  exact ⟨sizes, by rw [stated, stated, places, names]⟩

section Accepted

variable {a b c : Ty}

/-- Targets of which one is unknown have a common type, and so have targets that merge. -/
theorem exists_known (accepted : a = null ∨ b = null ∨ ∃ c, a.merge b = .ok c) :
    ∃ c, known a.merge a b = .ok c := by
  simp only [known_eq_ok]
  cases unknown : a.isNull with
  | true => exact ⟨b, .inl ⟨isNull_eq_true.mp unknown, rfl⟩⟩
  | false =>
    cases unknown' : b.isNull with
    | true => exact ⟨a, .inr (.inl ⟨rfl, isNull_eq_true.mp unknown', rfl⟩)⟩
    | false =>
      rcases accepted with rfl | rfl | ⟨c, merged⟩
      · simp [isNull] at unknown
      · simp [isNull] at unknown'
      · exact ⟨c, .inr (.inr ⟨rfl, rfl, merged⟩)⟩

/-- Parts that merge are merged on demand. -/
theorem exists_unlessSame (accepted : ∃ c, a.merge b = .ok c) :
    ∃ c, unlessSame a.merge a b = .ok c := by
  by_cases named : a.uniqueName = b.uniqueName
  · exact ⟨a, unlessSame_eq_ok.mpr (.inl ⟨named, rfl⟩)⟩
  · obtain ⟨c, merged⟩ := accepted
    exact ⟨c, unlessSame_eq_ok.mpr (.inr ⟨named, merged⟩)⟩

/-- Members that merge one by one merge together. -/
theorem exists_mergeMembers {as bs : List (Member Ty)}
    (accepted : List.Forall₂ (fun a b => ∃ c,
      unlessSame a.content.merge a.content b.content = .ok c) as bs) :
    ∃ members, mergeMembers as bs = .ok members := by
  induction accepted with
  | nil => exact ⟨[], mergeMembers_nil⟩
  | cons first _ ih =>
    obtain ⟨content, part⟩ := first
    obtain ⟨rest, later⟩ := ih
    exact ⟨_, mergeMembers_cons.mpr ⟨content, rest, part, later, rfl⟩⟩

/-- Only references are comparable with references. -/
theorem Comparable.ref {width : RefWidth} (comparable : (Ty.ref a width).Comparable b) :
    ∃ target, b = .ref target width ∧ (a = null ∨ target = null ∨ a.Comparable target) := by
  rcases comparable with below | below
  · cases b with
    | ref target other =>
      obtain ⟨rfl, unknown | below⟩ := below
      · exact ⟨target, rfl, .inl unknown⟩
      · exact ⟨target, rfl, .inr (.inr (.inl below))⟩
    | _ => simp [Below, outline] at below
  · obtain ⟨target, rfl, unknown | inner⟩ := below_ref.mp below
    · exact ⟨target, rfl, .inr (.inl unknown)⟩
    · exact ⟨target, rfl, .inr (.inr (.inr inner))⟩

/-- Only arrays are comparable with arrays. -/
theorem Comparable.array {fixed : Option Nat} {align : Nat}
    (comparable : (Ty.array a fixed align).Comparable b) :
    ∃ element, b = .array element fixed align ∧ a.Comparable element := by
  rcases comparable with below | below
  · cases b with
    | array element other place =>
      obtain ⟨rfl, rfl, below⟩ := below
      exact ⟨element, rfl, .inl below⟩
    | _ => simp [Below, outline] at below
  · obtain ⟨element, rfl, inner⟩ := below_array.mp below
    exact ⟨element, rfl, .inr inner⟩

/-- Only reference tables are comparable with reference tables. -/
theorem Comparable.refTable {fixed : Option Nat} {width : RefWidth}
    (comparable : (Ty.refTable a fixed width).Comparable b) :
    ∃ target, b = .refTable target fixed width ∧
      (a = null ∨ target = null ∨ a.Comparable target) := by
  rcases comparable with below | below
  · cases b with
    | refTable target other place =>
      obtain ⟨rfl, rfl, unknown | below⟩ := below
      · exact ⟨target, rfl, .inl unknown⟩
      · exact ⟨target, rfl, .inr (.inr (.inl below))⟩
    | _ => simp [Below, outline] at below
  · obtain ⟨target, rfl, unknown | inner⟩ := below_refTable.mp below
    · exact ⟨target, rfl, .inr (.inl unknown)⟩
    · exact ⟨target, rfl, .inr (.inr (.inr inner))⟩

/-- Only structs of its name are comparable with a struct. -/
theorem Comparable.struct {record : Record Ty} (comparable : (Ty.struct record).Comparable b) :
    ∃ other, b = .struct other ∧ record.name = other.name := by
  rcases comparable with below | below <;> cases b <;> simp [Below, outline] at below
  · exact ⟨_, rfl, below.1⟩
  · exact ⟨_, rfl, below.1.symm⟩

/-- Neither holds other types nor refers to them. -/
def isLeaf : Ty → Bool
  | ref .. | array .. | refTable .. | struct _ => false
  | _ => true

/-- A leaf is comparable with itself alone. -/
theorem Comparable.eq_of_leaf (comparable : a.Comparable b) (leaf : a.isLeaf = true) : b = a := by
  have ends : a.isEnd = true := by
    cases a <;> simp [isLeaf] at leaf <;> rfl
  have whole : a.outline = a := by
    cases a <;> simp [isLeaf] at leaf <;> rfl
  have same : b.outline = a := by
    rcases comparable with below | below
    · rw [← (end_below ends).mp below, whole]
    · rw [(below_end ends).mp below, whole]
  cases b with
  | ref _ _ | array _ _ _ | refTable _ _ _ | struct _ =>
    subst same
    simp [outline, isLeaf] at leaf
  | _ => exact same

/-- A leaf merges with itself alone. -/
theorem merge_leaf (leaf : a.isLeaf = true) : a.merge b = .ok c ↔ b = a ∧ c = a := by
  cases a with
  | int kind => exact merge_int
  | char => exact merge_char
  | null => exact merge_null
  | bitField type => exact merge_bitField
  | bitTable type => exact merge_bitTable
  | enum type => exact merge_enum
  | _ => simp [isLeaf] at leaf

theorem merge_self_of_leaf (leaf : a.isLeaf = true) : a.merge a = .ok a :=
  (merge_leaf leaf).mpr ⟨rfl, rfl⟩

end Accepted
end Ty

namespace Catalog

section Merging

variable {catalog : Catalog} {a b : Ty}

/-- A type merges with every comparable one when both are recorded with all their parts. -/
def MergesComparable (catalog : Catalog) (a : Ty) : Prop :=
  ∀ b, a.WellFormed → b.WellFormed → catalog.Settled a → catalog.Settled b → a.Comparable b →
    ∃ c, a.merge b = .ok c

/-- Comparable targets have a common type, and so have targets of which one is unknown. -/
theorem MergesComparable.known (accepts : catalog.MergesComparable a) (sound : a.WellFormed)
    (sound' : b.WellFormed) (first : a.isNull = false → catalog.Settled a)
    (second : b.isNull = false → catalog.Settled b)
    (targets : a = .null ∨ b = .null ∨ a.Comparable b) : ∃ c, Ty.known a.merge a b = .ok c := by
  refine Ty.exists_known ?_
  cases unknown : a.isNull with
  | true => exact .inl (Ty.isNull_eq_true.mp unknown)
  | false =>
    cases unknown' : b.isNull with
    | true => exact .inr (.inl (Ty.isNull_eq_true.mp unknown'))
    | false =>
      rcases targets with rfl | rfl | comparable
      · simp [Ty.isNull] at unknown
      · simp [Ty.isNull] at unknown'
      · exact .inr (.inr (accepts b sound sound' (first unknown) (second unknown') comparable))

/-- Structs of one name have one entry, which knows what either one knows of a member, so their
    members are comparable. -/
theorem MergesComparable.struct {record : Record Ty}
    (accepts : ∀ member ∈ record.members, catalog.MergesComparable member.content) :
    catalog.MergesComparable (.struct record) := by
  intro b sound sound' first second comparable
  obtain ⟨other, rfl, named⟩ := comparable.struct
  obtain ⟨-, entry, told, told'⟩ := first.self.agree second.self named
  have shape : Ty.shape (.struct record) = Ty.shape (.struct other) :=
    told.shape.symm.trans told'.shape
  obtain ⟨sizes, places⟩ : record.size = other.size ∧
      record.members.map Member.place = other.members.map Member.place := by
    simpa [Ty.shape] using shape
  have names : record.members.map (·.name) = other.members.map (·.name) := by
    have firsts := congrArg (List.map Prod.fst) places
    rw [List.map_map, List.map_map] at firsts
    exact firsts
  have parts := partsSettled_struct.mp (settled_iff.mp first).1
  have parts' := partsSettled_struct.mp (settled_iff.mp second).1
  have length : record.members.length = other.members.length := by
    simpa using congrArg List.length names
  have accepted : List.Forall₂ (fun a b => ∃ c,
      Ty.unlessSame a.content.merge a.content b.content = .ok c) record.members other.members := by
    refine List.forall₂_iff_get.mpr ⟨length, fun index inside inside' => ?_⟩
    obtain ⟨known, inEntry, below⟩ := told.contents index record.members[index].content
      (by simp [Ty.contents, inside])
    obtain ⟨known', inEntry', below'⟩ := told'.contents index other.members[index].content
      (by simp [Ty.contents, inside'])
    obtain rfl := Option.some.inj (inEntry.symm.trans inEntry')
    have member := List.getElem_mem inside
    have member' := List.getElem_mem inside'
    exact Ty.exists_unlessSame (accepts _ member _ (sound.member _ member)
      (sound'.member _ member') (parts.1 _ member) (parts'.1 _ member') (below.comparable below'))
  obtain ⟨members, merged⟩ := Ty.exists_mergeMembers accepted
  exact ⟨_, Ty.merge_struct.mpr ⟨other, members, rfl, named, sizes, names, merged, rfl⟩⟩

/-- Types that are recorded in one catalog with all their parts merge when their outlines are
    comparable. -/
theorem mergesComparable (catalog : Catalog) (type : Ty) : catalog.MergesComparable type := by
  induction type using Ty.induction <;> intro b sound sound' first second comparable
  case ref target width ih =>
    obtain ⟨other, rfl, targets⟩ := comparable.ref
    cases sound with
    | ref _ sound =>
    cases sound' with
    | ref _ sound' =>
    have parts := partsSettled_ref.mp (settled_iff.mp first).1
    have parts' := partsSettled_ref.mp (settled_iff.mp second).1
    obtain ⟨c, known⟩ := MergesComparable.known ih sound sound' parts parts' targets
    exact ⟨_, Ty.merge_ref.mpr ⟨other, c, rfl, known, rfl⟩⟩
  case array element fixed align ih =>
    obtain ⟨other, rfl, elements⟩ := comparable.array
    cases sound with
    | array _ sound _ _ _ =>
    cases sound' with
    | array _ sound' _ _ _ =>
    have part := partsSettled_array.mp (settled_iff.mp first).1
    have part' := partsSettled_array.mp (settled_iff.mp second).1
    obtain ⟨c, common⟩ := Ty.exists_unlessSame (ih other sound sound' part part' elements)
    exact ⟨_, Ty.merge_array.mpr ⟨other, c, rfl, common, rfl⟩⟩
  case refTable target fixed width ih =>
    obtain ⟨other, rfl, targets⟩ := comparable.refTable
    cases sound with
    | refTable _ _ sound direct =>
    cases sound' with
    | refTable _ _ sound' direct' =>
    have parts := partsSettled_refTable.mp (settled_iff.mp first).1
    have parts' := partsSettled_refTable.mp (settled_iff.mp second).1
    by_cases named : target.uniqueName = other.uniqueName
    · exact ⟨_, Ty.merge_refTable.mpr ⟨other, target, rfl, rfl, .inl ⟨named, rfl⟩⟩⟩
    · obtain ⟨c, known⟩ := MergesComparable.known ih sound sound' parts parts' targets
      exact ⟨_, Ty.merge_refTable.mpr ⟨other, c, rfl, rfl,
        .inr ⟨named, known, Ty.known_isRef known direct direct'⟩⟩⟩
  case struct record ih =>
    exact MergesComparable.struct ih b sound sound' first second comparable
  all_goals
    obtain rfl := comparable.eq_of_leaf rfl
    exact ⟨_, Ty.merge_self_of_leaf rfl⟩

end Merging

section Insertion

variable {catalog whole : Catalog} {type : Ty}

/-- A type that is settled in a catalog can be inserted where all entries are. -/
theorem SettledIn.exists_insert (inside : catalog.SettledIn whole) (sound : type.WellFormed)
    (settled : whole.Settled type) : ∃ next, catalog.insert type = .ok next := by
  cases present : catalog.get? type.uniqueName with
  | none => exact ⟨⟨catalog.entries ++ [(type.uniqueName, type)]⟩, by simp [insert, present]⟩
  | some entry =>
    obtain ⟨named, sound', settled'⟩ := inside _ entry present
    have same := (settled'.self.agree settled.self named).1
    obtain ⟨common, merged⟩ := mergesComparable whole entry type sound' sound settled' settled
      (.inl (Ty.below_of_outline same))
    exact ⟨catalog.replace type.uniqueName common, by simp [insert, present, merged, Except.map]⟩

/-- The entries stay settled in the catalog. -/
theorem SettledIn.insert {next : Catalog} (inside : catalog.SettledIn whole)
    (sound : type.WellFormed) (settled : whole.Settled type)
    (inserted : catalog.insert type = .ok next) : next.SettledIn whole := by
  obtain ⟨entry, origin, found⟩ := get?_insert inserted
  intro name other present
  by_cases same : name = type.uniqueName
  · subst same
    obtain rfl : entry = other := by simpa [found] using present
    rcases origin with ⟨-, rfl⟩ | ⟨before, earlier, merged⟩
    · exact ⟨rfl, sound, settled⟩
    · obtain ⟨named, sound', settled'⟩ := inside _ before earlier
      have kept := (mergesSettled whole before).settled merged sound' sound settled' settled
      refine ⟨?_, sound'.merge sound merged, kept.2.2⟩
      rcases Ty.merge_outline merged with outline | outline
      · exact (Ty.uniqueName_eq_of_outline outline).trans named
      · exact Ty.uniqueName_eq_of_outline outline
  · exact inside name other (by simpa [found, same] using present)

/-- Types that are settled in a catalog can be inserted one after another. -/
theorem SettledIn.exists_insertAll {types : List Ty} (inside : catalog.SettledIn whole)
    (sound : ∀ type ∈ types, type.WellFormed) (settled : ∀ type ∈ types, whole.Settled type) :
    ∃ next, catalog.insertAll types = .ok next := by
  induction types generalizing catalog with
  | nil => exact ⟨catalog, rfl⟩
  | cons type rest ih =>
    rw [List.forall_mem_cons] at sound settled
    obtain ⟨middle, inserted⟩ := inside.exists_insert sound.1 settled.1
    obtain ⟨next, later⟩ := ih (inside.insert sound.1 settled.1 inserted) sound.2 settled.2
    exact ⟨next, by simpa [insertAll, inserted, bind, Except.bind] using later⟩

end Insertion

section Order

variable {roots others : List Ty} {catalog catalog' : Catalog}

/-- Fewer roots are collected when all of them are. -/
theorem exists_collect_of_subset (sound : ∀ root ∈ roots, root.WellFormed)
    (fewer : others ⊆ roots) (collected : collect roots = .ok catalog) :
    ∃ catalog', collect others = .ok catalog' := by
  have recorded := collect_records sound collected
  have nothing : empty.SettledIn catalog := fun name entry found => by simp [get?_empty] at found
  refine nothing.exists_insertAll (fun part present => ?_) fun part present inner deep => ?_
  all_goals obtain ⟨root, among, inside⟩ := List.mem_flatMap.mp present
  · exact (sound root (fewer among)).tree inside
  · exact recorded inner (List.mem_flatMap.mpr ⟨root, fewer among, Ty.tree_trans deep inside⟩)

/-- What is collected from fewer roots is told by what is collected from all of them. -/
theorem extendedBy_of_subset (sound : ∀ root ∈ roots, root.WellFormed) (fewer : others ⊆ roots)
    (collected : collect roots = .ok catalog) (collected' : collect others = .ok catalog') :
    ExtendedBy catalog' catalog := by
  intro name entry found
  have sourced := collect_sourced collected' name entry found
  have told {source : Ty} (inside : source ∈ others.flatMap Ty.tree)
      (named : source.uniqueName = name) :
      entry.Tells source ∧ ∃ next, catalog.get? name = some next ∧ next.Tells source := by
    subst named
    obtain ⟨root, among, within⟩ := List.mem_flatMap.mp inside
    obtain ⟨entry', found', told⟩ :=
      collect_records (fun root among => sound root (fewer among)) collected' source inside
    obtain rfl := Option.some.inj (found'.symm.trans found)
    exact ⟨told, collect_records sound collected source
      (List.mem_flatMap.mpr ⟨root, fewer among, within⟩)⟩
  obtain ⟨source, inside, named, shape⟩ := sourced.shape
  obtain ⟨tells, next, present, tells'⟩ := told inside named
  have outline := tells'.outline.trans tells.outline.symm
  refine ⟨next, present, ⟨Ty.below_of_outline outline.symm, tells'.shape.trans shape, ?_⟩, outline⟩
  intro index content inEntry
  obtain ⟨origin, inside', named', known, inOrigin, same⟩ :=
    sourced.contents index content inEntry
  obtain ⟨-, next', present', tells''⟩ := told inside' named'
  obtain rfl := Option.some.inj (present'.symm.trans present)
  obtain ⟨better, inNext, below⟩ := tells''.contents index known inOrigin
  exact ⟨better, inNext, (Ty.below_of_outline same.symm).trans below⟩

/-- A name is listed when there is an entry under it. -/
theorem mem_names {name : String} :
    name ∈ catalog.names ↔ ∃ entry, catalog.get? name = some entry := by
  rw [← Option.isSome_iff_exists]
  simp [names, get?]

/-- Catalogs have the same names, and where the first one has a struct the second one has a struct
    that states the same size and the same members. -/
structure Alike (first second : Catalog) : Prop where
  names : ∀ name, name ∈ first.names ↔ name ∈ second.names
  structs : ∀ name record, first.get? name = some (.struct record) →
    ∃ other, second.get? name = some (.struct other) ∧ other.size = record.size ∧
      other.members.map Member.stated = record.members.map Member.stated

/-- Catalogs that tell each other are alike. -/
theorem ExtendedBy.alike (forth : ExtendedBy catalog catalog') (back : ExtendedBy catalog' catalog) :
    catalog.Alike catalog' := by
  constructor
  case names =>
    intro name
    simp only [mem_names]
    constructor
    · rintro ⟨entry, found⟩
      obtain ⟨next, found', -⟩ := forth name entry found
      exact ⟨next, found'⟩
    · rintro ⟨entry, found⟩
      obtain ⟨next, found', -⟩ := back name entry found
      exact ⟨next, found'⟩
  case structs =>
    intro name record found
    obtain ⟨next, found', told⟩ := forth name _ found
    obtain ⟨last, found'', told'⟩ := back name next found'
    obtain rfl := Option.some.inj (found''.symm.trans found)
    have outline := told.outline
    cases next with
    | struct other => exact ⟨other, found', Ty.stated_eq_of_tells told told'⟩
    | _ => simp [Ty.outline] at outline

/-- Collecting does not depend on the order of the roots. -/
theorem collect_perm {roots others : List Ty} (built : ∀ root ∈ roots, root.Built)
    (permuted : roots.Perm others) :
    ((∃ catalog, collect roots = .ok catalog) ↔ ∃ catalog, collect others = .ok catalog) ∧
      ∀ catalog catalog', collect roots = .ok catalog → collect others = .ok catalog' →
        catalog.Alike catalog' := by
  have sound : ∀ root ∈ roots, root.WellFormed := fun root among => (built root among).wellFormed
  have sound' : ∀ root ∈ others, root.WellFormed := fun root among =>
    sound root (permuted.mem_iff.mpr among)
  constructor
  · constructor
    · rintro ⟨catalog, collected⟩
      exact exists_collect_of_subset sound permuted.symm.subset collected
    · rintro ⟨catalog, collected⟩
      exact exists_collect_of_subset sound' permuted.subset collected
  · intro catalog catalog' collected collected'
    exact (extendedBy_of_subset sound' permuted.subset collected' collected).alike
      (extendedBy_of_subset sound permuted.symm.subset collected collected')

end Order

end Catalog

namespace Value

/-- A struct with a null reference and one of the same name with a reference to a text are
    collected alike in both orders. -/
theorem pointing_collected :
    ∃ catalog catalog',
      Catalog.collect [(pointing (.nullRef .null .w32)).type,
        (pointing (.ref (.ofString "a") .w32)).type] = .ok catalog ∧
      Catalog.collect [(pointing (.ref (.ofString "a") .w32)).type,
        (pointing (.nullRef .null .w32)).type] = .ok catalog' ∧
      catalog.Alike catalog' := by
  have text : (Value.ofString "a").Built :=
    .stringOf (show Value.stringOf "a" none true = _ from rfl)
  have built : ∀ root ∈ [(pointing (.nullRef .null .w32)).type,
      (pointing (.ref (.ofString "a") .w32)).type], root.Built := by
    simp only [List.mem_cons, List.not_mem_nil, or_false, forall_eq_or_imp, forall_eq]
    exact ⟨.ofValue (pointing_built (.nullRef .w32 .null) rfl),
      .ofValue (pointing_built (.refTo .w32 text) rfl)⟩
  exact ⟨_, _, rfl, rfl, (Catalog.collect_perm built (.swap ..)).2 _ _ rfl rfl⟩

end Value
end BinaryLayout
