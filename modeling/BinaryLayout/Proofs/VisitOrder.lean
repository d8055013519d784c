import BinaryLayout.Proofs.Insertions
import Mathlib.Logic.Relation

/-!
# Children before parents

A collection visits the parts of every type before the type itself, and a catalog lists its
entries in the order of the first visits. Merging leaves an entry at its place, though, and may
bring parts into it that its first type did not have: a member with a null reference learns its
type from a later struct. Such a part stands before the entry only when something else has
brought it there. Nothing else disturbs the order.
-/

namespace BinaryLayout

/-- In a list of visits, one name is visited before the first visit of another one. -/
def Precedes (visits : List String) (earlier later : String) : Prop :=
  ∃ before behind, visits = before ++ later :: behind ∧ earlier ∈ before ∧ later ∉ before

section Precedes

variable {visits : List String} {earlier later : String}

/-- One more visit changes the order only when it is the first one of its name. -/
theorem precedes_concat {name : String} : Precedes (visits ++ [name]) earlier later ↔
    Precedes visits earlier later ∨ (name = later ∧ earlier ∈ visits ∧ later ∉ visits) := by
  constructor
  · rintro ⟨before, behind, split, present, absent⟩
    rcases List.eq_nil_or_concat behind with rfl | ⟨behind, last, rfl⟩
    · obtain ⟨rfl, same⟩ := List.append_inj' split rfl
      exact .inr ⟨List.singleton_inj.mp same, present, absent⟩
    · rw [List.concat_eq_append, ← List.cons_append, ← List.append_assoc] at split
      exact .inl ⟨before, behind, (List.append_inj' split rfl).1, present, absent⟩
  · rintro (⟨before, behind, rfl, present, absent⟩ | ⟨rfl, present, absent⟩)
    · exact ⟨before, behind ++ [name], by simp, present, absent⟩
    · exact ⟨visits, [], rfl, present, absent⟩

/-- Repeated visits do not count. -/
theorem precedes_eraseDups :
    Precedes visits.eraseDups earlier later ↔ Precedes visits earlier later := by
  induction visits using List.reverseRecOn with
  | nil => simp
  | append_singleton visits name ih =>
    rw [Catalog.eraseDups_concat, precedes_concat, ← ih]
    by_cases known : name ∈ visits
    · rw [if_pos known]
      constructor
      · exact .inl
      · rintro (before | ⟨rfl, -, unknown⟩)
        · exact before
        · contradiction
    · rw [if_neg known, precedes_concat, List.mem_eraseDups, List.mem_eraseDups]

/-- A name precedes a visited one when it has the smaller index. -/
theorem precedes_iff : Precedes visits earlier later ↔
    visits.idxOf earlier < visits.idxOf later ∧ later ∈ visits := by
  constructor
  · rintro ⟨before, behind, rfl, present, absent⟩
    rw [List.idxOf_append_of_mem present, List.idxOf_append_of_notMem absent,
      List.idxOf_cons_self]
    exact ⟨List.idxOf_lt_length_of_mem present, by simp⟩
  · rintro ⟨smaller, visited⟩
    obtain ⟨before, behind, rfl, absent⟩ := List.eq_append_cons_of_mem visited
    rw [List.idxOf_append_of_notMem absent, List.idxOf_cons_self] at smaller
    refine ⟨before, behind, rfl, ?_, absent⟩
    by_contra missing
    rw [List.idxOf_append_of_notMem missing] at smaller
    omega

instance : Decidable (Precedes visits earlier later) :=
  decidable_of_iff _ precedes_iff.symm

end Precedes

namespace Ty

/-- Every part of a type stands before the type. -/
def PartsFirst (types : List Ty) : Prop :=
  ∀ before type behind, types = before ++ type :: behind → ∀ part ∈ type.contained, part ∈ before

namespace PartsFirst

variable {types others : List Ty}

theorem nil : PartsFirst [] := by
  intro before type behind split
  simp at split

/-- Types may follow others. -/
theorem append (first : PartsFirst types) (second : PartsFirst others) :
    PartsFirst (types ++ others) := by
  intro before type behind split part inside
  rcases List.append_eq_append_iff.mp split with ⟨more, rfl, rest⟩ | ⟨more, rfl, rest⟩
  · exact List.mem_append_right _ (second more type behind rest part inside)
  · cases more with
    | nil =>
      have rest : others = [] ++ type :: behind := by simpa using rest.symm
      simpa using second [] type behind rest part inside
    | cons first' more =>
      obtain ⟨rfl, -⟩ := List.cons.inj rest
      exact first before type more rfl part inside

/-- A type may follow its parts. -/
theorem concat {type : Ty} (first : PartsFirst types) (parts : ∀ part ∈ type.contained, part ∈ types) :
    PartsFirst (types ++ [type]) := by
  intro before last behind split part inside
  rcases List.eq_nil_or_concat behind with rfl | ⟨behind, other, rfl⟩
  · obtain ⟨rfl, same⟩ := List.append_inj' split rfl
    obtain rfl := List.singleton_inj.mp same
    exact parts part inside
  · rw [List.concat_eq_append, ← List.cons_append, ← List.append_assoc] at split
    exact first before last behind (List.append_inj' split rfl).1 part inside

/-- Lists of this kind may follow one another. -/
theorem flatMap (each : ∀ type ∈ types, PartsFirst type.tree) : PartsFirst (types.flatMap tree) := by
  induction types with
  | nil => exact nil
  | cons type rest ih =>
    rw [List.forall_mem_cons] at each
    exact each.1.append (ih each.2)

/-- Within a type, parts are visited first. -/
theorem tree (type : Ty) : PartsFirst type.tree := by
  induction type using contained_induction with
  | step type ih =>
    rw [tree_eq]
    apply (flatMap ih).concat
    intro part inside
    exact List.mem_flatMap.mpr ⟨part, inside, part.self_mem_tree⟩

end PartsFirst

/-- The enumerations declared beside the members of a struct. -/
def declared : Ty → List Enumeration
  | struct record => record.enums
  | _ => []

/-- A merged type has the declarations of the first one. -/
theorem declared_of_merge {a b c : Ty} (merged : a.merge b = .ok c) : c.declared = a.declared := by
  cases a with
  | int kind => obtain ⟨-, rfl⟩ := merge_int.mp merged; rfl
  | char => obtain ⟨-, rfl⟩ := merge_char.mp merged; rfl
  | null => obtain ⟨-, rfl⟩ := merge_null.mp merged; rfl
  | ref target width => obtain ⟨-, -, -, -, rfl⟩ := merge_ref.mp merged; rfl
  | array element fixed align => obtain ⟨-, -, -, -, rfl⟩ := merge_array.mp merged; rfl
  | refTable target fixed width => obtain ⟨-, -, -, rfl, -⟩ := merge_refTable.mp merged; rfl
  | bitField type => obtain ⟨-, rfl⟩ := merge_bitField.mp merged; rfl
  | bitTable type => obtain ⟨-, rfl⟩ := merge_bitTable.mp merged; rfl
  | enum type => obtain ⟨-, rfl⟩ := merge_enum.mp merged; rfl
  | struct record => obtain ⟨-, -, -, -, -, -, -, rfl⟩ := merge_struct.mp merged; rfl

/-- Structs of one shape have equally many members. -/
theorem length_contents_of_shape {a b : Ty} (same : a.shape = b.shape) :
    a.contents.length = b.contents.length := by
  cases a <;> cases b <;> simp [shape] at same
  case struct.struct => simpa [contents] using congrArg List.length same.2
  all_goals rfl

/-- What an entry contains, the first type of its name contains under the same name, unless it
    is the type of a member that only a later struct knew. -/
theorem Tells.contained {entry first part : Ty} (told : entry.Tells first)
    (declared : entry.declared = first.declared) (inside : part ∈ entry.contained) :
    (∃ own ∈ first.contained, own.uniqueName = part.uniqueName) ∨
      ∃ (index : Nat) (known : Ty), first.contents[index]? = some known ∧
        entry.contents[index]? = some part ∧ known.Below part ∧
        known.uniqueName ≠ part.uniqueName := by
  have outline := told.outline
  have target {x y : Ty} (same : x.outline = y.outline)
      (inside : part ∈ if x.isNull then [] else [x]) :
      ∃ own ∈ if y.isNull then [] else [y], own.uniqueName = part.uniqueName := by
    have alike : x.isNull = y.isNull := by
      cases x <;> cases y <;> simp [Ty.outline] at same <;> rfl
    cases unknown : x.isNull with
    | true => simp [unknown] at inside
    | false =>
      obtain rfl : part = x := by simpa [unknown] using inside
      exact ⟨y, by simp [← alike, unknown], (uniqueName_eq_of_outline same).symm⟩
  cases entry with
  | ref x width =>
    cases first <;> simp [Ty.outline] at outline
    exact .inl (target outline.1 inside)
  | refTable x fixed width =>
    cases first <;> simp [Ty.outline] at outline
    exact .inl (target outline.1 inside)
  | array x fixed align =>
    cases first <;> simp [Ty.outline] at outline
    obtain rfl : part = x := by simpa [Ty.contained] using inside
    exact .inl ⟨_, List.mem_singleton.mpr rfl, (uniqueName_eq_of_outline outline.1).symm⟩
  | struct record =>
    cases first with
    | struct other =>
      rcases List.mem_append.mp inside with inMembers | inEnums
      · obtain ⟨index, found⟩ := List.mem_iff_getElem?.mp inMembers
        have inOther : index < (Ty.struct other).contents.length := by
          rw [← length_contents_of_shape told.shape]
          exact (List.getElem?_eq_some_iff.mp found).1
        have known := List.getElem?_eq_getElem inOther
        obtain ⟨better, learnt, below⟩ := told.contents index _ known
        obtain rfl : better = part := Option.some.inj (learnt.symm.trans found)
        by_cases same : (Ty.struct other).contents[index].uniqueName = better.uniqueName
        · exact .inl ⟨_, List.mem_append_left _ (List.getElem_mem inOther), same⟩
        · exact .inr ⟨index, _, known, learnt, below, same⟩
      · obtain ⟨enumeration, present, rfl⟩ := List.mem_map.mp inEnums
        have declared : record.enums = other.enums := declared
        rw [declared] at present
        exact .inl ⟨_, List.mem_append_right _ (List.mem_map_of_mem present), rfl⟩
    | _ => simp [Ty.outline] at outline
  | _ =>
    obtain rfl := Comparable.eq_of_leaf (.inl (below_of_outline outline)) rfl
    exact .inl ⟨part, inside, rfl⟩

end Ty

namespace Catalog

/-- Whatever an entry contains stands before it. -/
def ChildrenFirst (catalog : Catalog) : Prop :=
  ∀ entry ∈ catalog.entries, ∀ part ∈ entry.2.contained,
    Precedes catalog.names part.uniqueName entry.1

instance (catalog : Catalog) : Decidable catalog.ChildrenFirst :=
  inferInstanceAs (Decidable (∀ entry ∈ catalog.entries, ∀ part ∈ entry.2.contained,
    Precedes catalog.names part.uniqueName entry.1))

/-- The entry of one name contains a type of another one. -/
def Leads (catalog : Catalog) (outer inner : String) : Prop :=
  ∃ entry, catalog.get? outer = some entry ∧ ∃ part ∈ entry.contained, part.uniqueName = inner

/-- No name leads back to itself. -/
def Acyclic (catalog : Catalog) : Prop :=
  ∀ name, ¬ Relation.TransGen catalog.Leads name name

/-- An order with children first leaves no way back. -/
theorem ChildrenFirst.acyclic {catalog : Catalog} (ordered : catalog.ChildrenFirst)
    (distinct : catalog.names.Nodup) : catalog.Acyclic := by
  have down {outer inner : String} (leads : catalog.Leads outer inner) :
      catalog.names.idxOf inner < catalog.names.idxOf outer := by
    obtain ⟨entry, found, part, inside, rfl⟩ := leads
    have earlier := ordered (outer, entry) ((get?_eq_some distinct).mp found) part inside
    exact (precedes_iff.mp earlier).1
  have further {outer inner : String} (leads : Relation.TransGen catalog.Leads outer inner) :
      catalog.names.idxOf inner < catalog.names.idxOf outer := by
    induction leads with
    | single leads => exact down leads
    | tail _ leads ih => exact Nat.lt_trans (down leads) ih
  intro name back
  exact Nat.lt_irrefl _ (further back)

/-- Whether names lead back to themselves does not depend on the order of the entries. -/
theorem Acyclic.perm {catalog other : Catalog} (acyclic : catalog.Acyclic)
    (distinct : catalog.names.Nodup) (permuted : catalog.entries.Perm other.entries) :
    other.Acyclic := by
  have distinct' : other.names.Nodup := (permuted.map Prod.fst).nodup_iff.mp distinct
  have same : other.Leads = catalog.Leads := by
    funext outer inner
    simp only [Leads, get?_eq_some distinct, get?_eq_some distinct', permuted.mem_iff]
  intro name
  rw [same]
  exact acyclic name

/-- The names of all types within some roots, in the order in which a collection visits them. -/
def visits (roots : List Ty) : List String :=
  (roots.flatMap Ty.tree).map Ty.uniqueName

/-- A member of an entry has a type of a name that the member of the first type of the entry's
    name did not have. -/
def Learns (roots : List Ty) (catalog : Catalog) (name : String) (known part : Ty) : Prop :=
  ∃ first entry, (roots.flatMap Ty.tree).find? (·.uniqueName = name) = some first ∧
    catalog.get? name = some entry ∧ ∃ index : Nat, first.contents[index]? = some known ∧
      entry.contents[index]? = some part ∧ known.uniqueName ≠ part.uniqueName

section Runs

variable {name : String} {entry : Ty}

/-- A name that is looked up stays with its first type when more types come behind. -/
theorem find?_concat {types : List Ty} {type first : Ty}
    (found : types.find? (·.uniqueName = name) = some first) :
    (types ++ [type]).find? (·.uniqueName = name) = some first := by
  rw [List.find?_append, found, Option.some_or]

/-- An entry has the declarations of the first type of its name: merging keeps them. -/
theorem declared_offerAll (types : List Ty) (found : (offerAll types).get? name = some entry) :
    ∃ first, types.find? (·.uniqueName = name) = some first ∧ entry.declared = first.declared := by
  induction types using List.reverseRecOn generalizing entry with
  | nil => simp [offerAll, get?_empty] at found
  | append_singleton types type ih =>
    have before {entry : Ty} (found : (offerAll types).get? name = some entry) :
        ∃ first, (types ++ [type]).find? (·.uniqueName = name) = some first ∧
          entry.declared = first.declared := by
      obtain ⟨first, visited, same⟩ := ih found
      exact ⟨first, find?_concat visited, same⟩
    rw [offerAll_concat] at found
    rcases (offerAll types).offer_cases type with
      ⟨absent, offered⟩ | ⟨entered, common, present, merged, offered⟩ | ⟨-, refusal, -, -, offered⟩
    · rw [offered, get?_append absent] at found
      by_cases here : name = type.uniqueName
      · obtain rfl : type = entry := by simpa [here] using found
        have unlisted : ∀ other ∈ types, other.uniqueName ≠ name := by
          have unlisted := get?_eq_none.mp absent
          rw [names_offerAll, List.mem_eraseDups] at unlisted
          intro other among same
          exact unlisted (List.mem_map.mpr ⟨other, among, same.trans here⟩)
        refine ⟨type, ?_, rfl⟩
        rw [List.find?_append, List.find?_eq_none.mpr (by simpa using unlisted)]
        simp [here]
      · rw [if_neg here] at found
        exact before found
    · rw [offered, get?_replace present] at found
      by_cases here : name = type.uniqueName
      · obtain rfl : common = entry := by simpa [here] using found
        rw [Ty.declared_of_merge merged]
        exact before (here ▸ present)
      · rw [if_neg here] at found
        exact before found
    · rw [offered] at found
      exact before found

end Runs

section Collected

variable {roots : List Ty} {catalog : Catalog} {name : String} {entry : Ty}

/-- An entry of a collection tells the first type of its name and has its declarations. -/
theorem exists_first (sound : ∀ root ∈ roots, root.WellFormed)
    (collected : collect roots = .ok catalog) (found : catalog.get? name = some entry) :
    ∃ first, (roots.flatMap Ty.tree).find? (·.uniqueName = name) = some first ∧
      entry.declared = first.declared ∧ entry.Tells first := by
  obtain ⟨first, visited, declared⟩ :=
    declared_offerAll _ (eq_offerAll_of_insertAll collected ▸ found)
  have named : first.uniqueName = name := by simpa using List.find?_some visited
  obtain ⟨told, found', tells⟩ :=
    collect_records sound collected first (List.mem_of_find?_eq_some visited)
  rw [named, found] at found'
  obtain rfl := Option.some.inj found'
  exact ⟨first, visited, declared, tells⟩

/-- What the first type of a name contains is visited before it. -/
theorem precedes_of_first {first own : Ty}
    (visited : (roots.flatMap Ty.tree).find? (·.uniqueName = name) = some first)
    (inside : own ∈ first.contained) : Precedes (visits roots) own.uniqueName name := by
  obtain ⟨named, before, behind, split, others⟩ := List.find?_eq_some_iff_append.mp visited
  have parts : Ty.PartsFirst (roots.flatMap Ty.tree) := .flatMap fun root _ => .tree root
  have earlier := parts before first behind split own inside
  refine ⟨before.map Ty.uniqueName, behind.map Ty.uniqueName, ?_, List.mem_map_of_mem earlier, ?_⟩
  · simp [visits, split, show first.uniqueName = name by simpa using named]
  · intro listed
    obtain ⟨other, among, same⟩ := List.mem_map.mp listed
    simpa [same] using others other among

/-- The types of members are contained. -/
theorem mem_contained {type part : Ty} {index : Nat} (present : type.contents[index]? = some part) :
    part ∈ type.contained := by
  cases type with
  | struct record => exact List.mem_append_left _ (List.mem_of_getElem? present)
  | _ => simp [Ty.contents] at present

/-- In a collection children stand before their parents exactly when every type that a member has
    learnt from a later struct was visited before the first struct of its name. What is learnt is
    the target of a reference that was null before. -/
theorem collect_childrenFirst_iff (built : ∀ root ∈ roots, root.Built)
    (collected : collect roots = .ok catalog) :
    (catalog.ChildrenFirst ↔ ∀ name known part, Learns roots catalog name known part →
      Precedes (visits roots) part.uniqueName name) ∧
    ∀ name known part, Learns roots catalog name known part → known.Below part := by
  have sound : ∀ root ∈ roots, root.WellFormed := fun root among => (built root among).wellFormed
  have run := eq_offerAll_of_insertAll collected
  have distinct : catalog.names.Nodup := run ▸ (offerAll_named _).1
  have order (earlier later : String) :
      Precedes catalog.names earlier later ↔ Precedes (visits roots) earlier later := by
    rw [run, names_offerAll, precedes_eraseDups, visits]
  refine ⟨⟨?_, ?_⟩, ?_⟩
  · rintro ordered name known part ⟨first, entry, -, found, index, -, learnt, -⟩
    rw [← order]
    exact ordered (name, entry) ((get?_eq_some distinct).mp found) part (mem_contained learnt)
  · rintro earlier ⟨name, entry⟩ present part inside
    have found := (get?_eq_some distinct).mpr present
    obtain ⟨first, visited, declared, tells⟩ := exists_first sound collected found
    rw [order]
    rcases tells.contained declared inside with
      ⟨own, among, same⟩ | ⟨index, known, before, learnt, -, other⟩
    · exact same ▸ precedes_of_first visited among
    · exact earlier name known part ⟨first, entry, visited, found, index, before, learnt, other⟩
  · rintro name known part ⟨first, entry, visited, found, index, before, learnt, -⟩
    obtain ⟨first', visited', -, tells⟩ := exists_first sound collected found
    obtain rfl := Option.some.inj (visited.symm.trans visited')
    obtain ⟨better, learnt', below⟩ := tells.contents index known before
    obtain rfl := Option.some.inj (learnt.symm.trans learnt')
    exact below

end Collected

section Pointing

/-- The types that the pair of structs brings along, children first. -/
def pointingEntries : List (String × Ty) :=
  [("ref32->void", .ref .null .w32), ("char", .char), ("char[]", .charArray),
    ("ref32->char[]", .ref .charArray .w32),
    ("S", (Value.pointing (.ref (.ofString "a") .w32)).type)]

/-- The target of the second struct is collected behind the first one, whose entry contains it
    in the end, although no name leads back to itself. -/
theorem pointingPair_disordered :
    (∀ root ∈ pointingPair, root.Built) ∧ ∃ catalog, collect pointingPair = .ok catalog ∧
      catalog.Acyclic ∧ ¬ catalog.ChildrenFirst := by
  have collected : collect pointingPair = .ok
      ⟨[("ref32->void", .ref .null .w32), ("S", (Value.pointing (.ref (.ofString "a") .w32)).type),
        ("char", .char), ("char[]", .charArray), ("ref32->char[]", .ref .charArray .w32)]⟩ := rfl
  have sorted : ChildrenFirst ⟨pointingEntries⟩ := by decide
  refine ⟨pointingPair_built, _, collected, ?_, ?_⟩
  · have distinct : names ⟨pointingEntries⟩ |>.Nodup := by decide
    refine (sorted.acyclic distinct).perm distinct ?_
    decide
  · decide

/-- Behind a reference to a text the same pair is collected with children first: what the first
    struct learns has been visited already. -/
theorem visitedTarget_ordered :
    ∃ catalog, collect (.ref .charArray .w32 :: pointingPair) = .ok catalog ∧
      Learns (.ref .charArray .w32 :: pointingPair) catalog "S" (.ref .null .w32)
        (.ref .charArray .w32) ∧ catalog.ChildrenFirst := by
  have built : ∀ root ∈ Ty.ref .charArray .w32 :: pointingPair, root.Built := by
    rw [List.forall_mem_cons]
    exact ⟨.ref .w32 (.arrayOf .char (show Ty.arrayOf .char none none = _ from rfl)),
      pointingPair_built⟩
  have collected : collect (.ref .charArray .w32 :: pointingPair) = .ok
      ⟨[("char", .char), ("char[]", .charArray), ("ref32->char[]", .ref .charArray .w32),
        ("ref32->void", .ref .null .w32),
        ("S", (Value.pointing (.ref (.ofString "a") .w32)).type)]⟩ := rfl
  refine ⟨_, collected, ?_, (collect_childrenFirst_iff built collected).1.mpr ?_⟩
  · exact ⟨(Value.pointing (.nullRef .null .w32)).type, _, by decide, rfl, 0, rfl, rfl, by decide⟩
  · rintro name known part ⟨first, entry, -, found, index, -, learnt, -⟩
    have present := (get?_eq_some (by decide)).mp found
    simp only [List.mem_cons, List.not_mem_nil, or_false, Prod.mk.injEq] at present
    rcases present with ⟨-, rfl⟩ | ⟨-, rfl⟩ | ⟨-, rfl⟩ | ⟨-, rfl⟩ | ⟨rfl, rfl⟩
    case inr.inr.inr.inr =>
      obtain rfl : part = .ref .charArray .w32 :=
        List.mem_singleton.mp (List.mem_of_getElem? learnt)
      decide
    all_goals simp [Ty.contents, Ty.charArray, Ty.chars] at learnt

end Pointing

end Catalog

end BinaryLayout
