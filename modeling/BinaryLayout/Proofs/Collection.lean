import BinaryLayout.Proofs.Catalogs
import BinaryLayout.Proofs.Sizes

/-!
# Collected types and the values they describe

Values keep their own types, while an array has one element type for all its items.
What is collected from the type of a value describes a part of it exactly when that
type does. Nothing is lost by collecting: what gets lost is lost when the types of
items are merged into an element type that does not cover them.
-/

namespace BinaryLayout

namespace Ty

mutual

/-- The first type states everything that the second one states: what is declared, the
    known targets, and the enumerations beside structs. -/
def covers : Ty → Ty → Bool
  | ref a v, ref b w => v = w && (b.isNull || covers a b)
  | array a m p, array b n q => m = n && p = q && covers a b
  | refTable a m v, refTable b n w => m = n && v = w && (b.isNull || covers a b)
  | struct ⟨m, as, _, s, _, es⟩, struct ⟨n, bs, _, t, _, fs⟩ =>
      m = n && s = t && fs.all (es.contains ·) && coversMembers as bs
  | int a, b => b = int a
  | char, b => b = char
  | null, b => b = null
  | bitField a, b => b = bitField a
  | bitTable a, b => b = bitTable a
  | enum a, b => b = enum a
  | _, _ => false

/-- The same for members, which stand at the same places. -/
def coversMembers : List (Member Ty) → List (Member Ty) → Bool
  | [], [] => true
  | ⟨m, i, a, _⟩ :: as, ⟨n, j, b, _⟩ :: bs =>
      m = n && i = j && covers a b && coversMembers as bs
  | _, _ => false

end

attribute [local simp] covers coversMembers

/-- Covered members stand at the same places and are covered one by one. -/
theorem coversMembers_iff {as bs : List (Member Ty)} :
    coversMembers as bs = true ↔
      List.Forall₂ (fun a b => a.place = b.place ∧ a.content.covers b.content = true) as bs := by
  induction as generalizing bs with
  | nil => cases bs <;> simp
  | cons a as ih =>
    cases bs with
    | nil => simp
    | cons b bs => simp [ih, Member.place, and_assoc]

/-- Every covered member has its covering one. -/
theorem coversMembers_mem {as bs : List (Member Ty)} (covered : coversMembers as bs = true) :
    ∀ b ∈ bs, ∃ a ∈ as, a.content.covers b.content = true := by
  have pairs := coversMembers_iff.mp covered
  clear covered
  induction pairs with
  | nil => simp
  | @cons a b as bs first _ ih =>
    intro tested present
    rcases List.mem_cons.mp present with rfl | inRest
    · exact ⟨a, by simp, first.2⟩
    · obtain ⟨above, inside, covered⟩ := ih tested inRest
      exact ⟨above, by simp [inside], covered⟩

/-- Every type covers itself. -/
theorem covers_refl (type : Ty) : type.covers type = true := by
  induction type using Ty.induction with
  | ref target width ih => simp [ih]
  | array element fixed align ih => simp [ih]
  | refTable target fixed width ih => simp [ih]
  | struct record ih =>
    cases record
    simp only [covers, decide_true, Bool.true_and, Bool.and_eq_true, List.all_eq_true,
      List.contains_iff_mem, coversMembers_iff, List.forall₂_same]
    exact ⟨fun _ present => present, fun member present => ⟨trivial, ih member present⟩⟩
  | _ => simp

/-- A known type is not covered by the unknown one. -/
theorem isNull_of_covers {a b : Ty} (covered : a.covers b = true) : a.isNull = b.isNull := by
  cases a with
  | ref _ _ | array _ _ _ | refTable _ _ _ =>
    cases b <;> simp_all [isNull]
  | struct record =>
    cases record
    cases b <;> simp_all [isNull]
  | _ =>
    simp only [covers, decide_eq_true_eq] at covered
    rw [covered]

/-- A reference to a known target is covered by such references only. -/
theorem isKnownRef_of_covers {a b : Ty} (covered : a.covers b = true)
    (known : b.isKnownRef = true) : a.isKnownRef = true := by
  obtain ⟨target, width, rfl, present⟩ := isKnownRef_eq_true.mp known
  cases a with
  | ref above place =>
    simp only [covers, Bool.and_eq_true, Bool.or_eq_true, isNull_eq_true] at covered
    have same := isNull_of_covers (covered.2.resolve_left present)
    simpa [isKnownRef, same] using known
  | _ => simp at covered

/-- Whatever a type contains is covered by something that a covering type contains. -/
theorem covers_contained {a b : Ty} (covered : a.covers b = true) :
    ∀ part ∈ b.contained, ∃ whole ∈ a.contained, whole.covers part = true := by
  intro part present
  have target {x y : Ty} (covered : y.isNull = true ∨ x.covers y = true)
      (inside : part ∈ if y.isNull then [] else [y]) :
      ∃ whole ∈ if x.isNull then [] else [x], whole.covers part = true := by
    cases unknown : y.isNull with
    | true => simp [unknown] at inside
    | false =>
      obtain rfl : part = y := by simpa [unknown] using inside
      have covered : x.covers part = true := covered.resolve_left (by simp [unknown])
      exact ⟨x, by simp [isNull_of_covers covered, unknown], covered⟩
  cases a with
  | ref x v =>
    cases b with
    | ref y w =>
      simp only [covers, Bool.and_eq_true, Bool.or_eq_true] at covered
      exact target covered.2 present
    | _ => simp at covered
  | array x m p =>
    cases b with
    | array y n q =>
      simp only [covers, Bool.and_eq_true] at covered
      obtain rfl : part = y := by simpa [contained] using present
      exact ⟨x, by simp [contained], covered.2⟩
    | _ => simp at covered
  | refTable x m v =>
    cases b with
    | refTable y n w =>
      simp only [covers, Bool.and_eq_true, Bool.or_eq_true] at covered
      exact target covered.2 present
    | _ => simp at covered
  | struct record =>
    cases b with
    | struct other =>
      cases record
      cases other
      simp only [covers, Bool.and_eq_true, List.all_eq_true, List.contains_iff_mem] at covered
      obtain ⟨⟨-, enums⟩, members⟩ := covered
      rcases List.mem_append.mp present with inMembers | inEnums
      · obtain ⟨member, declared, rfl⟩ := List.mem_map.mp inMembers
        obtain ⟨whole, inside, covered⟩ := coversMembers_mem members member declared
        exact ⟨whole.content, List.mem_append.mpr (.inl (List.mem_map_of_mem inside)), covered⟩
      · obtain ⟨enumeration, declared, rfl⟩ := List.mem_map.mp inEnums
        exact ⟨enum enumeration,
          List.mem_append.mpr (.inr (List.mem_map_of_mem (enums _ declared))), covers_refl _⟩
    | _ => cases record; simp at covered
  | _ =>
    simp only [covers, decide_eq_true_eq] at covered
    exact ⟨part, covered ▸ present, covers_refl part⟩

/-- Whatever lies within a type is covered by something within a covering type. -/
theorem covers_tree {a b : Ty} (covered : a.covers b = true) :
    ∀ part ∈ b.tree, ∃ whole ∈ a.tree, whole.covers part = true := by
  induction a using contained_induction generalizing b with
  | step a ih =>
    intro part present
    rw [tree_eq] at present
    rcases List.mem_append.mp present with inside | itself
    · obtain ⟨child, direct, deeper⟩ := List.mem_flatMap.mp inside
      obtain ⟨above, present', covered'⟩ := covers_contained covered child direct
      obtain ⟨whole, inWhole, covered''⟩ := ih above present' covered' part deeper
      exact ⟨whole, mem_tree_of_contained present' inWhole, covered''⟩
    · exact ⟨a, self_mem_tree a, List.mem_singleton.mp itself ▸ covered⟩

/-- A covering type has the name and the shape of a covered declaration. -/
theorem declared_of_covers {a b : Ty} (covered : a.covers b = true)
    (declared : b.shape ≠ .undeclared) : a.uniqueName = b.uniqueName ∧ a.shape = b.shape := by
  cases a with
  | struct record =>
    cases b with
    | struct other =>
      cases record
      cases other
      simp only [covers, Bool.and_eq_true, decide_eq_true_eq] at covered
      obtain ⟨⟨⟨rfl, rfl⟩, -⟩, members⟩ := covered
      refine ⟨rfl, ?_⟩
      have places := (coversMembers_iff.mp members).imp fun _ _ pair => pair.1
      simp only [shape, Shape.record.injEq, true_and]
      exact List.forall₂_eq_eq_eq ▸ List.forall₂_map_left_iff.mpr (List.forall₂_map_right_iff.mpr places)
    | _ => cases record; simp at covered
  | ref _ _ | array _ _ _ | refTable _ _ _ => cases b <;> simp_all [shape]
  | _ =>
    simp only [covers, decide_eq_true_eq] at covered
    exact covered ▸ ⟨rfl, rfl⟩

/-- A covering struct has the name of a covered one and knows its targets. -/
theorem knowsTarget_of_covers {a b : Ty} {index : Nat} (covered : a.covers b = true)
    (knows : b.KnowsTarget index) : a.uniqueName = b.uniqueName ∧ a.KnowsTarget index := by
  obtain ⟨other, member, rfl, found, known⟩ := knows
  refine ⟨(declared_of_covers covered (by simp [shape])).1, ?_⟩
  cases a with
  | struct record =>
    cases record
    cases other
    simp only [covers, Bool.and_eq_true] at covered
    have members := coversMembers_iff.mp covered.2
    obtain ⟨inside, rfl⟩ := List.getElem?_eq_some_iff.mp found
    have inside' := members.length_eq ▸ inside
    refine ⟨_, _, rfl, List.getElem?_eq_getElem inside', ?_⟩
    exact isKnownRef_of_covers (members.get inside' inside).2 known
  | _ => simp at covered

end Ty

namespace Value

/-- A reference that points to a value. -/
def refersToValue : Value → Bool
  | ref .. => true
  | _ => false

/-- The types listed under unique names describe a value: its declaration has the same
    shape there, the enumerations beside a struct are listed, and where a member points to
    a value, a target is known. -/
structure Describes (listed : String → Ty → Prop) (value : Value) : Prop where
  shape : value.type.shape ≠ .undeclared →
    ∃ entry, listed value.type.uniqueName entry ∧ entry.shape = value.type.shape
  enums : ∀ record, value = .struct record → ∀ enumeration ∈ record.enums,
    listed enumeration.name (.enum enumeration)
  targets : ∀ record index member, value = .struct record →
    record.members[index]? = some member → member.content.refersToValue = true →
    ∃ entry, listed value.type.uniqueName entry ∧ entry.KnowsTarget index

/-- What some types list describes as much as what others list when it has the shapes and
    the known targets of the others under the same names. -/
theorem Describes.transfer {listed listed' : String → Ty → Prop} {value : Value}
    (described : Describes listed value)
    (shapes : ∀ name entry, listed name entry → entry.shape ≠ .undeclared →
      ∃ other, listed' name other ∧ other.shape = entry.shape)
    (targets : ∀ name entry index, listed name entry → entry.KnowsTarget index →
      ∃ other, listed' name other ∧ other.KnowsTarget index) : Describes listed' value := by
  refine ⟨fun declared => ?_, fun record same enumeration present => ?_,
    fun record index member same found points => ?_⟩
  · obtain ⟨entry, here, shape⟩ := described.shape declared
    obtain ⟨other, there, shape'⟩ := shapes _ entry here (shape ▸ declared)
    exact ⟨other, there, shape'.trans shape⟩
  · obtain ⟨other, there, shape⟩ :=
      shapes _ _ (described.enums record same enumeration present) (by simp [Ty.shape])
    cases other <;> simp [Ty.shape] at shape
    exact shape ▸ there
  · obtain ⟨entry, here, knows⟩ := described.targets record index member same found points
    exact targets _ entry index here knows

/-- Types under their unique names. -/
def Listed (types : List Ty) (name : String) (type : Ty) : Prop :=
  type ∈ types ∧ type.uniqueName = name

/-- Entries of a catalog under their names. -/
def Entered (catalog : Catalog) (name : String) (type : Ty) : Prop :=
  catalog.get? name = some type

/-- A collection describes a value exactly when the types within the roots do. -/
theorem describes_collected_iff {roots : List Ty} {catalog : Catalog} {value : Value}
    (sound : ∀ root ∈ roots, root.WellFormed) (collected : Catalog.collect roots = .ok catalog) :
    Describes (Entered catalog) value ↔ Describes (Listed (roots.flatMap Ty.tree)) value := by
  constructor
  · intro described
    have sourced := Catalog.collect_sourced collected
    refine described.transfer (fun name entry here _ => ?_) fun name entry index here knows => ?_
    · obtain ⟨source, inside, named, shape⟩ := (sourced name entry here).shape
      exact ⟨source, ⟨inside, named⟩, shape⟩
    · obtain ⟨source, inside, named, knows⟩ := (sourced name entry here).targets knows
      exact ⟨source, ⟨inside, named⟩, knows⟩
  · intro described
    have recorded := Catalog.collect_records sound collected
    refine described.transfer (fun name type here _ => ?_) fun name type index here knows => ?_
    all_goals
      obtain ⟨entry, found, told⟩ := recorded type here.1
      rw [here.2] at found
    · exact ⟨entry, found, told.shape⟩
    · exact ⟨entry, found, told.targets index knows⟩

/-- A value keeps a part when it is reached through arrays and reference tables whose
    element or target types cover the types of the items on the way. -/
inductive Keeps (part : Value) : Value → Prop
  | self : Keeps part part
  | target {target : Value} (width : RefWidth) (inside : Keeps part target) :
      Keeps part (.ref target width)
  | item {element : Ty} {items : List Value} {item : Value} (fixed : Option Nat) (align : Nat)
      (present : item ∈ items) (covered : element.covers item.type = true)
      (inside : Keeps part item) : Keeps part (.array element fixed align items)
  | entry {target : Ty} {items : List Value} {item : Value} (fixed : Option Nat)
      (width : RefWidth) (present : item ∈ items) (covered : target.covers item.type = true)
      (inside : Keeps part item) : Keeps part (.refTable target fixed width items)
  | member {record : Record Value} {member : Member Value} (present : member ∈ record.members)
      (inside : Keeps part member.content) : Keeps part (.struct record)

/-- The type of a value describes the value. -/
theorem Sound.describes_self {value : Value} (sound : value.Sound) :
    Describes (Listed value.type.tree) value := by
  have itself := value.type.self_mem_tree
  refine ⟨fun _ => ⟨_, ⟨itself, rfl⟩, rfl⟩, ?_, ?_⟩
  · rintro ⟨name, members, align, size, constants, enums⟩ rfl enumeration declared
    refine ⟨?_, rfl⟩
    exact Ty.mem_tree_of_contained (List.mem_append_right _ (List.mem_map_of_mem declared))
      (Ty.self_mem_tree (.enum enumeration))
  · rintro record index member rfl found points
    refine ⟨_, ⟨itself, rfl⟩, ?_⟩
    cases sound with
    | struct _ sound =>
    have inner := sound member (List.mem_of_getElem? found)
    obtain ⟨name, members, align, size, constants, enums⟩ := record
    refine ⟨_, ⟨member.name, member.offset, member.content.type, member.isPadding⟩, rfl, ?_, ?_⟩
    · simp only [memberTypes_eq_map, List.getElem?_map]
      simp [show members[index]? = some member from found]
    · cases content : member.content <;> simp [content, refersToValue] at points
      rw [content] at inner
      cases inner with
      | ref _ _ present => simp [Value.type, Ty.isKnownRef, present]

/-- What lies within a part of a type lies within the type. -/
theorem describes_of_contained {part whole : Ty} {value : Value} (inside : part ∈ whole.contained)
    (described : Describes (Listed part.tree) value) : Describes (Listed whole.tree) value := by
  have deeper : ∀ name type, Listed part.tree name type → Listed whole.tree name type := by
    rintro name type ⟨present, named⟩
    exact ⟨Ty.mem_tree_of_contained inside present, named⟩
  exact described.transfer (fun name type here _ => ⟨type, deeper name type here, rfl⟩)
    fun name type _ here knows => ⟨type, deeper name type here, knows⟩

/-- A covering type describes whatever a covered one describes. -/
theorem describes_of_covers {a b : Ty} {value : Value} (covered : a.covers b = true)
    (described : Describes (Listed b.tree) value) : Describes (Listed a.tree) value := by
  refine described.transfer (fun name type here declared => ?_) fun name type index here knows => ?_
  all_goals obtain ⟨whole, inside, covers⟩ := Ty.covers_tree covered type here.1
  · obtain ⟨named, shape⟩ := Ty.declared_of_covers covers declared
    exact ⟨whole, ⟨inside, named.trans here.2⟩, shape⟩
  · obtain ⟨named, knows'⟩ := Ty.knowsTarget_of_covers covers knows
    exact ⟨whole, ⟨inside, named.trans here.2⟩, knows'⟩

/-- The type of a value describes every part that the value keeps. -/
theorem Keeps.describes {part value : Value} (kept : Keeps part value) (sound : value.Sound) :
    Describes (Listed value.type.tree) part := by
  induction kept with
  | self => exact sound.describes_self
  | target width _ ih =>
    cases sound with
    | ref _ sound present =>
      exact describes_of_contained (by simp [Value.type, Ty.contained, present]) (ih sound)
  | item fixed align present covered _ ih =>
    cases sound with
    | array _ _ sound _ _ =>
      exact describes_of_contained (by simp [Value.type, Ty.contained])
        (describes_of_covers covered (ih (sound _ present)))
  | @entry target items item fixed width present covered inside ih =>
    cases sound with
    | refTable _ _ sound _ =>
    cases unknown : target.isNull with
    | false =>
      exact describes_of_contained (by simp [Value.type, Ty.contained, unknown])
        (describes_of_covers covered (ih (sound item present)))
    | true =>
      -- An unknown target covers null items only, and these declare nothing.
      have absent := Ty.isNull_of_covers covered
      rw [unknown, isNull_type] at absent
      cases item <;> simp [isNull] at absent
      cases inside
      exact ⟨fun declared => absurd rfl declared, by simp, by simp⟩
  | @member record member present _ ih =>
    cases sound with
    | struct _ sound =>
      refine describes_of_contained ?_ (ih (sound member present))
      cases record
      simp only [Value.type, Ty.contained, memberTypes_eq_map, List.map_map, List.mem_append]
      exact .inl (List.mem_map_of_mem present)

/-- The types collected from a built value describe a part of it exactly when the type of
    the value does, and they describe every part that the value keeps. -/
theorem collect_describes {value : Value} {catalog : Catalog} (built : value.Built)
    (collected : Catalog.collect [value.type] = .ok catalog) :
    (∀ part, Describes (Entered catalog) part ↔ Describes (Listed value.type.tree) part) ∧
      ∀ part, Keeps part value → Describes (Entered catalog) part := by
  have sound : ∀ root ∈ [value.type], root.WellFormed := by
    intro root present
    exact List.mem_singleton.mp present ▸ built.sound.type
  have exact (part : Value) :
      Describes (Entered catalog) part ↔ Describes (Listed value.type.tree) part := by
    simpa using (describes_collected_iff sound collected : Describes (Entered catalog) part ↔ _)
  exact ⟨exact, fun part kept => (exact part).mpr (kept.describes built.sound)⟩

section Unknown

set_option maxRecDepth 10000

/-- Everything about an array of one struct is collected from its type. -/
theorem boxed_collected :
    ∃ catalog, Catalog.collect [(boxed ["x"]).type] = .ok catalog ∧
      Describes (Entered catalog) (zeros ["x"]) := by
  have built : (boxed ["x"]).Built := boxed_built (zeros_built rfl) rfl
  have collected : Catalog.collect [(boxed ["x"]).type] = .ok ⟨[("int32_t", .int .int32),
    ("S", (zeros ["x"]).type), ("S[1]", (boxed ["x"]).type)]⟩ := rfl
  refine ⟨_, collected, (collect_describes built collected).2 _ ?_⟩
  exact .item (some 1) 4 (List.mem_singleton.mpr rfl) rfl .self

/-- A finalized struct with one reference. -/
def pointing (reference : Value) : Value :=
  .struct ⟨"S", [⟨"x", 0, reference, false⟩], 4, some 4, .empty, []⟩

/-- An array of one such struct. -/
def boxedPointing (reference : Value) : Value :=
  .array (pointing reference).type (some 1) 4 [pointing reference]

/-- Such a struct is built when its reference is. -/
theorem pointing_built {reference : Value} (built : reference.Built)
    (laid : Draft.layOut "S" [("x", reference)] = .ok (pointing reference)) :
    (pointing reference).Built :=
  Draft.layOut_built (fun _ present => List.mem_singleton.mp present ▸ built) laid

/-- Such an array is built when its reference is. -/
theorem boxedPointing_built {reference : Value} (built : reference.Built)
    (laid : Draft.layOut "S" [("x", reference)] = .ok (pointing reference))
    (made : arrayOf (pointing reference).type [pointing reference] (some 1) none =
      .ok (boxedPointing reference)) : (boxedPointing reference).Built := by
  have record := pointing_built built laid
  exact .arrayOf (.ofValue record) (fun item present => List.mem_singleton.mp present ▸ record) made

/-- Two such arrays: the first reference is null, the second one points to a text. -/
def lateTarget : Value :=
  .array (boxedPointing (.nullRef .null .w32)).type none 4
    [boxedPointing (.nullRef .null .w32), boxedPointing (.ref (.ofString "a") .w32)]

/-- The target that only the second struct knows is packed, but not collected: both arrays
    have elements of one unique name, so the type of the first one is kept. -/
theorem lateTarget_unknown :
    lateTarget.Built ∧ Within (pointing (.ref (.ofString "a") .w32)) lateTarget ∧
      ∃ catalog, Catalog.collect [lateTarget.type] = .ok catalog ∧
        ¬ Describes (Entered catalog) (pointing (.ref (.ofString "a") .w32)) := by
  have text : (Value.ofString "a").Built :=
    .stringOf (show Value.stringOf "a" none true = _ from rfl)
  have built : lateTarget.Built := by
    refine .sequence ?_ (show Value.sequence [boxedPointing (.nullRef .null .w32),
      boxedPointing (.ref (.ofString "a") .w32)] none = _ from rfl)
    simp only [List.mem_cons, List.not_mem_nil, or_false, forall_eq_or_imp, forall_eq]
    exact ⟨boxedPointing_built (.nullRef .w32 .null) rfl rfl,
      boxedPointing_built (.refTo .w32 text) rfl rfl⟩
  have inside : Within (pointing (.ref (.ofString "a") .w32)) lateTarget :=
    .item _ none 4 (List.mem_cons_of_mem _ (List.mem_singleton.mpr rfl))
      (.item _ (some 1) 4 (List.mem_singleton.mpr rfl) .self)
  have collected : Catalog.collect [lateTarget.type] = .ok
      ⟨[("ref32->void", .ref .null .w32), ("S", (pointing (.nullRef .null .w32)).type),
        ("S[1]", (boxedPointing (.nullRef .null .w32)).type), ("S[1][]", lateTarget.type)]⟩ := rfl
  refine ⟨built, inside, _, collected, fun described => ?_⟩
  obtain ⟨entry, found, record, member, rfl, present, known⟩ :=
    described.targets _ 0 _ rfl rfl rfl
  obtain rfl := Ty.struct.inj (Option.some.inj found)
  obtain rfl := Option.some.inj present
  simp [Value.type, Ty.isKnownRef, Ty.isNull] at known

end Unknown

end Value
end BinaryLayout
