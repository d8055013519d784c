import BinaryLayout.Proofs.Frames
import BinaryLayout.Proofs.SizedTypes

/-!
# Folding types together

An array merges the types of its values up to three times: to find out what they have in common,
for the elements in place, and with the sides exchanged for the targets of a table. A fold finds the
least type above all types, in whatever order its steps take their sides, so these folds agree as
long as types of one name do. The fold for the elements also asks for their width, which an array
of very many elements does not have: the program stops there.
-/

namespace BinaryLayout.Ty

section Folds

variable {held : Ty → Prop} {join : Ty → Ty → Except LayoutError Ty} {types : List Ty}
  {start result bound : Ty}

/-- A fold finds a type above all types. -/
theorem FindsLeast.foldlM_upper (laws : FindsLeast held join)
    (folded : types.foldlM join start = .ok result) (first : held start)
    (each : ∀ type ∈ types, held type) :
    held result ∧ start.Under result ∧ ∀ type ∈ types, type.Under result := by
  induction types generalizing start with
  | nil =>
    obtain rfl : start = result := by simpa [pure, Except.pure] using folded
    exact ⟨first, .refl start, by simp⟩
  | cons type rest ih =>
    rw [List.forall_mem_cons] at each
    obtain ⟨next, joined, later⟩ := bind_eq_ok.mp (by simpa using folded)
    obtain ⟨kept, above, others⟩ := ih later (laws.keeps first each.1 joined) each.2
    obtain ⟨upper, upper'⟩ := laws.upper first each.1 joined
    exact ⟨kept, upper.trans above, List.forall_mem_cons.mpr ⟨upper'.trans above, others⟩⟩

/-- Where a type is above all types, a fold succeeds, and what it finds is under that type. -/
theorem FindsLeast.exists_foldlM (laws : FindsLeast held join) (first : held start)
    (each : ∀ type ∈ types, held type) (below : start.Under bound)
    (all : ∀ type ∈ types, type.Under bound) :
    ∃ result, types.foldlM join start = .ok result ∧ result.Under bound := by
  induction types generalizing start with
  | nil => exact ⟨start, rfl, below⟩
  | cons type rest ih =>
    rw [List.forall_mem_cons] at each all
    obtain ⟨next, joined⟩ := laws.found first each.1 below all.1
    obtain ⟨result, later, under⟩ := ih (laws.keeps first each.1 joined) each.2
      (laws.least first each.1 joined below all.1) all.2
    exact ⟨result, by simpa [joined, bind, Except.bind] using later, under⟩

end Folds

/-- A common type is a reference when one of the two types is. -/
theorem mergeKnown_isRef {a b c : Ty} (merged : a.mergeKnown b = .ok c) :
    c.isRef = (a.isRef || b.isRef) := by
  rcases known_eq_ok.mp merged with ⟨rfl, rfl⟩ | ⟨-, rfl, rfl⟩ | ⟨-, -, inner⟩
  · rfl
  · simp [isRef]
  · obtain ⟨alike, alike'⟩ := merge_isRef inner
    simp [alike, alike']

/-- Types of which a fold finds something that is no reference are none themselves. -/
theorem direct_of_foldlM {types : List Ty} {start result : Ty}
    (folded : types.foldlM mergeKnown start = .ok result) (direct : result.isRef = false) :
    ∀ type ∈ start :: types, type.isRef = false := by
  induction types generalizing start with
  | nil =>
    obtain rfl : start = result := by simpa [pure, Except.pure] using folded
    simpa using direct
  | cons type rest ih =>
    obtain ⟨next, merged, later⟩ := bind_eq_ok.mp (by simpa using folded)
    obtain ⟨here, behind⟩ := List.forall_mem_cons.mp (ih later)
    rw [mergeKnown_isRef merged, Bool.or_eq_false_iff] at here
    exact List.forall_mem_cons.mpr ⟨here.1, List.forall_mem_cons.mpr ⟨here.2, behind⟩⟩

/-- What a type stores occurs in it. -/
theorem occurs_of_stored {types : List Ty} {type part : Ty} (inside : type ∈ types.flatMap tree)
    (present : part ∈ type.stored) : Occurs types part := by
  have occurs : Occurs types type := .within inside
  cases type with
  | array element fixed align =>
    obtain rfl := List.mem_singleton.mp present
    exact occurs.of_array
  | refTable target fixed width =>
    obtain rfl := List.mem_singleton.mp present
    exact .refTo width occurs.of_refTable
  | struct record => exact .contained inside (List.mem_append_left _ present)
  | _ => simp [stored] at present

end BinaryLayout.Ty

namespace BinaryLayout.Value

/-- What some values have in common: the type of the first one, into which the types of the
    others are merged. -/
def elementType (first : Value) (rest : List Value) : Except LayoutError Ty :=
  rest.foldlM (fun element item => element.mergeKnown item.type) first.type

section Folds

variable {first : Value} {rest items : List Value} {element target : Ty}

theorem elementType_eq : elementType first rest =
    (rest.map type).foldlM Ty.mergeKnown first.type := by
  rw [elementType, List.foldlM_map]

/-- Where no value is a reference, the targets are folded with the sides exchanged. -/
theorem commonTarget_eq (direct : ∀ item ∈ items, item.isRef = false) :
    commonTarget target items =
      (items.map type).foldlM (fun target type => type.mergeKnown target) target := by
  induction items generalizing target with
  | nil => rfl
  | cons item rest ih =>
    rw [List.forall_mem_cons] at direct
    simp only [commonTarget, List.foldlM_cons, List.map_cons, direct.1, Bool.false_eq_true, if_false]
    exact congrArg _ (funext fun target => ih direct.2)

/-- An element type that takes in the type of every value stays as it is. -/
theorem commonElement_of_absorbed (takes : ∀ item ∈ items, element.merge item.type = .ok element) :
    commonElement element items = .ok element := by
  induction items with
  | nil => rfl
  | cons item rest ih =>
    rw [List.forall_mem_cons] at takes
    simpa [commonElement, takes.1, bind, Except.bind] using ih takes.2

/-- Values with a common type that is no reference are none themselves. -/
theorem direct_of_elementType (found : elementType first rest = .ok element)
    (direct : element.isRef = false) : ∀ item ∈ first :: rest, item.isRef = false := by
  rw [elementType_eq] at found
  intro item present
  rw [← isRef_type]
  exact Ty.direct_of_foldlM found direct _ (List.mem_map_of_mem (f := type) present)

/-- Null values do not merge into a type that is stored in place. -/
theorem isNull_of_commonElement {common : Ty}
    (folded : commonElement element items = .ok common) (inPlace : element.isInPlace = true) :
    ∀ item ∈ items, item.isNull = false := by
  refine (foldlM_each (fun state : Ty => state.isInPlace = true) (fun item => item.isNull = false)
    folded inPlace fun state item next _ before step =>
      ⟨(Ty.merge_storedAlike step).inPlace.trans before, ?_⟩).2
  rw [← isNull_type, ← Bool.not_eq_true, Ty.isNull_eq_true]
  intro unknown
  rw [unknown] at step
  rw [(Ty.merge_null_right.mp step).1] at before
  simp [Ty.isInPlace] at before

end Folds

section Agreement

open Ty (AgreeByName Occurs MadeOf Legible)

variable {first : Value} {rest : List Value} {fixed : Option Nat} {element : Ty}

/-- What the first fold finds decides how an array stores its values. -/
theorem sequence_cons : sequence (first :: rest) fixed = elementType first rest >>= fun element =>
    if element.isRef then refuse (.referenceElement element.uniqueName)
    else if element.isInPlace then arrayOf element (first :: rest) fixed none
    else refTableOf (first :: rest) fixed .w32 :=
  rfl

variable (built : ∀ item ∈ first :: rest, item.Built)
  (agree : AgreeByName ((first :: rest).map type)) (fits : Fits (first :: rest).length fixed)
  (found : elementType first rest = .ok element) (direct : element.isRef = false)

include built

theorem legible_types (agree : AgreeByName ((first :: rest).map type)) :
    Legible (Occurs ((first :: rest).map type)) := by
  refine Ty.legible_occurs (fun root among => ?_) agree
  obtain ⟨item, present, rfl⟩ := List.mem_map.mp among
  exact .ofValue (built item present)

include found direct

/-- The types of the values are made of the types that occur in them. -/
theorem types_madeOf : ∀ root ∈ (first :: rest).map type,
    MadeOf (Occurs ((first :: rest).map type)) root := by
  intro root among
  obtain ⟨item, present, rfl⟩ := List.mem_map.mp among
  constructor
  case sound => exact (built item present).sound.type
  case direct => rw [isRef_type]; exact direct_of_elementType found direct item present
  case stored =>
    exact fun part stored => Ty.occurs_of_stored
      (List.mem_flatMap.mpr ⟨item.type, among, item.type.self_mem_tree⟩) stored

include agree

/-- Whatever the first fold finds is above the types of all values. -/
theorem under_elementType : MadeOf (Occurs ((first :: rest).map type)) element ∧
    ∀ root ∈ (first :: rest).map type, root.Under element := by
  have each := types_madeOf built found direct
  rw [List.map_cons, List.forall_mem_cons] at each ⊢
  rw [elementType_eq] at found
  exact (Ty.mergeKnown_findsLeast (legible_types built agree)).foldlM_upper found each.1 each.2

/-- The fold with the sides exchanged succeeds, too, and finds a target of the same name. -/
theorem exists_commonTarget : ∃ target, commonTarget first.type (first :: rest) = .ok target ∧
    target.isRef = false ∧ target.uniqueName = element.uniqueName := by
  have laws := Ty.mergeKnown_findsLeast (legible_types built agree)
  have each := types_madeOf built found direct
  have above := (under_elementType built agree found direct).2
  rw [commonTarget_eq (direct_of_elementType found direct)]
  have start := List.mem_map_of_mem (f := type) (List.mem_cons_self (a := first) (l := rest))
  obtain ⟨target, folded, under⟩ :=
    laws.flip.exists_foldlM (each _ start) each (above _ start) above
  obtain ⟨kept, -, above'⟩ := laws.flip.foldlM_upper folded (each _ start) each
  -- The first fold ends under everything that is above all types, so under the target.
  rw [List.map_cons, List.forall_mem_cons] at each above'
  obtain ⟨_, again, least⟩ := laws.exists_foldlM each.1 each.2 above'.1 above'.2
  rw [← elementType_eq, found] at again
  obtain rfl := Except.ok.inj again
  exact ⟨target, folded, kept.direct, under.uniqueName_eq kept.direct least⟩

/-- The fold over all values that starts from the common type ends there. -/
theorem commonElement_eq (known : ∀ item ∈ first :: rest, item.isNull = false) :
    commonElement element (first :: rest) = .ok element := by
  obtain ⟨itself, above⟩ := under_elementType built agree found direct
  refine commonElement_of_absorbed fun item present => ?_
  have among := List.mem_map_of_mem (f := type) present
  exact Ty.merge_of_under (legible_types built agree)
    (types_madeOf built found direct _ among) itself (above _ among)
    (by rw [isNull_type]; exact known item present)

include fits

/-- A table of references to the values can be made, whatever its references are, and names its
    targets as the common type. -/
theorem exists_refTableOf (width : RefWidth) : ∃ target,
    refTableOf (first :: rest) fixed width = .ok (refTable target fixed width (first :: rest)) ∧
      target.uniqueName = element.uniqueName := by
  obtain ⟨target, folded, directTarget, named⟩ := exists_commonTarget built agree found direct
  refine ⟨target, ?_, named⟩
  simp only [refTableOf, checkCapacity_of_fits fits, folded, Ty.refTableOf, directTarget, bind,
    Except.bind, pure, Except.pure, Bool.false_eq_true, if_false]

/-- An array in place of values of which none is null only asks for the width of their common
    type, which its elements get. -/
theorem arrayOf_elementType (known : ∀ item ∈ first :: rest, item.isNull = false) :
    arrayOf element (first :: rest) fixed none =
      element.width.map fun _ => array element fixed element.align (first :: rest) := by
  simp only [arrayOf, checkCapacity_of_fits fits, commonElement_eq built agree found direct known,
    Ty.arrayAlign, direct, bind, Except.bind, pure, Except.pure, Bool.false_eq_true, if_false]
  cases element.width <;> rfl

/-- An array in place of the values fails only for a null value, or at a common type that is too
    wide. -/
theorem exists_error_arrayOf (inPlace : element.isInPlace = true) :
    (∃ error, arrayOf element (first :: rest) fixed none = .error error) ↔
      (∃ item ∈ first :: rest, item.isNull = true) ∨ element.TooWide := by
  have sized := (under_elementType built agree found direct).1.sound.width_cases
  by_cases unknown : ∃ item ∈ first :: rest, item.isNull = true
  · refine iff_of_true ?_ (.inl unknown)
    obtain ⟨item, present, unknown⟩ := unknown
    cases made : arrayOf element (first :: rest) fixed none with
    | error error => exact ⟨error, rfl⟩
    | ok value =>
      obtain ⟨common, -, -, folded, -⟩ := arrayOf_eq_ok made
      have known := isNull_of_commonElement folded inPlace item present
      rw [unknown] at known
      contradiction
  · have made := arrayOf_elementType built agree fits found direct (by simpa using unknown)
    rw [made, or_iff_right unknown]
    rcases sized with ⟨-, ⟨width, sized⟩, narrow⟩ | ⟨-, stops, wide⟩ | ⟨referred, -, -⟩
    · simp [sized, narrow, Except.map]
    · simp [stops, wide, Except.map]
    · rw [inPlace] at referred
      contradiction

omit direct in
/-- Whatever the first fold finds, an array is made of it unless it is a reference, or is stored in
    place and too wide for that, or in place of a null value. -/
theorem exists_error_sequence : (∃ error, sequence (first :: rest) fixed = .error error) ↔
    element.isRef = true ∨ element.isInPlace = true ∧
      ((∃ item ∈ first :: rest, item.isNull = true) ∨ element.TooWide) := by
  rw [sequence_cons, found]
  cases direct : element.isRef with
  | true => simp [direct, refuse, bind, Except.bind]
  | false =>
    cases inPlace : element.isInPlace with
    | false =>
      obtain ⟨target, made, -⟩ := exists_refTableOf built agree fits found direct .w32
      simp [direct, inPlace, made, bind, Except.bind]
    | true =>
      simpa [direct, inPlace, bind, Except.bind] using
        exists_error_arrayOf built agree fits found direct inPlace

end Agreement

/-- Wherever types of one name agree, the folds over the types of an array's values do. A common
    type that is a reference is refused before an array of either kind is made. Of any other one, a
    table of references has a target of its name, and an array in place of values of which none is
    null has it as its element type unless it is too wide: then the program stops. So only the first
    fold, a common type that is a reference, and a null value or too wide a type in place keep an
    array from being made. -/
theorem sequence_folds_agree {first : Value} {rest : List Value} {fixed : Option Nat}
    (built : ∀ item ∈ first :: rest, item.Built)
    (agree : Ty.AgreeByName ((first :: rest).map type))
    (fits : Fits (first :: rest).length fixed) :
    (∀ element, elementType first rest = .ok element → element.isRef = false →
      (element.isInPlace = false → ∀ width, ∃ target,
        refTableOf (first :: rest) fixed width =
          .ok (refTable target fixed width (first :: rest)) ∧
        target.uniqueName = element.uniqueName) ∧
      (element.isInPlace = true → (∀ item ∈ first :: rest, item.isNull = false) →
        (¬ element.TooWide → arrayOf element (first :: rest) fixed none =
          .ok (array element fixed element.align (first :: rest))) ∧
        (element.TooWide → arrayOf element (first :: rest) fixed none = .error .overflow))) ∧
    ((∃ error, sequence (first :: rest) fixed = .error error) ↔
      (∃ error, elementType first rest = .error error) ∨
      ∃ element, elementType first rest = .ok element ∧
        (element.isRef = true ∨ element.isInPlace = true ∧
          ((∃ item ∈ first :: rest, item.isNull = true) ∨ element.TooWide))) := by
  constructor
  case left =>
    intro element found direct
    constructor
    · exact fun _ width => exists_refTableOf built agree fits found direct width
    · intro inPlace known
      have made := arrayOf_elementType built agree fits found direct known
      rcases (under_elementType built agree found direct).1.sound.width_cases with
        ⟨-, ⟨width, sized⟩, narrow⟩ | ⟨-, stops, wide⟩ | ⟨referred, -, -⟩
      · exact ⟨fun _ => by rw [made, sized]; rfl, fun wide => absurd wide narrow⟩
      · exact ⟨fun narrow => absurd wide narrow, fun _ => by rw [made, stops]; rfl⟩
      · rw [inPlace] at referred
        contradiction
  case right =>
    cases found : elementType first rest with
    | error error => simp [sequence_cons, found, bind, Except.bind]
    | ok element => simpa using exists_error_sequence built agree fits found

/-- Of two structs, the second one knows the target of its reference. The common type is its type,
    which is stored in place. -/
theorem pointing_folds_agree :
    let first := pointing (.nullRef .null .w32)
    let second := pointing (.ref (.ofString "a") .w32)
    Ty.AgreeByName [first.type, second.type] ∧ elementType first [second] = .ok second.type ∧
      arrayOf second.type [first, second] (some 3) none =
        .ok (array second.type (some 3) 4 [first, second]) ∧
      ¬ ∃ error, sequence [first, second] (some 3) = .error error := by
  intro first second
  have text : (Value.ofString "a").Built :=
    .stringOf (show Value.stringOf "a" none true = _ from rfl)
  have built : ∀ item ∈ [first, second], item.Built := by
    simp only [List.mem_cons, List.not_mem_nil, or_false, forall_eq_or_imp, forall_eq]
    exact ⟨pointing_built (.nullRef .w32 .null) rfl, pointing_built (.refTo .w32 text) rfl⟩
  have agree : Ty.AgreeByName [first.type, second.type] := by decide +kernel
  have fits : Fits [first, second].length (some 3) := by
    rintro capacity ⟨⟩
    decide
  have found : elementType first [second] = .ok second.type := rfl
  have known : ∀ item ∈ [first, second], item.isNull = false := by
    simp [first, second, pointing, isNull]
  obtain ⟨each, failing⟩ := sequence_folds_agree built agree fits
  have narrow : ¬ second.type.TooWide := id
  refine ⟨agree, found, ((each _ found rfl).2 rfl known).1 narrow, ?_⟩
  rw [failing]
  rintro (⟨error, failed⟩ | ⟨element, again, ref | ⟨-, ⟨item, present, unknown⟩ | wide⟩⟩)
  · rw [found] at failed
    contradiction
  · rw [found] at again
    obtain rfl := Except.ok.inj again
    exact absurd ref (by decide)
  · rw [known item present] at unknown
    contradiction
  · rw [found] at again
    obtain rfl := Except.ok.inj again
    exact narrow wide

/-- One number in an array of numbers that has places for as many as take all addresses. -/
def wideValue : Value :=
  .array (.int .int32) (some 4611686018427387904) 4 [.int ⟨.int32, 1, by decide⟩]

/-- The array can be built, and a list of this one array has its type in common: it is stored in
    place, and no value is null. The program stops all the same. -/
theorem wideValue_stops :
    wideValue.Built ∧ Ty.AgreeByName [wideValue.type] ∧ Fits 1 none ∧
      elementType wideValue [] = .ok wideValue.type ∧ wideValue.type.isRef = false ∧
      wideValue.type.isInPlace = true ∧ wideValue.isNull = false ∧
      arrayOf wideValue.type [wideValue] none none = .error .overflow ∧
      sequence [wideValue] none = .error .overflow := by
  have built : wideValue.Built := by
    refine .arrayOf (.ofValue (.int ⟨.int32, 1, by decide⟩)) (fun item present => ?_)
      (show arrayOf (.int .int32) [.int ⟨.int32, 1, by decide⟩] (some 4611686018427387904) none =
        _ from rfl)
    obtain rfl := List.mem_singleton.mp present
    exact .int _
  have agree : Ty.AgreeByName [wideValue.type] := by decide +kernel
  exact ⟨built, agree, nofun, rfl, rfl, rfl, rfl, rfl, rfl⟩

end BinaryLayout.Value
