import BinaryLayout.Proofs.Calls
import BinaryLayout.Proofs.Catalogs

/-!
# Types stored in place have a size

Whether a value is stored in place and how many bytes it takes are two questions about its
type, answered by two recursions. On every type that can be obtained they agree, except that
the second one stops at a width that no word holds. A draft relies on it: a call that stores a
value in place because its type allows it never ends the layout, so no later call is refused
for it and the draft can be finalized.
-/

namespace BinaryLayout

/-- A fixed number of elements takes more bytes than there are addresses. -/
def Ty.TooWide : Ty → Prop
  | array element (some count) _ =>
      ∃ width, element.width = .ok width ∧ addressSpace ≤ count * width
  | refTable _ (some count) width => addressSpace ≤ count * width.bytes
  | _ => False

/-- A type is aligned, and its values are stored in place just when they have a width or are
    too wide for one. Asking for the width stops just for these. -/
structure Ty.Sized (type : Ty) : Prop where
  aligned : 1 ≤ type.align
  inPlace : type.isInPlace = true ↔ (∃ width, type.width = .ok width) ∨ type.TooWide
  stops : type.width = .error .overflow ↔ type.TooWide

/-- Types that are written down, read off values, merged in either way, taken apart, or
    collected from some roots. -/
inductive Ty.Obtained : Ty → Prop
  | built {type : Ty} (before : type.Built) : Obtained type
  | merge {a b type : Ty} (first : Obtained a) (second : Obtained b)
      (merged : a.merge b = .ok type) : Obtained type
  | mergeKnown {a b type : Ty} (first : Obtained a) (second : Obtained b)
      (merged : a.mergeKnown b = .ok type) : Obtained type
  | part {whole type : Ty} (before : Obtained whole) (inside : type ∈ whole.tree) : Obtained type
  | collected {roots : List Ty} {catalog : Catalog} {name : String} {type : Ty}
      (before : ∀ root ∈ roots, Obtained root) (collected : Catalog.collect roots = .ok catalog)
      (listed : catalog.get? name = some type) : Obtained type

section Types

variable {type : Ty}

/-- A catalog lists built types only. -/
def Catalog.ListsBuilt (catalog : Catalog) : Prop :=
  ∀ name type, catalog.get? name = some type → type.Built

/-- Adding a built type adds it or merges it with a built one. -/
theorem Catalog.ListsBuilt.insert {catalog next : Catalog} (built : catalog.ListsBuilt)
    (new : type.Built) (inserted : catalog.insert type = .ok next) : next.ListsBuilt := by
  obtain ⟨entry, origin, listed⟩ := Catalog.get?_insert inserted
  intro name found lookup
  rw [listed] at lookup
  split at lookup
  · obtain rfl := Option.some.inj lookup
    rcases origin with ⟨-, rfl⟩ | ⟨before, known, merged⟩
    · exact new
    · exact .merge (built _ before known) new merged
  · exact built name found lookup

/-- Collecting built types lists built types. -/
theorem Catalog.listsBuilt_of_collect {roots : List Ty} {catalog : Catalog}
    (built : ∀ root ∈ roots, root.Built) (collected : collect roots = .ok catalog) :
    catalog.ListsBuilt := by
  refine foldlM_invariant ListsBuilt collected (fun name type found => ?_)
    fun state type next present before inserted => ?_
  · rw [get?_empty] at found
    cases found
  · obtain ⟨root, listed, inside⟩ := List.mem_flatMap.mp present
    exact before.insert (.part (built root listed) inside) inserted

/-- Every type that can be obtained is built. -/
theorem Ty.Obtained.toBuilt (obtained : type.Obtained) : type.Built := by
  induction obtained with
  | built before => exact before
  | merge _ _ merged first second => exact .merge first second merged
  | mergeKnown _ _ merged first second => exact first.mergeKnown second merged
  | part _ inside whole => exact .part whole inside
  | collected _ collected listed before =>
    exact Catalog.listsBuilt_of_collect before collected _ _ listed

/-- A width is known just when asking for it succeeds. -/
theorem Ty.exists_width_iff : (∃ width, type.width = .ok width) ↔ type.width?.isSome := by
  simp only [Option.isSome_iff_exists, width?_eq_some]

/-- A well-formed type is stored in place when it has a width or is too wide for one, and only
    then, and its width stops the program when it is too wide. -/
theorem Ty.WellFormed.width_cases (sound : type.WellFormed) :
    (type.isInPlace = true ∧ (∃ width, type.width = .ok width) ∧ ¬ type.TooWide) ∨
      (type.isInPlace = true ∧ type.width = .error .overflow ∧ type.TooWide) ∨
      (type.isInPlace = false ∧ (∃ cause, type.width = refuse cause) ∧ ¬ type.TooWide) := by
  cases sound with
  | @array element align fixed _ _ sized _ =>
    obtain ⟨width, known⟩ := exists_width_iff.mpr sized
    cases fixed with
    | none => simp [isInPlace, Ty.width, arrayWidth, known, TooWide]
    | some count =>
      by_cases small : count * width < addressSpace
      · simp [isInPlace, Ty.width, arrayWidth, known, TooWide, checked, small]
      · simp [isInPlace, Ty.width, arrayWidth, known, TooWide, checked, small, Nat.le_of_not_lt small]
  | @refTable target fixed width _ _ =>
    cases fixed with
    | none => simp [isInPlace, Ty.width, TooWide]
    | some count =>
      by_cases small : count * width.bytes < addressSpace
      · simp [isInPlace, Ty.width, TooWide, checked, small]
      · simp [isInPlace, Ty.width, TooWide, checked, small, Nat.le_of_not_lt small]
  | @struct record =>
    cases size : record.size <;>
      simp [isInPlace, Record.isFinalized, Ty.width, TooWide, size]
  | _ => simp [isInPlace, Ty.width, TooWide]

/-- Well-formed types are sized. -/
theorem Ty.WellFormed.toSized (sound : type.WellFormed) (aligned : 1 ≤ type.align) :
    type.Sized := by
  rcases sound.width_cases with ⟨inPlace, ⟨width, known⟩, narrow⟩ | ⟨inPlace, stops, wide⟩ |
    ⟨referred, ⟨cause, refused⟩, narrow⟩
  · exact ⟨aligned, by simp [inPlace, known], by simp [known, narrow]⟩
  · exact ⟨aligned, by simp [inPlace, wide], by simp [stops, wide]⟩
  · exact ⟨aligned, by simp [referred, refused, refuse, narrow], by simp [refused, refuse, narrow]⟩

end Types

/-- No refusal of a member for standing behind a layout that has ended. -/
def Tailless {α : Type} (outcome : Except LayoutError α) : Prop :=
  ∀ owner name, outcome ≠ .error (.structural (.unsizedTail owner name))

namespace Tailless

variable {α β : Type}

theorem ok {result : α} : Tailless (.ok result) := by
  simp [Tailless]

theorem pure {result : α} : Tailless (Pure.pure result) :=
  ok

/-- Two steps that do not refuse a tail do not do so together. -/
theorem bind {first : Except LayoutError α} {next : α → Except LayoutError β}
    (here : Tailless first) (behind : ∀ result, Tailless (next result)) :
    Tailless (first >>= next) := by
  intro owner name refused
  rcases bind_eq_error.mp refused with early | ⟨result, -, late⟩
  · exact here owner name early
  · exact behind result owner name late

theorem map {first : Except LayoutError α} {image : α → β} (here : Tailless first) :
    Tailless (first.map image) := by
  cases first with
  | ok result => exact .ok
  | error refusal =>
    exact fun owner name refused => here owner name (by simpa [Except.map] using refused)

theorem foldlM {step : β → α → Except LayoutError β} {items : List α} {start : β}
    (each : ∀ state item, Tailless (step state item)) : Tailless (items.foldlM step start) := by
  induction items generalizing start with
  | nil => exact .pure
  | cons item rest ih =>
    rw [List.foldlM_cons]
    exact bind (each start item) fun next => ih

theorem conflict {a b : Ty} {detail : String} : Tailless (Ty.conflict a b detail) := by
  simp [Tailless, Ty.conflict]

/-- A refusal for another cause is none for a tail. -/
theorem refuse {cause : StructureError}
    (other : ∀ owner name, cause ≠ .unsizedTail owner name) :
    Tailless (BinaryLayout.refuse (α := α) cause) := by
  intro owner name refused
  exact other owner name (by simpa [BinaryLayout.refuse] using refused)

theorem ite {holds : Prop} [Decidable holds] {first second : Except LayoutError α}
    (here : Tailless first) (otherwise : Tailless second) :
    Tailless (if holds then first else second) := by
  split
  · exact here
  · exact otherwise

end Tailless

section Refusals

theorem Ty.tailless_refTableOf (target : Ty) (fixed : Option Nat) (width : RefWidth) :
    Tailless (Ty.refTableOf target fixed width) :=
  .ite (.refuse nofun) .ok

theorem Ty.tailless_known {merge : Ty → Except LayoutError Ty} {a b : Ty}
    (inner : Tailless (merge b)) : Tailless (known merge a b) :=
  .ite .ok (.ite .ok inner)

theorem Ty.tailless_mergeMembers {as bs : List (Member Ty)}
    (each : ∀ member ∈ as, ∀ b, Tailless (member.content.merge b)) :
    Tailless (mergeMembers as bs) := by
  induction as generalizing bs with
  | nil => exact .ok
  | cons member rest ih =>
    rw [List.forall_mem_cons] at each
    cases bs with
    | nil => exact .ok
    | cons b others =>
      exact .bind (.ite .ok (each.1 _)) fun _ => .bind (ih each.2) fun _ => .pure

/-- Types are never refused for a tail when they are merged. -/
theorem Ty.tailless_merge (a b : Ty) : Tailless (a.merge b) := by
  induction a using Ty.induction generalizing b with
  | ref target width ih =>
    cases b with
    | ref other width' => exact .ite .conflict (.map (tailless_known (ih other)))
    | _ => exact .conflict
  | array element fixed align ih =>
    cases b with
    | array other fixed' align' =>
      exact .ite .conflict (.ite .conflict (.map (.ite .ok (ih other))))
    | _ => exact .conflict
  | refTable target fixed width ih =>
    cases b with
    | refTable other fixed' width' =>
      exact .ite .conflict (.ite .conflict (.ite .ok
        (.bind (tailless_known (ih other)) fun _ => tailless_refTableOf _ _ _)))
    | _ => exact .conflict
  | bitField type =>
    cases b with
    | bitField other => exact .ite .conflict (.ite .conflict .ok)
    | _ => exact .conflict
  | struct record ih =>
    cases b with
    | struct other =>
      exact .ite .conflict (.ite .conflict (.ite .conflict
        (.map (tailless_mergeMembers ih))))
    | _ => exact .conflict
  | null =>
    cases b with
    | null => exact .ok
    | _ => exact .conflict
  | char =>
    cases b with
    | char => exact .ok
    | _ => exact .conflict
  | int kind =>
    cases b with
    | int other => exact .ite .ok .conflict
    | _ => exact .conflict
  | bitTable type =>
    cases b with
    | bitTable other => exact .ite .ok .conflict
    | _ => exact .conflict
  | enum type =>
    cases b with
    | enum other => exact .ite .ok .conflict
    | _ => exact .conflict

theorem tailless_overflow {α : Type} : Tailless (.error .overflow : Except LayoutError α) := by
  simp [Tailless]

theorem tailless_unsized {α : Type} (name : String) :
    Tailless (refuse (.unsizedType name) : Except LayoutError α) :=
  .refuse nofun

theorem tailless_checked (number : Nat) : Tailless (checked LayoutError.overflow number) :=
  .ite .ok tailless_overflow

theorem Ty.tailless_arrayWidth (name : String) (element : Except LayoutError Nat)
    (fixed : Option Nat) : Tailless (arrayWidth name element fixed) := by
  cases element with
  | ok width =>
    cases fixed with
    | none => exact tailless_unsized name
    | some count => exact tailless_checked _
  | error cause =>
    cases cause with
    | overflow => exact tailless_overflow
    | _ => exact tailless_unsized name

theorem Ty.tailless_width (type : Ty) : Tailless type.width := by
  cases type with
  | array element fixed align => exact tailless_arrayWidth _ _ fixed
  | refTable target fixed width =>
    cases fixed with
    | none => exact tailless_unsized _
    | some count => exact tailless_checked _
  | null => exact tailless_unsized _
  | bitTable type => exact tailless_unsized _
  | struct record =>
    obtain ⟨name, members, align, size, constants, enums⟩ := record
    cases size with
    | none => exact tailless_unsized _
    | some size => exact .ok
  | _ => exact .ok

theorem Ty.tailless_finish (type : Ty) (offset : Nat) : Tailless (type.finish offset) := by
  rw [finish]
  cases type.width with
  | ok width => exact .map (tailless_checked _)
  | error cause =>
    cases cause with
    | overflow => exact tailless_overflow
    | _ => exact .ok

theorem Ty.tailless_arrayAlign (element : Ty) (align : Option Nat) :
    Tailless (Ty.arrayAlign element align) := by
  refine .ite (.refuse nofun) (.bind element.tailless_width fun _ => ?_)
  cases align with
  | none => exact .pure
  | some requested => exact .ite .pure (.refuse nofun)

theorem tailless_checkCapacity (length : Nat) (fixed : Option Nat) :
    Tailless (checkCapacity length fixed) := by
  cases fixed with
  | none => exact .ok
  | some fixed => exact .ite (.refuse nofun) .ok

theorem Identifier.tailless_validate (name : String) : Tailless (validate name) := by
  unfold validate
  split
  · simp [Tailless]
  · exact .ok

namespace Value

theorem tailless_ofInt (kind : IntKind) (value : Int) : Tailless (ofInt kind value) := by
  refine .map ?_
  unfold Integer.ofInt
  split
  · exact .ok
  · simp [Tailless]

theorem tailless_ofChar (c : Char) : Tailless (ofChar c) :=
  .ite .ok (by simp [Tailless])

theorem tailless_stringOf (content : String) (fixed : Option Nat) (terminated : Bool) :
    Tailless (stringOf content fixed terminated) :=
  .map (.bind (tailless_checkCapacity _ _) fun _ => .pure)

theorem tailless_arrayOf (element : Ty) (items : List Value) (fixed align : Option Nat) :
    Tailless (arrayOf element items fixed align) :=
  .bind (tailless_checkCapacity _ _) fun _ =>
    .bind (.foldlM fun state item => state.tailless_merge item.type) fun _ =>
      .bind (Ty.tailless_arrayAlign _ _) fun _ => .pure

theorem tailless_refTableOf (items : List Value) (fixed : Option Nat) (width : RefWidth) :
    Tailless (refTableOf items fixed width) := by
  cases items with
  | nil => exact .refuse nofun
  | cons first rest =>
    exact .bind (tailless_checkCapacity _ _) fun _ =>
      .bind
        (.foldlM fun state item =>
          .ite (.refuse nofun) (Ty.tailless_known (Ty.tailless_merge _ _)))
        fun _ => .bind (Ty.tailless_refTableOf _ _ _) fun _ => .pure

theorem tailless_sequence (items : List Value) (fixed : Option Nat) :
    Tailless (sequence items fixed) := by
  cases items with
  | nil => exact .refuse nofun
  | cons first rest =>
    exact .bind (.foldlM fun state item => Ty.tailless_known (Ty.tailless_merge _ _)) fun _ =>
      .ite (.refuse nofun) (.ite (tailless_arrayOf _ _ _ _) (tailless_refTableOf _ _ _))

theorem tailless_toConstant (value : Value) : Tailless value.toConstant := by
  cases value <;> first | exact .ok | exact .refuse nofun

end Value

namespace Datum

mutual

theorem tailless_toValue : ∀ datum : Datum, Tailless datum.toValue
  | int _ => Value.tailless_ofInt _ _
  | text _ => .ok
  | null => .ok
  | list items => .bind (tailless_toValues items) fun _ => Value.tailless_sequence _ _
  | value _ => .ok

theorem tailless_toValues : ∀ items : List Datum, Tailless (toValues items)
  | [] => .ok
  | item :: rest => .bind (tailless_toValue item) fun _ =>
      .bind (tailless_toValues rest) fun _ => .pure

end

end Datum

namespace Constants

theorem tailless_add (constants : Constants) (name : String) (datum : Datum) :
    Tailless (constants.add name datum) :=
  .bind (.bind (Identifier.tailless_validate _) fun _ => .ite (.refuse nofun) .pure) fun _ =>
    .bind datum.tailless_toValue fun _ => .bind (Value.tailless_toConstant _) fun _ => .pure

theorem tailless_addAll (ignorePrivate : Bool) (constants : Constants)
    (items : List (String × Datum)) : Tailless (constants.addAll ignorePrivate items).1 := by
  induction items generalizing constants with
  | nil => exact .ok
  | cons item rest ih =>
    obtain ⟨name, datum⟩ := item
    unfold addAll
    split
    · exact ih constants
    · have here := constants.tailless_add name datum
      split
      · exact ih _
      · rename_i refusal same
        rw [same] at here
        exact fun owner name refused => here owner name (by simpa using refused)

end Constants

namespace Draft

theorem Call.tailless_entry (call : Call) : Tailless call.entry := by
  cases call with
  | add name datum => exact .bind datum.tailless_toValue fun _ => .pure
  | addInPlace name datum => exact .bind datum.tailless_toValue fun _ => .pure
  | addRef name datum width => exact .bind datum.tailless_toValue fun _ => .pure
  | addInt name kind value => exact .bind (Value.tailless_ofInt _ _) fun _ => .pure
  | addChar name c => exact .bind (Value.tailless_ofChar _) fun _ => .pure
  | addString name content fixed terminated width =>
    cases content with
    | none =>
      cases fixed with
      | none => exact .pure
      | some fixed => exact .refuse nofun
    | some content =>
      cases fixed with
      | none => exact .bind (Value.tailless_stringOf _ _ _) fun _ => .pure
      | some fixed => exact .bind (Value.tailless_stringOf _ _ _) fun _ => .pure
  | addArray name items fixed =>
    exact .bind (Datum.tailless_toValues _) fun _ =>
      .bind (Value.tailless_sequence _ _) fun _ => .pure
  | addRefTable name items fixed width =>
    exact .bind (Datum.tailless_toValues _) fun _ =>
      .bind (Value.tailless_refTableOf _ _ _) fun _ => .pure
  | addNullRef | addBlob | addConstant | addConstants | declareEnum => exact .pure

theorem Call.tailless_declared (constants : Constants) (enums : List Enumeration) (call : Call) :
    Tailless (call.declared constants enums) := by
  cases call with
  | addConstant name datum => exact .bind (constants.tailless_add _ _) fun _ => .pure
  | addConstants ignorePrivate items =>
    have all := constants.tailless_addAll ignorePrivate items
    simp only [Call.declared]
    split
    · exact .pure
    · rename_i refusal _ same
      rw [same] at all
      exact fun owner name refused => all owner name (by simpa using refused)
  | _ => exact .pure

/-- A draft whose end is known refuses no member for standing behind it. -/
theorem tailless_addInPlace {draft : Draft} {cursor : Nat} (known : draft.cursor = some cursor)
    (name : String) (value : Value) : Tailless (draft.addInPlace name value) := by
  refine .ite (.refuse nofun) (.ite (.refuse nofun) ?_)
  refine .bind (Identifier.tailless_validate _) fun _ => ?_
  rw [known]
  exact .bind (tailless_checked _) fun _ => .bind (Ty.tailless_finish _ _) fun _ => .pure

/-- A draft whose end is known refuses no call for a tail without a width. -/
theorem tailless_perform {draft : Draft} {cursor : Nat} (known : draft.cursor = some cursor)
    (call : Call) : Tailless (draft.perform call) := by
  rw [perform_eq]
  refine .bind call.tailless_entry fun entry => ?_
  cases entry with
  | some entry => exact tailless_addInPlace known _ _
  | none => exact .bind (call.tailless_declared _ _) fun _ => .pure

end Draft

end Refusals

namespace Draft

/-- A call other than the one that stores a value in place whatever its type is. -/
def Call.IsManaged : Call → Prop
  | addInPlace .. => False
  | _ => True

theorem isInPlace_refTo (value : Value) (width : RefWidth) :
    (value.refTo width).type.isInPlace = true := by
  unfold Value.refTo
  split <;> rfl

theorem Call.isInPlace_inPlace (value : Value) : (inPlace value).type.isInPlace = true := by
  unfold inPlace
  split
  · assumption
  · exact isInPlace_refTo value .w32

/-- A managed call stores in place what its type allows to, or a reference to it. -/
theorem Call.IsManaged.isInPlace_entry {call : Call} {name : String} {value : Value}
    (managed : call.IsManaged) (asked : call.entry = .ok (some (name, value))) :
    value.type.isInPlace = true := by
  cases call with
  | addInPlace _ datum => exact managed.elim
  | add _ datum =>
    obtain ⟨made, -, rfl⟩ := exists_of_entry asked
    exact isInPlace_inPlace made
  | addInt _ kind number =>
    obtain ⟨made, -, rfl⟩ := exists_of_entry asked
    exact isInPlace_inPlace made
  | addChar _ c =>
    obtain ⟨made, -, rfl⟩ := exists_of_entry asked
    exact isInPlace_inPlace made
  | addArray _ items fixed =>
    obtain ⟨values, -, asked⟩ := bind_eq_ok.mp asked
    obtain ⟨made, -, rfl⟩ := exists_of_entry asked
    exact isInPlace_inPlace made
  | addRefTable _ items fixed width =>
    obtain ⟨values, -, asked⟩ := bind_eq_ok.mp asked
    obtain ⟨made, -, rfl⟩ := exists_of_entry asked
    exact isInPlace_inPlace made
  | addRef _ datum width =>
    obtain ⟨made, -, rfl⟩ := exists_of_entry asked
    exact isInPlace_refTo made width
  | addBlob _ content width =>
    obtain ⟨-, rfl⟩ := Prod.mk.inj (Option.some.inj (Except.ok.inj asked))
    exact isInPlace_refTo _ width
  | addNullRef _ target width =>
    obtain ⟨-, rfl⟩ := Prod.mk.inj (Option.some.inj (Except.ok.inj asked))
    rfl
  | addString _ content fixed terminated width =>
    cases content with
    | none =>
      cases fixed with
      | none =>
        obtain ⟨-, rfl⟩ := Prod.mk.inj (Option.some.inj (Except.ok.inj asked))
        rfl
      | some fixed => contradiction
    | some content =>
      cases fixed with
      | none =>
        obtain ⟨made, -, rfl⟩ := exists_of_entry asked
        exact isInPlace_refTo made width
      | some fixed =>
        -- A text of fixed width has a fixed number of characters.
        obtain ⟨made, first, rfl⟩ := @exists_of_entry _ id _ _ _ asked
        obtain ⟨array, built, rfl⟩ := map_eq_ok.mp first
        obtain ⟨_, -, same⟩ := bind_eq_ok.mp built
        obtain rfl := Except.ok.inj same
        rfl
  | addConstant | addConstants | declareEnum => simp [Call.entry, pure, Except.pure] at asked

/-- A managed call keeps the end of a layout known. -/
theorem exists_cursor_of_perform {draft next : Draft} {call : Call} (built : call.Built)
    (managed : call.IsManaged) (known : ∃ cursor, draft.cursor = some cursor)
    (performed : draft.perform call = .ok next) : ∃ cursor, next.cursor = some cursor := by
  obtain ⟨name, value, asked, added⟩ | ⟨-, constants, enums, -, rfl⟩ := perform_eq_ok performed
  · obtain ⟨cursor, finish, -, ends, rfl⟩ := place_eq_ok (place_of_addInPlace added)
    obtain ⟨running, -, rfl⟩ := Ty.finish_eq_ok.mp ends
    have inPlace : value.type.isInPlace = true := managed.isInPlace_entry asked
    -- A member in place whose end is computed has a width.
    rcases (built.entry asked).sound.type.width_cases with ⟨-, ⟨width, sized⟩, -⟩ | ⟨-, stops, -⟩ |
      ⟨referred, -, -⟩
    · exact ⟨cursor + gap cursor value.type.align + width, by simp [Ty.width?_eq_some.mpr sized]⟩
    · exact absurd stops running
    · simp [inPlace] at referred
  · exact known

/-- Managed calls keep the end of a layout known. -/
theorem exists_cursor_of_performAll {name : String} {start draft : Draft} {calls : List Call}
    (built : ∀ call ∈ calls, call.Built) (managed : ∀ call ∈ calls, call.IsManaged)
    (declared : declare name = .ok start) (performed : start.performAll calls = .ok draft) :
    ∃ cursor, draft.cursor = some cursor := by
  refine performAll_invariant (fun state => ∃ cursor, state.cursor = some cursor) performed ?_
    fun state call next present known step =>
      exists_cursor_of_perform (built call present) (managed call present) known step
  obtain ⟨_, -, made⟩ := bind_eq_ok.mp declared
  obtain rfl := Except.ok.inj made
  exact ⟨0, rfl⟩

/-- A draft whose end is known is never refused for a lack of size when it is finalized. -/
theorem finalize_ne_unsized {draft : Draft} {cursor : Nat} (known : draft.cursor = some cursor)
    (align : Nat) (name : String) :
    draft.finalize align ≠ .error (.structural (.unsizedType name)) := by
  unfold finalize
  rw [known]
  split
  · simp [refuse]
  · cases cursor with
    | zero => simp [refuse]
    | succ cursor =>
      intro refused
      rcases bind_eq_error.mp refused with early | ⟨size, -, late⟩
      · simp at early
      · simp [pure, Except.pure] at late

end Draft
end BinaryLayout
