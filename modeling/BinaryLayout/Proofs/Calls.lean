import BinaryLayout.Proofs.Construction
import Mathlib.Data.List.Forall2

/-!
# Sequences of calls

A struct is made by a sequence of calls on a draft and by one last step that ends it.
Every call that succeeds either puts one named value behind the members or declares
constants and enumerations beside them, and which of the two it does is known from the
call alone. What the calls of a sequence store is therefore a list of names and values
that no draft is needed to state.
-/

namespace BinaryLayout

/-- Data in which every value is built. -/
inductive Datum.Built : Datum → Prop
  | int (value : Int64) : Built (.int value)
  | text (content : String) : Built (.text content)
  | null : Built .null
  | list {items : List Datum} (before : ∀ item ∈ items, Built item) : Built (.list items)
  | value {value : Value} (before : value.Built) : Built (.value value)

/-- Integers in range are built. -/
theorem Value.ofInt_built {kind : IntKind} {number : Int} {value : Value}
    (made : Value.ofInt kind number = .ok value) : value.Built := by
  obtain ⟨integer, -, rfl⟩ := map_eq_ok.mp made
  exact .int integer

/-- Characters in range are built. -/
theorem Value.ofChar_built {c : Char} {value : Value} (made : Value.ofChar c = .ok value) :
    value.Built := by
  rw [Value.ofChar] at made
  split at made
  · obtain rfl := Except.ok.inj made
    exact .char _
  · contradiction

/-- Blobs of variable length are built. -/
theorem Value.ofBlob_built (content : Blob) : (Value.ofBlob content).Built := by
  have made : Value.blobOf content none none = .ok (.ofBlob content) := rfl
  exact .blobOf made

namespace Datum

/-- The values of some data are the values of each. -/
theorem toValues_eq_ok {items : List Datum} {values : List Value} :
    toValues items = .ok values ↔
      List.Forall₂ (fun item value => item.toValue = .ok value) items values := by
  induction items generalizing values with
  | nil => simp [toValues, eq_comm]
  | cons item rest ih =>
    simp only [toValues, bind_eq_ok, pure, Except.pure, Except.ok.injEq, ih,
      List.forall₂_cons_left_iff]
    constructor
    · rintro ⟨first, here, others, behind, rfl⟩
      exact ⟨first, others, here, behind, rfl⟩
    · rintro ⟨first, others, here, behind, rfl⟩
      exact ⟨first, here, others, behind, rfl⟩

/-- Every value of some data is the value of one of them. -/
theorem exists_of_toValues {items : List Datum} {values : List Value}
    (made : toValues items = .ok values) :
    ∀ value ∈ values, ∃ item ∈ items, item.toValue = .ok value := by
  have related := toValues_eq_ok.mp made
  clear made
  induction related with
  | nil => simp
  | cons here _ ih =>
    refine List.forall_mem_cons.mpr ⟨⟨_, List.mem_cons_self, here⟩, fun value present => ?_⟩
    obtain ⟨item, inside, same⟩ := ih value present
    exact ⟨item, List.mem_cons_of_mem _ inside, same⟩

/-- The value of built data is built. -/
theorem Built.toValue {datum : Datum} {value : Value} (built : datum.Built)
    (made : datum.toValue = .ok value) : value.Built := by
  induction built generalizing value with
  | int number => exact Value.ofInt_built made
  | text content =>
    have text : Value.stringOf content none true = .ok (.ofString content) := rfl
    obtain rfl := Except.ok.inj made
    exact .stringOf text
  | null =>
    obtain rfl := Except.ok.inj made
    exact .null
  | list _ ih =>
    obtain ⟨values, items, made⟩ := bind_eq_ok.mp made
    refine Value.Built.sequence (fun value present => ?_) made
    obtain ⟨item, inside, same⟩ := exists_of_toValues items value present
    exact ih item inside same
  | value before =>
    obtain rfl := Except.ok.inj made
    exact before

/-- The values of built data are built. -/
theorem Built.toValues {items : List Datum} {values : List Value}
    (built : ∀ item ∈ items, item.Built) (made : Datum.toValues items = .ok values) :
    ∀ value ∈ values, value.Built := by
  intro value present
  obtain ⟨item, inside, same⟩ := exists_of_toValues made value present
  exact (built item inside).toValue same

end Datum

namespace Draft

/-- What a caller asks of a draft. -/
inductive Call where
  | add (name : String) (datum : Datum)
  | addInPlace (name : String) (datum : Datum)
  | addRef (name : String) (datum : Datum) (width : RefWidth)
  | addNullRef (name : String) (target : Ty) (width : RefWidth)
  | addInt (name : String) (kind : IntKind) (value : Int)
  | addChar (name : String) (c : Char)
  | addString (name : String) (content : Option String) (fixed : Option Nat)
      (terminated : Bool) (width : RefWidth)
  | addBlob (name : String) (content : Blob) (width : RefWidth)
  | addArray (name : String) (items : List Datum) (fixed : Option Nat)
  | addRefTable (name : String) (items : List Datum) (fixed : Option Nat) (width : RefWidth)
  | addConstant (name : String) (datum : Datum)
  | addConstants (ignorePrivate : Bool) (items : List (String × Datum))
  | declareEnum (enumeration : Enumeration)

namespace Call

/-- A call with built data, types and enumerations. -/
def Built : Call → Prop
  | add _ datum => datum.Built
  | addInPlace _ datum => datum.Built
  | addRef _ datum _ => datum.Built
  | addNullRef _ target _ => target.Built
  | addArray _ items _ => ∀ item ∈ items, item.Built
  | addRefTable _ items _ _ => ∀ item ∈ items, item.Built
  | declareEnum enumeration => enumeration.Declared
  | _ => True

/-- A value as it is added: in place where its type allows it, behind a reference
    otherwise. -/
def inPlace (value : Value) : Value :=
  if value.isInPlace then value else value.refTo .w32

/-- The member that a call asks for, by name and value, and none from a call that
    declares something beside the members. -/
def entry : Call → Except LayoutError (Option (String × Value))
  | add name datum => do return some (name, inPlace (← datum.toValue))
  | addInPlace name datum => do return some (name, ← datum.toValue)
  | addRef name datum width => do return some (name, (← datum.toValue).refTo width)
  | addNullRef name target width => return some (name, .nullRef target width)
  | addInt name kind value => do return some (name, inPlace (← Value.ofInt kind value))
  | addChar name c => do return some (name, inPlace (← Value.ofChar c))
  | addString _ none (some _) _ _ => refuse .fixedNullString
  | addString name none none _ width => return some (name, .nullRef .charArray width)
  | addString name (some content) (some fixed) terminated _ => do
      return some (name, ← Value.stringOf content (some fixed) terminated)
  | addString name (some content) none terminated width => do
      return some (name, (← Value.stringOf content none terminated).refTo width)
  | addBlob name content width => return some (name, (Value.ofBlob content).refTo width)
  | addArray name items fixed => do
      return some (name, inPlace (← Value.sequence (← Datum.toValues items) fixed))
  | addRefTable name items fixed width => do
      return some (name, inPlace (← Value.refTableOf (← Datum.toValues items) fixed width))
  | addConstant .. => return none
  | addConstants .. => return none
  | declareEnum _ => return none

/-- The constants and enumerations of a draft behind a call. -/
def declared (constants : Constants) (enums : List Enumeration) :
    Call → Except LayoutError (Constants × List Enumeration)
  | addConstant name datum => do return (← constants.add name datum, enums)
  | addConstants ignorePrivate items =>
      match constants.addAll ignorePrivate items with
      | (.ok (), added) => return (added, enums)
      | (.error refusal, _) => .error refusal
  | declareEnum enumeration => return (constants, enums ++ [enumeration])
  | _ => return (constants, enums)

/-- The member that a call asks for, where its value can be made. -/
def entry? (call : Call) : Option (String × Value) :=
  match call.entry with
  | .ok entry => entry
  | .error _ => none

end Call

/-- Carry out a call. -/
def perform (draft : Draft) : Call → Except LayoutError Draft
  | .add name datum => do draft.add name (← datum.toValue)
  | .addInPlace name datum => do draft.addInPlace name (← datum.toValue)
  | .addRef name datum width => do draft.addRef name (← datum.toValue) width
  | .addNullRef name target width => draft.addNullRef name target width
  | .addInt name kind value => draft.addInt name kind value
  | .addChar name c => draft.addChar name c
  | .addString name content fixed terminated width =>
      draft.addString name content fixed terminated width
  | .addBlob name content width => draft.addBlob name content width
  | .addArray name items fixed => draft.addArray name items fixed
  | .addRefTable name items fixed width => draft.addRefTable name items fixed width
  | .addConstant name datum => draft.addConstant name datum
  | .addConstants ignorePrivate items => draft.addConstants ignorePrivate items
  | .declareEnum enumeration => return draft.declareEnum enumeration

/-- Carry out calls one after another; the first refusal is reported. -/
def performAll (draft : Draft) (calls : List Call) : Except LayoutError Draft :=
  calls.foldlM perform draft

/-- How a draft becomes a struct. -/
inductive Ending where
  | openRecord
  | finalize (align : Nat)

/-- End a draft. -/
def finish (draft : Draft) : Ending → Except LayoutError Value
  | .openRecord => .ok draft.openRecord
  | .finalize align => draft.finalize align

/-- The struct that a sequence of calls makes. -/
def make (name : String) (calls : List Call) (ending : Ending) : Except LayoutError Value := do
  (← (← declare name).performAll calls).finish ending

/-- Adding a value stores it in place or behind a reference. -/
theorem add_eq (draft : Draft) (name : String) (value : Value) :
    draft.add name value = draft.addInPlace name (Call.inPlace value) := by
  rw [Draft.add, Call.inPlace]
  split
  · rfl
  · rfl

/-- A call either puts the member that it asks for behind the others, or changes nothing
    but what is declared beside them. -/
theorem perform_eq (draft : Draft) (call : Call) :
    draft.perform call = do
      match ← call.entry with
      | some (name, value) => draft.addInPlace name value
      | none =>
          let (constants, enums) ← call.declared draft.constants draft.enums
          return { draft with constants, enums } := by
  cases call with
  | addString name content fixed terminated width =>
    cases content with
    | none => cases fixed <;> rfl
    | some content =>
      cases fixed <;> simp [perform, addString, addRef, Call.entry]
  | addConstants ignorePrivate items =>
    simp only [perform, addConstants, Call.entry, Call.declared]
    cases draft.constants.addAll ignorePrivate items with
    | mk outcome constants => cases outcome <;> rfl
  | _ => simp [perform, Call.entry, Call.declared, add_eq, addInt, addChar, addArray,
      addRefTable, addRef, addNullRef, addBlob, addConstant, declareEnum]

/-- What a call that succeeds has done. -/
theorem perform_eq_ok {draft next : Draft} {call : Call}
    (performed : draft.perform call = .ok next) :
    (∃ name value, call.entry = .ok (some (name, value)) ∧
      draft.addInPlace name value = .ok next) ∨
    (call.entry = .ok none ∧ ∃ constants enums,
      call.declared draft.constants draft.enums = .ok (constants, enums) ∧
      next = { draft with constants, enums }) := by
  rw [perform_eq] at performed
  obtain ⟨entry, asked, performed⟩ := bind_eq_ok.mp performed
  cases entry with
  | some entry => exact .inl ⟨entry.1, entry.2, asked, performed⟩
  | none =>
    obtain ⟨⟨constants, enums⟩, declared, performed⟩ := bind_eq_ok.mp performed
    exact .inr ⟨asked, constants, enums, declared, (Except.ok.inj performed).symm⟩

/-- What the calls that succeed one after another preserve is preserved by all of them. -/
theorem performAll_invariant (kept : Draft → Prop) {start draft : Draft} {calls : List Call}
    (performed : start.performAll calls = .ok draft) (initial : kept start)
    (preserved : ∀ draft call next, call ∈ calls → kept draft →
      draft.perform call = .ok next → kept next) : kept draft :=
  foldlM_invariant kept performed initial preserved

namespace Call

/-- Values keep being built when they are put behind a reference. -/
theorem inPlace_built {value : Value} (built : value.Built) : (inPlace value).Built := by
  rw [inPlace]
  split
  · exact built
  · exact .refTo _ built

/-- The value of an entry that is made in one step. -/
theorem exists_of_entry {make : Except LayoutError Value} {image : Value → Value}
    {given name : String} {value : Value}
    (asked : (do return some (given, image (← make))) = Except.ok (some (name, value))) :
    ∃ made, make = .ok made ∧ image made = value := by
  obtain ⟨made, first, same⟩ := bind_eq_ok.mp asked
  simp only [pure, Except.pure, Except.ok.injEq, Option.some.injEq, Prod.mk.injEq] at same
  exact ⟨made, first, same.2⟩

/-- The value that a built call asks for is built. -/
theorem Built.entry {call : Call} {name : String} {value : Value} (built : call.Built)
    (asked : call.entry = .ok (some (name, value))) : value.Built := by
  cases call with
  | add _ datum =>
    obtain ⟨made, first, rfl⟩ := exists_of_entry asked
    exact inPlace_built (Datum.Built.toValue built first)
  | addInPlace _ datum =>
    obtain ⟨made, first, rfl⟩ := @exists_of_entry _ id _ _ _ asked
    exact Datum.Built.toValue built first
  | addRef _ datum width =>
    obtain ⟨made, first, rfl⟩ := exists_of_entry asked
    exact .refTo width (Datum.Built.toValue built first)
  | addNullRef _ target width =>
    obtain ⟨-, rfl⟩ := Prod.mk.inj (Option.some.inj (Except.ok.inj asked))
    exact .nullRef width built
  | addInt _ kind number =>
    obtain ⟨made, first, rfl⟩ := exists_of_entry asked
    exact inPlace_built (Value.ofInt_built first)
  | addChar _ c =>
    obtain ⟨made, first, rfl⟩ := exists_of_entry asked
    exact inPlace_built (Value.ofChar_built first)
  | addString _ content fixed terminated width =>
    cases content with
    | none =>
      cases fixed with
      | none =>
        have array : Ty.arrayOf .char none none = .ok .charArray := rfl
        obtain ⟨-, rfl⟩ := Prod.mk.inj (Option.some.inj (Except.ok.inj asked))
        exact .nullRef width (.arrayOf .char array)
      | some fixed => contradiction
    | some content =>
      cases fixed with
      | none =>
        obtain ⟨made, first, rfl⟩ := exists_of_entry asked
        exact .refTo width (.stringOf first)
      | some fixed =>
        obtain ⟨made, first, rfl⟩ := @exists_of_entry _ id _ _ _ asked
        exact .stringOf first
  | addBlob _ content width =>
    obtain ⟨-, rfl⟩ := Prod.mk.inj (Option.some.inj (Except.ok.inj asked))
    exact .refTo width (Value.ofBlob_built content)
  | addArray _ items fixed =>
    obtain ⟨values, listed, asked⟩ := bind_eq_ok.mp asked
    obtain ⟨made, first, rfl⟩ := exists_of_entry asked
    exact inPlace_built (.sequence (Datum.Built.toValues built listed) first)
  | addRefTable _ items fixed width =>
    obtain ⟨values, listed, asked⟩ := bind_eq_ok.mp asked
    obtain ⟨made, first, rfl⟩ := exists_of_entry asked
    exact inPlace_built (.refTableOf (Datum.Built.toValues built listed) first)
  | addConstant | addConstants | declareEnum => simp [Call.entry, pure, Except.pure] at asked

end Call

/-- A built call keeps a draft built. -/
theorem Built.perform {draft next : Draft} {call : Call} (before : draft.Built)
    (built : call.Built) (performed : draft.perform call = .ok next) : next.Built := by
  obtain ⟨name, value, asked, added⟩ | ⟨-, constants, enums, declared, rfl⟩ :=
    perform_eq_ok performed
  · exact .addInPlace before (built.entry asked) added
  · cases call with
    | addConstant name datum => exact .addConstant before performed
    | addConstants ignorePrivate items => exact .addConstants before performed
    | declareEnum enumeration =>
      obtain ⟨rfl, rfl⟩ := Prod.mk.inj (Except.ok.inj declared)
      exact .declareEnum before built
    | _ =>
      obtain ⟨rfl, rfl⟩ := Prod.mk.inj (Except.ok.inj declared)
      exact before

/-- Built calls make built drafts. -/
theorem performAll_built {name : String} {start draft : Draft} {calls : List Call}
    (built : ∀ call ∈ calls, call.Built) (declared : declare name = .ok start)
    (performed : start.performAll calls = .ok draft) : draft.Built :=
  performAll_invariant Built performed (.declare declared)
    fun _ call _ present before step => before.perform (built call present) step

/-- Built calls make built structs. -/
theorem make_built {name : String} {calls : List Call} {ending : Ending} {value : Value}
    (built : ∀ call ∈ calls, call.Built) (made : make name calls ending = .ok value) :
    value.Built := by
  obtain ⟨start, declared, made⟩ := bind_eq_ok.mp made
  obtain ⟨draft, performed, made⟩ := bind_eq_ok.mp made
  have before := performAll_built built declared performed
  cases ending with
  | openRecord =>
    obtain rfl := Except.ok.inj made
    exact .openRecord before
  | finalize align => exact .finalize before made

end Draft
end BinaryLayout
