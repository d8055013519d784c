import BinaryLayout.Proofs.Calls
import BinaryLayout.Proofs.Literals
import Mathlib.Data.List.Nodup

/-!
# Pools of constants

A pool is changed in place, one call after another, and a call may be refused half-way. Here it
is kept as it is declared: values under names, each of which is asked for its literal again when
the pool is written down. Nothing in such a pool says that a name is there once or that a value
has a literal; both follow from what every call checks before it adds.

Each call does to the values what it does to the constants that they are read as, so the two runs
never part. On the constants a refusal has nothing to undo, and what has been added has a literal.
-/

namespace BinaryLayout

namespace Value

/-- The literal of a value, for those that have one. -/
def literal (value : Value) : Except LayoutError String :=
  value.toConstant.map Constant.literal

/-- What the literal of a value is to denote. -/
def denotation? : Value → Option Literal.Denotation
  | int integer => some (.int integer.value)
  | char byte => some (.char byte)
  | text content => some (.text content.text.toUTF8.data.toList)
  | enum chosen => some (.member chosen.enumeration.name chosen.name)
  | _ => none

/-- Only values with a literal are read as constants, and they are the values of these. -/
theorem toConstant_eq_ok {value : Value} {constant : Constant} :
    value.toConstant = .ok constant ↔ value = .ofConstant constant := by
  constructor
  · intro denoted
    cases value <;> first | contradiction | (obtain rfl := Except.ok.inj denoted; rfl)
  · rintro rfl
    cases constant <;> rfl

/-- The names in a built constant have been checked. -/
theorem Built.nameable {constant : Constant} (built : (ofConstant constant).Built) :
    constant.Nameable := by
  cases constant with
  | member chosen =>
    have declared : chosen.enumeration.Declared := built.certified
    exact ⟨declared.sound.1, (declared.sound.2 _ chosen.declared).1⟩
  | _ => trivial

end Value

/-- A 32-bit number is in the range of its kind. -/
theorem IntKind.contains_int32 (number : Int32) : IntKind.int32.contains number.toInt = true := by
  have least := number.le_toInt
  have greatest := number.toInt_lt
  rw [IntKind.contains, Bool.and_eq_true, decide_eq_true_eq, decide_eq_true_eq]
  change -2147483648 ≤ number.toInt ∧ number.toInt ≤ 2147483647
  omega

/-- Named values in the order in which they were added. -/
structure ConstantPool where
  constants : List (String × Value)

namespace ConstantPool

/-- No constants. -/
def empty : ConstantPool := ⟨[]⟩

/-- The names in order. -/
def names (pool : ConstantPool) : List String :=
  pool.constants.map (·.1)

/-- Look a value up by name. -/
def get? (pool : ConstantPool) (name : String) : Option Value :=
  (pool.constants.find? (·.1 = name)).map (·.2)

/-- Steps on a pool. A refusal ends them and leaves the pool as the steps before it did. -/
abbrev Action (α : Type) := ExceptT LayoutError (StateM ConstantPool) α

/-- What steps come to, and the pool that they leave. -/
def Action.outcome {α : Type} (action : Action α) (pool : ConstantPool) :
    Except LayoutError α × ConstantPool :=
  action.run.run pool

/-- Add a constant. The value must have a literal form and the name must be new. -/
def add (name : String) (datum : Datum) : Action Unit := do
  Identifier.validate name
  let pool ← get
  if (pool.get? name).isSome then
    throw (.structural (.duplicateConstant name))
  else
    let value ← datum.toValue
    let _ ← value.literal
    set (ConstantPool.mk (pool.constants ++ [(name, value)]))

/-- Add a 32-bit number. -/
def addInt32 (name : String) (number : Int32) : Action Unit :=
  add name (.value (.int ⟨.int32, number.toInt, IntKind.contains_int32 number⟩))

/-- Add a character. It is judged before the name. -/
def addChar (name : String) (c : Char) : Action Unit := do
  let value ← Value.ofChar c
  add name (.value value)

/-- Add constants in order, on demand without those whose name starts with an underscore. -/
def extend (items : List (String × Datum)) (ignorePrivate : Bool) : Action Unit :=
  forM items fun (name, datum) =>
    unless ignorePrivate && name.toList.head? = some '_' do
      add name datum

/-- Declared type, name and literal of a value. Arrays show their brackets. -/
def declaration (name : String) (value : Value) :
    Except LayoutError (String × String × String) := do
  let declared :=
    match value.type with
    | .array _ (some fixed) _ => value.type.name ++ s!"[{fixed}]"
    | .array _ none _ => value.type.name ++ "[]"
    | _ => value.type.name
  return (declared, name, ← value.literal)

/-- Declarations of all constants. -/
def declarations (pool : ConstantPool) : Except LayoutError (List (String × String × String)) :=
  pool.constants.mapM fun (name, value) => declaration name value

/-- What a caller asks of a pool. -/
inductive Call where
  | add (name : String) (datum : Datum)
  | addInt32 (name : String) (number : Int32)
  | addChar (name : String) (c : Char)
  | extend (items : List (String × Datum)) (ignorePrivate : Bool)

/-- Do what is asked. -/
def perform : Call → Action Unit
  | .add name datum => add name datum
  | .addInt32 name number => addInt32 name number
  | .addChar name c => addChar name c
  | .extend items ignorePrivate => extend items ignorePrivate

/-- The answers to calls, refused or not, and the pool behind them. -/
def run : List Call → ConstantPool → List (Except LayoutError Unit) × ConstantPool
  | [], pool => ([], pool)
  | call :: rest, pool =>
      let (answer, next) := (perform call).outcome pool
      let (answers, last) := run rest next
      (answer :: answers, last)

namespace Call

/-- All values that are brought along can be built. -/
def Built : Call → Prop
  | add _ datum => datum.Built
  | extend items _ => ∀ item ∈ items, item.2.Built
  | _ => True

/-- One constant is asked for, not many. -/
def isSingle : Call → Bool
  | extend .. => false
  | _ => true

/-- What a call brings along, in order. A value may be refused before it is one. -/
def items : Call → List (String × Except LayoutError Value)
  | add name datum => [(name, datum.toValue)]
  | addInt32 name number => [(name, Value.ofInt .int32 number.toInt)]
  | addChar name c => [(name, Value.ofChar c)]
  | extend items ignorePrivate =>
      (items.filter fun item => !(ignorePrivate && item.1.toList.head? = some '_')).map
        fun item => (item.1, item.2.toValue)

end Call

/-- Items are added in order up to one that is refused; without a refusal all of them are. -/
inductive Adds : List (String × Except LayoutError Value) → Except LayoutError Unit →
    List (String × Value) → Prop
  | done : Adds [] (.ok ()) []
  | added {name : String} {value : Value} {rest : List (String × Except LayoutError Value)}
      {answer : Except LayoutError Unit} {more : List (String × Value)}
      (later : Adds rest answer more) :
      Adds ((name, .ok value) :: rest) answer ((name, value) :: more)
  | refused {item : String × Except LayoutError Value}
      {rest : List (String × Except LayoutError Value)} (refusal : LayoutError) :
      Adds (item :: rest) (.error refusal) []

/-- Calls with these answers add their items one behind the other. -/
inductive Fills : List Call → List (Except LayoutError Unit) → List (String × Value) → Prop
  | done : Fills [] [] []
  | call {call : Call} {rest : List Call} {answer : Except LayoutError Unit}
      {answers : List (Except LayoutError Unit)} {added more : List (String × Value)}
      (here : Adds call.items answer added) (later : Fills rest answers more) :
      Fills (call :: rest) (answer :: answers) (added ++ more)

end ConstantPool

namespace Constants

/-- The values of some constants. -/
def pool (constants : Constants) : ConstantPool :=
  ⟨constants.entries.map fun (name, constant) => (name, .ofConstant constant)⟩

/-- Go on with what a step made, unless the step was refused. -/
def attempt (constants : Constants) (made : Except LayoutError Constants) :
    Except LayoutError Unit × Constants :=
  match made with
  | .ok next => (.ok (), next)
  | .error refusal => (.error refusal, constants)

/-- Do on constants what is asked of a pool. -/
def perform (constants : Constants) : ConstantPool.Call → Except LayoutError Unit × Constants
  | .add name datum => constants.attempt (constants.add name datum)
  | .addInt32 name number => constants.attempt do
      constants.add name (.value (← Value.ofInt .int32 number.toInt))
  | .addChar name c => constants.attempt do
      constants.add name (.value (← Value.ofChar c))
  | .extend items ignorePrivate => constants.addAll ignorePrivate items

/-- The answers to calls, refused or not, and the constants behind them. -/
def run : List ConstantPool.Call → Constants → List (Except LayoutError Unit) × Constants
  | [], constants => ([], constants)
  | call :: rest, constants =>
      let (answer, next) := constants.perform call
      let (answers, last) := run rest next
      (answer :: answers, last)

end Constants

namespace ConstantPool

section Steps

variable {α β : Type} {pool : ConstantPool}

theorem outcome_lift (checked : Except LayoutError α) :
    Action.outcome (liftM checked) pool = (checked, pool) := rfl

/-- A refusal ends a sequence of steps, and the pool stays as it is there. -/
theorem outcome_bind (first : Action α) (next : α → Action β) :
    Action.outcome (first >>= next) pool =
      match first.outcome pool with
      | (.ok result, middle) => (next result).outcome middle
      | (.error refusal, middle) => (.error refusal, middle) := by
  rcases done : first.outcome pool with ⟨answer, middle⟩
  have ran : first.run.run pool = (answer, middle) := done
  simp only [Action.outcome, ExceptT.run_bind, StateT.run_bind, ran]
  cases answer <;> rfl

end Steps

section Simulation

theorem pool_append (constants : Constants) (name : String) (constant : Constant) :
    (constants.append name constant).pool.constants =
      constants.pool.constants ++ [(name, .ofConstant constant)] := by
  simp [Constants.append, Constants.pool]

theorem isSome_get?_pool (constants : Constants) (name : String) :
    (constants.pool.get? name).isSome = constants.entries.any (·.1 = name) := by
  rw [get?, Constants.pool, List.find?_map, Option.map_map, Option.isSome_map,
    Bool.eq_iff_iff, List.find?_isSome, List.any_eq_true]
  rfl

/-- Steps on a pool do to the values of constants what is done to the constants. -/
def Follows (action : Action Unit)
    (step : Constants → Except LayoutError Unit × Constants) : Prop :=
  ∀ constants, action.outcome constants.pool = ((step constants).1, (step constants).2.pool)

theorem add_follows (name : String) (datum : Datum) :
    Follows (add name datum) fun constants => constants.attempt (constants.add name datum) := by
  intro constants
  simp only [add, Constants.add, Constants.checkName, outcome_bind, outcome_lift]
  cases valid : Identifier.validate name with
  | error refusal => rfl
  | ok _ =>
    have current : (get : Action ConstantPool).outcome constants.pool =
      (.ok constants.pool, constants.pool) := rfl
    simp only [current, isSome_get?_pool]
    by_cases taken : constants.entries.any (·.1 = name)
    · simp only [if_pos taken]
      rfl
    · simp only [if_neg taken, outcome_bind, outcome_lift]
      cases made : datum.toValue with
      | error refusal => rfl
      | ok value =>
        simp only [Value.literal]
        cases denoted : value.toConstant with
        | error refusal =>
          simp [Except.map, Constants.attempt, bind, Except.bind, pure, Except.pure, denoted]
        | ok constant =>
          have grown : (constants.append name constant).pool =
              ConstantPool.mk (constants.pool.constants ++ [(name, value)]) := by
            rw [Value.toConstant_eq_ok.mp denoted, ← pool_append]
          simp only [Except.map, Constants.attempt, bind, Except.bind, pure, Except.pure, denoted,
            grown]
          rfl

theorem addChar_follows (name : String) (c : Char) :
    Follows (addChar name c) fun constants => constants.perform (.addChar name c) := by
  intro constants
  simp only [addChar, Constants.perform, outcome_bind, outcome_lift]
  cases Value.ofChar c with
  | error refusal => rfl
  | ok value => exact add_follows name (.value value) constants

theorem addInt32_follows (name : String) (number : Int32) :
    Follows (addInt32 name number) fun constants => constants.perform (.addInt32 name number) := by
  intro constants
  have made : Value.ofInt .int32 number.toInt =
      .ok (.int ⟨.int32, number.toInt, IntKind.contains_int32 number⟩) := by
    rw [Value.ofInt, Integer.ofInt, dif_pos (IntKind.contains_int32 number)]
    rfl
  simp only [Constants.perform, made]
  exact add_follows name _ constants

theorem extend_follows (items : List (String × Datum)) (ignorePrivate : Bool) :
    Follows (extend items ignorePrivate) fun constants => constants.addAll ignorePrivate items := by
  intro constants
  rw [extend]
  induction items generalizing constants with
  | nil => rfl
  | cons item rest ih =>
    obtain ⟨name, datum⟩ := item
    rw [List.forM_cons, outcome_bind]
    by_cases skipped : ignorePrivate && name.toList.head? = some '_'
    · simp only [if_pos skipped, Constants.addAll]
      exact ih constants
    · simp only [if_neg skipped, Constants.addAll, add_follows name datum constants]
      cases constants.add name datum with
      | error refusal => rfl
      | ok next => exact ih next

/-- Whatever is asked of a pool is done to the constants as well. -/
theorem perform_follows (call : Call) : Follows (perform call) fun constants =>
    constants.perform call := by
  cases call with
  | add name datum => exact add_follows name datum
  | addInt32 name number => exact addInt32_follows name number
  | addChar name c => exact addChar_follows name c
  | extend items ignorePrivate => exact extend_follows items ignorePrivate

/-- Two runs of the same calls give the same answers and end alike. -/
theorem run_follows (calls : List Call) (constants : Constants) :
    run calls constants.pool = ((constants.run calls).1, (constants.run calls).2.pool) := by
  induction calls generalizing constants with
  | nil => rfl
  | cons call rest ih =>
    simp only [run, Constants.run, perform_follows call constants, ih]

end Simulation
end ConstantPool

namespace Constants

variable {constants next : Constants} {name : String} {datum : Datum}

/-- What every call leaves true of constants. -/
structure Sound (constants : Constants) : Prop where
  valid : ∀ name ∈ constants.names, Identifier.Declarable name
  distinct : constants.names.Nodup
  nameable : ∀ entry ∈ constants.entries, entry.2.Nameable

/-- A constant is added behind the others under a name that is valid and new, and it is what its
    datum is the value of. -/
theorem add_eq_ok : constants.add name datum = .ok next ↔
    Identifier.Declarable name ∧ name ∉ constants.names ∧
      ∃ constant, datum.toValue = .ok (.ofConstant constant) ∧
        next = constants.append name constant := by
  have fresh : name ∉ constants.names ↔ ¬constants.entries.any (·.1 = name) := by
    simp [names]
  simp only [add, checkName, bind_eq_ok, Value.toConstant_eq_ok, pure, Except.pure,
    Except.ok.injEq, fresh]
  constructor
  · rintro ⟨_, ⟨_, declarable, unused⟩, value, made, constant, rfl, rfl⟩
    split at unused
    · contradiction
    · exact ⟨declarable, ‹_›, constant, made, rfl⟩
  · rintro ⟨declarable, unused, constant, made, rfl⟩
    exact ⟨(), ⟨(), declarable, if_neg unused⟩, _, made, constant, rfl, rfl⟩

theorem Sound.empty : Constants.empty.Sound :=
  ⟨by simp [Constants.empty, names], by simp [Constants.empty, names], by simp [Constants.empty]⟩

/-- Adding a constant keeps what is true of those before it. -/
theorem Sound.add (sound : constants.Sound) (built : datum.Built)
    (added : constants.add name datum = .ok next) : next.Sound := by
  obtain ⟨declarable, fresh, constant, made, rfl⟩ := add_eq_ok.mp added
  have named : (constants.append name constant).names = constants.names ++ [name] := by
    simp [append, names]
  have itself : constant.Nameable := (built.toValue made).nameable
  constructor
  · rw [named, List.forall_mem_append, List.forall_mem_singleton]
    exact ⟨sound.valid, declarable⟩
  · rw [named, ← List.concat_eq_append]
    exact List.Nodup.concat fresh sound.distinct
  · rw [append, List.forall_mem_append, List.forall_mem_singleton]
    exact ⟨sound.nameable, itself⟩

/-- So does adding many, wherever that ends. -/
theorem Sound.addAll {items : List (String × Datum)} {ignorePrivate : Bool}
    (sound : constants.Sound) (built : ∀ item ∈ items, item.2.Built) :
    (constants.addAll ignorePrivate items).2.Sound := by
  induction items generalizing constants with
  | nil => exact sound
  | cons item rest ih =>
    obtain ⟨name, datum⟩ := item
    obtain ⟨itself, others⟩ := List.forall_mem_cons.mp built
    rw [Constants.addAll]
    split
    · exact ih sound others
    · cases added : constants.add name datum with
      | ok next => exact ih (sound.add itself added) others
      | error refusal => exact sound

/-- A refused step has nothing to undo. -/
theorem Sound.attempt {made : Except LayoutError Constants} (sound : constants.Sound)
    (kept : ∀ next, made = .ok next → next.Sound) : (constants.attempt made).2.Sound := by
  cases made with
  | ok next => exact kept next rfl
  | error refusal => exact sound

/-- Every call keeps what is true of the constants. -/
theorem Sound.perform {call : ConstantPool.Call} (sound : constants.Sound) (built : call.Built) :
    (constants.perform call).2.Sound := by
  cases call with
  | add name datum => exact sound.attempt fun next added => sound.add built added
  | addInt32 name number =>
    apply sound.attempt
    intro next added
    obtain ⟨value, made, added⟩ := bind_eq_ok.mp added
    exact sound.add (.value (Value.ofInt_built made)) added
  | addChar name c =>
    apply sound.attempt
    intro next added
    obtain ⟨value, made, added⟩ := bind_eq_ok.mp added
    exact sound.add (.value (Value.ofChar_built made)) added
  | extend items ignorePrivate => exact sound.addAll built

/-- A run of calls keeps it, whatever the answers. -/
theorem Sound.run {calls : List ConstantPool.Call} (sound : constants.Sound)
    (built : ∀ call ∈ calls, call.Built) : (constants.run calls).2.Sound := by
  induction calls generalizing constants with
  | nil => exact sound
  | cons call rest ih =>
    obtain ⟨itself, others⟩ := List.forall_mem_cons.mp built
    exact ih (sound.perform itself) others

end Constants

namespace ConstantPool

section Order

/-- One constant is added behind the others, or none. -/
theorem attempt_adds (constants : Constants) (name : String) (datum : Datum) :
    ∃ added, Adds [(name, datum.toValue)] (constants.attempt (constants.add name datum)).1 added ∧
      (constants.attempt (constants.add name datum)).2.pool.constants =
        constants.pool.constants ++ added := by
  cases done : constants.add name datum with
  | error refusal => exact ⟨[], .refused refusal, (List.append_nil _).symm⟩
  | ok next =>
    obtain ⟨-, -, constant, made, rfl⟩ := Constants.add_eq_ok.mp done
    rw [made]
    exact ⟨[(name, .ofConstant constant)], .added .done, pool_append constants name constant⟩

/-- Of many constants those in front of the first refusal are added. -/
theorem addAll_adds (items : List (String × Datum)) (ignorePrivate : Bool) (constants : Constants) :
    ∃ added, Adds (Call.extend items ignorePrivate).items (constants.addAll ignorePrivate items).1
        added ∧
      (constants.addAll ignorePrivate items).2.pool.constants =
        constants.pool.constants ++ added := by
  induction items generalizing constants with
  | nil => exact ⟨[], .done, (List.append_nil _).symm⟩
  | cons item rest ih =>
    obtain ⟨name, datum⟩ := item
    rw [Constants.addAll]
    by_cases skipped : ignorePrivate && name.toList.head? = some '_'
    · have brought : (Call.extend ((name, datum) :: rest) ignorePrivate).items =
          (Call.extend rest ignorePrivate).items := by
        simp only [Call.items, List.filter_cons, skipped, Bool.not_true, Bool.false_eq_true,
          if_false]
      rw [if_pos skipped, brought]
      exact ih constants
    · have brought : (Call.extend ((name, datum) :: rest) ignorePrivate).items =
          (name, datum.toValue) :: (Call.extend rest ignorePrivate).items := by
        simp only [Call.items, List.filter_cons, skipped, Bool.not_false, if_true, List.map_cons]
      rw [if_neg skipped, brought]
      cases done : constants.add name datum with
      | error refusal => exact ⟨[], .refused refusal, (List.append_nil _).symm⟩
      | ok next =>
        obtain ⟨-, -, constant, made, rfl⟩ := Constants.add_eq_ok.mp done
        obtain ⟨added, later, grown⟩ := ih (constants.append name constant)
        rw [pool_append, List.append_assoc, List.singleton_append] at grown
        rw [made]
        exact ⟨_, .added later, grown⟩

/-- A call adds what it brings, up to a refusal. -/
theorem perform_adds (constants : Constants) (call : Call) :
    ∃ added, Adds call.items (constants.perform call).1 added ∧
      (constants.perform call).2.pool.constants = constants.pool.constants ++ added := by
  cases call with
  | add name datum => exact attempt_adds constants name datum
  | addInt32 name number =>
    simp only [Call.items, Constants.perform]
    cases Value.ofInt .int32 number.toInt with
    | error refusal => exact ⟨[], .refused refusal, (List.append_nil _).symm⟩
    | ok value => exact attempt_adds constants name (.value value)
  | addChar name c =>
    simp only [Call.items, Constants.perform]
    cases Value.ofChar c with
    | error refusal => exact ⟨[], .refused refusal, (List.append_nil _).symm⟩
    | ok value => exact attempt_adds constants name (.value value)
  | extend items ignorePrivate => exact addAll_adds items ignorePrivate constants

/-- The calls of a run add to what was there before, in the order of the calls. -/
theorem run_fills (calls : List Call) (constants : Constants) :
    ∃ added, Fills calls (constants.run calls).1 added ∧
      (constants.run calls).2.pool.constants = constants.pool.constants ++ added := by
  induction calls generalizing constants with
  | nil => exact ⟨[], .done, (List.append_nil _).symm⟩
  | cons call rest ih =>
    obtain ⟨added, here, grown⟩ := perform_adds constants call
    obtain ⟨more, later, further⟩ := ih (constants.perform call).2
    refine ⟨added ++ more, .call here later, ?_⟩
    rw [← List.append_assoc, ← grown]
    exact further

end Order

section Declarations

/-- The literal of a value is the one of its constant. -/
theorem literal_ofConstant (constant : Constant) :
    (Value.ofConstant constant).literal = .ok constant.literal := by
  rw [Value.literal, Value.toConstant_eq_ok.mpr rfl]
  rfl

/-- The line of a value is the one of its constant. -/
theorem declaration_ofConstant (name : String) (constant : Constant) :
    declaration name (.ofConstant constant) =
      .ok (constant.declaredType, name, constant.literal) := by
  rw [declaration, literal_ofConstant]
  cases constant with
  | text array =>
    obtain ⟨fixed, align, text, terminated⟩ := array
    cases fixed with
    | none => rfl
    | some fixed =>
      have brackets : "char" ++ s!"[{fixed}]" = s!"char[{fixed}]" := by
        rw [← String.toList_inj]
        simp [toString_text]
      exact congrArg (fun declared => Except.ok (declared, name, _)) brackets
  | _ => rfl

theorem declarations_pool (constants : Constants) :
    constants.pool.declarations = .ok constants.declarations := by
  rw [declarations, mapM_eq_ok, Constants.pool, Constants.declarations, List.forall₂_map_left_iff,
    List.forall₂_map_right_iff, List.forall₂_same]
  intro entry _
  exact declaration_ofConstant entry.1 entry.2

end Declarations

/-- A line declares a named value: under its name, with a literal that can be read on paper and
    denotes the value. -/
structure Describes (entry : String × Value) (line : String × String × String) : Prop where
  named : line.2.1 = entry.1
  printable : ∀ c ∈ line.2.2.toList, Literal.Printable c
  denotes : entry.2.denotation?.isSome = true
  read : Literal.read line.2.2.toList = entry.2.denotation?

/-- The pool that calls make of an empty one. -/
def after (calls : List Call) : ConstantPool :=
  (run calls empty).2

/-- What a pool is after calls, some of them refused. It holds the values of the constants that
    the calls make; what was added stands in the order of the calls, and a call that is refused
    adds nothing. All names are valid and there once, and every value is declared by its line. -/
structure Kept (calls : List Call) : Prop where
  agreed : run calls empty = ((Constants.empty.run calls).1, (Constants.empty.run calls).2.pool)
  filled : Fills calls (run calls empty).1 (after calls).constants
  refused : ∀ call : Call, call.isSingle = true → ∀ refusal,
    ((perform call).outcome (after calls)).1 = .error refusal →
      ((perform call).outcome (after calls)).2 = after calls
  valid : ∀ name ∈ (after calls).names, Identifier.validate name = .ok ()
  distinct : (after calls).names.Nodup
  declared : ∃ lines, (after calls).declarations = .ok lines ∧
    List.Forall₂ Describes (after calls).constants lines

/-- A constant is described by its line. -/
theorem describes_ofConstant (name : String) {constant : Constant} (nameable : constant.Nameable) :
    Describes (name, .ofConstant constant) (constant.declaredType, name, constant.literal) where
  named := rfl
  printable := Constant.printable_literal nameable
  denotes := by cases constant <;> rfl
  read := by
    rw [Constant.read_literal nameable]
    cases constant <;> rfl

/-- A single call that is refused leaves the pool as it is. -/
theorem perform_refused {call : Call} (single : call.isSingle = true) (constants : Constants)
    {refusal : LayoutError} (failed : (constants.perform call).1 = .error refusal) :
    (constants.perform call).2 = constants := by
  have attempted (made : Except LayoutError Constants)
      (failed : (constants.attempt made).1 = .error refusal) :
      (constants.attempt made).2 = constants := by
    cases made with
    | ok next => contradiction
    | error other => rfl
  cases call with
  | extend items ignorePrivate => contradiction
  | _ => exact attempted _ failed

/-- Whatever calls are made on a pool, its constants are denoted by their literals. -/
theorem run_kept (calls : List Call) (built : ∀ call ∈ calls, call.Built) : Kept calls := by
  have agreed : run calls empty =
      ((Constants.empty.run calls).1, (Constants.empty.run calls).2.pool) :=
    run_follows calls .empty
  have reached : after calls = (Constants.empty.run calls).2.pool := congrArg Prod.snd agreed
  have names : (after calls).names = (Constants.empty.run calls).2.names := by
    rw [reached]
    simp [ConstantPool.names, Constants.names, Constants.pool]
  have sound := Constants.Sound.empty.run built
  constructor
  case agreed => exact agreed
  case filled =>
    obtain ⟨added, filled, grown⟩ := run_fills calls .empty
    rw [reached, agreed, grown]
    exact filled
  case refused =>
    intro call single refusal failed
    rw [reached, perform_follows call] at failed
    rw [reached, perform_follows call, perform_refused single _ failed]
  case valid =>
    rw [names]
    exact sound.valid
  case distinct =>
    rw [names]
    exact sound.distinct
  case declared =>
    rw [reached]
    refine ⟨_, declarations_pool _, ?_⟩
    rw [Constants.pool, Constants.declarations, List.forall₂_map_left_iff,
      List.forall₂_map_right_iff, List.forall₂_same]
    intro entry present
    exact describes_ofConstant entry.1 (sound.nameable entry present)

section Sample

/-- An enumeration with a negative member. -/
def sides : Enumeration :=
  ⟨"Side", .int .int8, [("LEFT", -1), ("RIGHT", 1)]⟩

theorem sides_declared : sides.Declared :=
  ⟨"Side", .int .int8, [("LEFT", -1), ("RIGHT", 1)], rfl⟩

/-- Calls of all kinds, four of which are refused. The text has a digit, a quote and a backslash
    behind escaped bytes. -/
def mixedCalls : List Call :=
  [.add "odd" (.text "\x001\"é\\\n7"), .addChar "letter" 'é', .add "odd" (.int 3),
    .addInt32 "least" (-2147483648),
    .extend [("quote", .value (.char 0x27)), ("_hidden", .null), ("class", .int 1),
      ("late", .int 2)] true,
    .add "none" .null,
    .add "side" (.value (.enum ⟨sides, "LEFT", -1, by decide⟩))]

theorem mixedCalls_built : ∀ call ∈ mixedCalls, call.Built := by
  have extended : (Call.extend [("quote", .value (.char 0x27)), ("_hidden", .null),
      ("class", .int 1), ("late", .int 2)] true).Built := by
    simp only [Call.Built, List.forall_mem_cons, List.not_mem_nil, false_imp_iff, implies_true,
      and_true]
    exact ⟨.value (.char 0x27), .null, .int 1, .int 2⟩
  simp only [mixedCalls, List.forall_mem_cons, List.not_mem_nil, false_imp_iff, implies_true,
    and_true]
  exact ⟨.text _, trivial, .int 3, trivial, extended, .null, .value (.enum sides_declared)⟩

theorem mixedCalls_kept :
    (∀ call ∈ mixedCalls, call.Built) ∧ Kept mixedCalls ∧
      (after mixedCalls).declarations = .ok
        [("char[]", "odd", "\"\\0001\\\"\\303\\251\\\\\\n7\""),
          ("int32_t", "least", "-2147483648"), ("char", "quote", "'\\''"),
          ("Side", "side", "Side::LEFT")] :=
  ⟨mixedCalls_built, run_kept mixedCalls mixedCalls_built, by decide⟩

end Sample
end ConstantPool
end BinaryLayout
