import BinaryLayout.Document.Basic
import BinaryLayout.Proofs.Placement
import BinaryLayout.Proofs.SizedTypes

/-!
# No division by zero

Alignments are divisors: when a target is placed behind a value, when a member is placed in a
draft, when a record is finalized and when a document is padded. A remainder by zero would
pass unnoticed in the definitions, since natural numbers have one. Here the same computations
are made with remainders that fail for a divisor of zero, and on everything that can be built
they have the results of the definitions.
-/

namespace BinaryLayout

/-- What keeps a computation from its result: a refusal, or a division by zero. -/
inductive Fault where
  | zeroDivisor
  | refused (refusal : LayoutError)

namespace Guarded

variable {α β : Type}

/-- A computation that divides by no alignment. -/
def undivided (outcome : Except LayoutError α) : Except Fault α :=
  outcome.mapError .refused

/-- A remainder, which a divisor of zero does not have. -/
def remainder (number divisor : Nat) : Except Fault Nat :=
  if divisor = 0 then .error .zeroDivisor else .ok (number % divisor)

/-- Bytes from a position to the next multiple of an alignment. -/
def gap (position align : Nat) : Except Fault Nat := do
  let past ← remainder position align
  remainder (align - past) align

section Packing

/-- A value on its own: packed behind its own bytes, both blocks in one. -/
def packWhole (value : Value) (packAt : Nat → Except Fault Blocks) : Except Fault Blocks := do
  let size ← undivided value.size
  if value.isRef then undivided (.error .unresolvedReference)
  else return (← packAt size).combine

/-- A reference to a target that is placed at the next multiple of its alignment. -/
def resolve (width : RefWidth) (align offset : Nat) (target : Except Fault Blocks) :
    Except Fault Blocks := do
  let padding ← gap offset align
  let start ← undivided (checked .overflow (offset + padding))
  let data ← target
  let stored ← undivided (width.kind.encode start)
  return ⟨⟨stored, false⟩, ⟨List.replicate padding 0 ++ data.bytes, data.endsInBits⟩⟩

mutual

/-- The blocks of a value at an offset. -/
def packAt : Value → (offset : Nat) → Except Fault Blocks
  | .ref target width, offset =>
      resolve width target.type.align offset (packWhole target (packAt target))
  | .array element fixed align items, offset => do
      let parts ← packItems items 0 offset
      let size ← undivided (Value.array element fixed align items).size
      return (Blocks.join parts).fill size
  | .refTable target fixed width items, offset => do
      let parts ← packEntries width items offset
      let size ← undivided (Value.refTable target fixed width items).size
      return (Blocks.join parts).fill size
  | .struct ⟨_, members, _, size, _, _⟩, offset => do
      let parts ← packMembers members 0 offset
      let size ← match size with
        | some size => .ok size
        | none => undivided (Value.membersSize 0 members)
      return (Blocks.join parts).fill size
  | other, offset => undivided (other.packAt offset)

/-- Items of an array, each resolving against its own place. -/
def packItems : List Value → (position running : Nat) → Except Fault (List Blocks)
  | [], _, _ => .ok []
  | item :: rest, position, running => do
      let part ← packAt item (← undivided (Value.rebase running position))
      let running ← undivided (checked .overflow (running + part.referred.bytes.length))
      let parts ← packItems rest (position + part.inPlace.bytes.length) running
      return part :: parts

/-- Entries of a reference table, all resolving against the table. -/
def packEntries (width : RefWidth) : List Value → (running : Nat) → Except Fault (List Blocks)
  | [], _ => .ok []
  | item :: rest, running => do
      let part ←
        if item.isNull then .ok (.ofBytes (width.kind.store 0))
        else resolve width item.type.align running (packWhole item (packAt item))
      let running ← undivided (checked .overflow (running + part.referred.bytes.length))
      let parts ← packEntries width rest running
      return part :: parts

/-- Members of a struct: references resolve against it, the others against their own place. -/
def packMembers : List (Member Value) → (position running : Nat) → Except Fault (List Blocks)
  | [], _, _ => .ok []
  | ⟨_, _, value, _⟩ :: rest, position, running => do
      let offset ← undivided (if value.isRef then .ok running else Value.rebase running position)
      let part ← packAt value offset
      let running ← undivided (checked .overflow (running + part.referred.bytes.length))
      let parts ← packMembers rest (position + part.inPlace.bytes.length) running
      return part :: parts

end

/-- Pack a value at an offset not below its size, or on its own. -/
def pack (value : Value) (offset : Option Nat) : Except Fault Blocks := do
  match offset with
  | none => packWhole value (packAt value)
  | some offset =>
      let size ← undivided value.size
      if offset < size then undivided (.error (.valueRange (toString offset) "data offset"))
      else packAt value offset

/-- Zero bytes behind a document of some length. -/
def padding (options : DocumentOptions) (length : Nat) (endsInBits : Bool) : Except Fault Nat :=
  if !options.isPadded || options.align = 0 then .ok 0
  else do
    let missing := options.align - (← remainder length options.align)
    return if options.extra.isDue endsInBits || missing ≠ options.align then missing else 0

/-- The bytes of a whole document. -/
def document (root : Value) (options : DocumentOptions) : Except Fault (List UInt8) := do
  if options.isPadded && options.align = 0 then undivided (refuse .zeroAlignment)
  else
    let packed ← pack root none
    let padding ← padding options packed.bytes.length packed.endsInBits
    return packed.bytes ++ List.replicate padding 0

end Packing

section Layout

/-- Insert padding bytes from a position up to an alignment. -/
def padTo (draft : Draft) (position align : Nat) : Except Fault Draft := do
  let count ← gap position align
  let (padding, next) := Draft.paddingRun (draft.members.map (·.name)) count position
    draft.nextPadding
  return { draft with members := draft.members ++ padding, nextPadding := next }

/-- Place a value behind the members. -/
def place (draft : Draft) (name : String) (value : Value) : Except Fault Draft := do
  if draft.members.any (·.name = name) then undivided (refuse (.duplicateMember draft.name name))
  else
    undivided (Identifier.validate name)
    match draft.cursor with
    | none => undivided (refuse (.unsizedTail draft.name name))
    | some cursor =>
        let type := value.type
        let padded ← padTo draft cursor type.align
        let offset ← undivided (checked .overflow (cursor + (← gap cursor type.align)))
        let finish ← undivided (type.finish offset)
        return { padded with
          members := padded.members ++ [⟨name, offset, value, false⟩]
          align := max padded.align type.align
          cursor := finish }

/-- Carry out a call. -/
def perform (draft : Draft) (call : Draft.Call) : Except Fault Draft := do
  match ← undivided call.entry with
  | some (name, value) =>
      if value.isNull then undivided (refuse (.nullInPlace name)) else place draft name value
  | none =>
      let (constants, enums) ← undivided (call.declared draft.constants draft.enums)
      return { draft with constants, enums }

/-- Pad the record to a multiple of an alignment and fix its size. -/
def finalize (draft : Draft) (align : Nat) : Except Fault Value :=
  if align = 0 then undivided (refuse .zeroAlignment)
  else
    match draft.cursor with
    | none => undivided (refuse (.unsizedType draft.name))
    | some 0 => undivided (refuse (.emptyStruct draft.name))
    | some cursor => do
        let size ← undivided (checked .overflow (cursor + (← gap cursor align)))
        return (← padTo draft cursor align).freeze (some size)

end Layout

section Undivided

@[simp] theorem undivided_ok (result : α) : undivided (.ok result) = .ok result := rfl

@[simp] theorem undivided_pure (result : α) : undivided (pure result) = .ok result := rfl

/-- Steps that divide nowhere do not do so together. -/
@[simp] theorem undivided_bind (first : Except LayoutError α)
    (next : α → Except LayoutError β) :
    undivided (first >>= next) = undivided first >>= fun middle => undivided (next middle) := by
  cases first <;> rfl

@[simp] theorem undivided_map (image : α → β) (first : Except LayoutError α) :
    undivided (image <$> first) = image <$> undivided first := by
  cases first <;> rfl

@[simp] theorem ok_bind (result : α) (next : α → Except Fault β) :
    (Except.ok result >>= next) = next result := rfl

/-- A remainder by a positive number exists. -/
theorem remainder_eq {divisor : Nat} (number : Nat) (positive : 1 ≤ divisor) :
    remainder number divisor = .ok (number % divisor) :=
  if_neg (Nat.ne_of_gt positive)

/-- The gap to a multiple of a positive alignment exists. -/
theorem gap_eq {align : Nat} (position : Nat) (positive : 1 ≤ align) :
    gap position align = .ok (BinaryLayout.gap position align) := by
  rw [gap, remainder_eq position positive]
  exact remainder_eq _ positive

end Undivided

section Agreement

variable {offset position running align : Nat}

theorem resolve_eq (width : RefWidth) (positive : 1 ≤ align) (target : Except LayoutError Blocks) :
    resolve width align offset (undivided target) =
      undivided (Value.resolve width align offset target) := by
  simp only [resolve, Value.resolve, gap_eq _ positive, ok_bind, undivided_bind, undivided_pure]
  rfl

theorem packWhole_eq {value : Value} {guarded : Nat → Except Fault Blocks}
    {packAt : Nat → Except LayoutError Blocks}
    (same : ∀ offset, guarded offset = undivided (packAt offset)) :
    packWhole value guarded = undivided (Value.packWhole value packAt) := by
  simp only [packWhole, Value.packWhole, undivided_bind, same]
  congr 1
  funext size
  split <;> simp

/-- A value is packed without a division by zero, at whatever offset. -/
def PacksUndivided (value : Value) : Prop :=
  ∀ offset, packAt value offset = undivided (value.packAt offset)

attribute [local simp] packAt packItems packEntries packMembers Value.packAt Value.packItems
  Value.packEntries Value.packMembers

theorem packItems_eq {items : List Value} (each : ∀ item ∈ items, PacksUndivided item) :
    packItems items position running = undivided (Value.packItems items position running) := by
  induction items generalizing position running with
  | nil => rfl
  | cons item rest ih =>
    rw [List.forall_mem_cons] at each
    simp [each.1 _, ih each.2]

theorem packEntries_eq {width : RefWidth} {items : List Value}
    (each : ∀ item ∈ items, PacksUndivided item)
    (aligned : ∀ item ∈ items, 1 ≤ item.type.align) :
    packEntries width items running = undivided (Value.packEntries width items running) := by
  induction items generalizing running with
  | nil => rfl
  | cons item rest ih =>
    rw [List.forall_mem_cons] at each aligned
    cases absent : item.isNull <;>
      simp [absent, packWhole_eq each.1, resolve_eq width aligned.1,
        ih each.2 aligned.2]

theorem packMembers_eq {members : List (Member Value)}
    (each : ∀ member ∈ members, PacksUndivided member.content) :
    packMembers members position running =
      undivided (Value.packMembers members position running) := by
  induction members generalizing position running with
  | nil => rfl
  | cons member rest ih =>
    rw [List.forall_mem_cons] at each
    cases direct : member.content.isRef <;> simp [direct, each.1 _, ih each.2]

/-- Sound values are packed without a division by zero. -/
theorem packsUndivided {value : Value} (sound : value.Sound) : PacksUndivided value := by
  induction sound with
  | ref width target _ ih =>
    intro offset
    simp [packWhole_eq ih, resolve_eq width target.type.one_le_align]
  | array type _ _ _ _ ih =>
    intro offset
    simp [packItems_eq ih]
  | refTable type _ sound _ ih =>
    intro offset
    simp [packEntries_eq ih fun item present => (sound item present).type.one_le_align]
  | @struct record type _ ih =>
    intro offset
    obtain ⟨name, members, align, size, constants, enums⟩ := record
    cases size <;> simp [packMembers_eq ih]
  | _ => exact fun offset => by simp

/-- Built values are packed without a division by zero, on their own or at an offset. -/
theorem pack_eq {value : Value} (built : value.Built) (offset : Option Nat) :
    pack value offset = undivided (value.pack offset) := by
  have same := packsUndivided built.sound
  cases offset with
  | none => exact packWhole_eq same
  | some offset =>
    simp only [pack, Value.pack, undivided_bind, same _]
    congr 1
    funext size
    split <;> rfl

/-- Padding a document divides by its alignment only where that is positive. -/
theorem padding_eq (options : DocumentOptions) (length : Nat) (endsInBits : Bool) :
    padding options length endsInBits = .ok (options.padding length endsInBits) := by
  unfold padding DocumentOptions.padding
  split
  · rfl
  · rename_i padded
    have positive : 1 ≤ options.align := by
      simp only [Bool.or_eq_true, decide_eq_true_eq, not_or] at padded
      omega
    rw [remainder_eq length positive]
    rfl

/-- Documents of built values are made without a division by zero. -/
theorem document_eq {root : Value} (built : root.Built) (options : DocumentOptions) :
    document root options = undivided (root.document options) := by
  unfold document Value.document
  split
  · rfl
  · simp only [pack_eq built, padding_eq, ok_bind, undivided_bind]
    rfl

/-- A draft is padded without a division by zero. -/
theorem padTo_eq (draft : Draft) (position : Nat) (positive : 1 ≤ align) :
    padTo draft position align = .ok (draft.padTo position align) := by
  simp only [padTo, gap_eq position positive, ok_bind]
  rfl

/-- A value of positive alignment is placed without a division by zero. -/
theorem place_eq (draft : Draft) (name : String) {value : Value}
    (positive : 1 ≤ value.type.align) :
    place draft name value = undivided (draft.place name value) := by
  unfold place Draft.place
  split
  · rfl
  · simp only [undivided_bind]
    congr 1
    funext valid
    cases draft.cursor with
    | none => rfl
    | some cursor =>
      simp only [padTo_eq draft cursor positive, gap_eq cursor positive, ok_bind, undivided_bind]
      rfl

/-- Calls with built data are carried out without a division by zero. -/
theorem perform_eq (draft : Draft) {call : Draft.Call} (built : call.Built) :
    perform draft call = undivided (draft.perform call) := by
  rw [Draft.perform_eq, perform, undivided_bind]
  cases asked : call.entry with
  | error refusal => rfl
  | ok entry =>
    cases entry with
    | none => simp
    | some entry =>
      obtain ⟨name, value⟩ := entry
      have positive := (built.entry asked).sound.type.one_le_align
      simp only [undivided_ok, ok_bind, Draft.addInPlace]
      split
      · rfl
      · exact place_eq draft name positive

/-- A draft is finalized without a division by zero: an alignment of zero is refused. -/
theorem finalize_eq (draft : Draft) (align : Nat) :
    finalize draft align = undivided (draft.finalize align) := by
  unfold finalize Draft.finalize
  split
  · rfl
  · rename_i positive
    have positive : 1 ≤ align := Nat.one_le_iff_ne_zero.mpr positive
    cases draft.cursor with
    | none => rfl
    | some cursor =>
      cases cursor with
      | zero => rfl
      | succ cursor =>
        simp only [padTo_eq draft _ positive, gap_eq _ positive, ok_bind, undivided_bind]
        rfl

end Agreement

end Guarded

open Guarded in
/-- What is stored in place has a size, or is too wide for one. Every type that can be obtained,
    and every type within it, is aligned, and is stored in place just when it has a width or its
    elements take more bytes than there are addresses. Asking for a width stops just then. So
    nothing that can be built is packed, laid out or padded with a division by zero; and behind
    calls that store values in place only where their types allow it, no call is refused for an
    unsized tail, and the draft is never refused for a lack of size when it is finalized. -/
theorem sized_in_place (type : Ty) (value : Value) (draft : Draft) :
    (type.Obtained → ∀ part ∈ type.tree, part.Sized) ∧
    (value.Built →
      (∀ offset, Guarded.pack value offset = undivided (value.pack offset)) ∧
      ∀ options, Guarded.document value options = undivided (value.document options)) ∧
    ((∀ call : Draft.Call, call.Built →
        Guarded.perform draft call = undivided (draft.perform call)) ∧
      ∀ align, Guarded.finalize draft align = undivided (draft.finalize align)) ∧
    ∀ (name : String) (start : Draft) (calls : List Draft.Call),
      Draft.declare name = .ok start → (∀ call ∈ calls, call.Built ∧ call.IsManaged) →
      start.performAll calls = .ok draft →
        (∀ call owner member,
          draft.perform call ≠ .error (.structural (.unsizedTail owner member))) ∧
        ∀ align owner, draft.finalize align ≠ .error (.structural (.unsizedType owner)) := by
  refine ⟨fun obtained part inside => ?_, fun built => ⟨pack_eq built, document_eq built⟩,
    ⟨fun call built => Guarded.perform_eq draft built, Guarded.finalize_eq draft⟩,
    fun name start calls declared allowed performed => ?_⟩
  · have sound := obtained.toBuilt.wellFormed.tree inside
    exact sound.toSized sound.one_le_align
  · obtain ⟨cursor, known⟩ := Draft.exists_cursor_of_performAll
      (fun call present => (allowed call present).1) (fun call present => (allowed call present).2)
      declared performed
    exact ⟨fun call => Draft.tailless_perform known call,
      fun align owner => Draft.finalize_ne_unsized known align owner⟩

/-- An array of fixed size is stored in place and has a width, its packing divides by no zero,
    and behind calls that chose places themselves a draft takes any member and gets a size. -/
theorem sized_in_place_calls :
    (Ty.array .char (some 3) 1).Sized ∧
      Guarded.pack (.ofString "a") none = .ok (.ofBytes [97, 0]) ∧
      ∃ draft, Draft.performAll ⟨"S", [], 1, some 0, 0, .empty, []⟩
          [.addInt "n" .int8 1, .addArray "xs" [.int 2, .int 3] none,
            .addString "s" (some "a") (some 4) true .w32] = .ok draft ∧
        (∀ owner, draft.addBlob "b" ⟨[]⟩ .w8 ≠ .error (.structural (.unsizedTail owner "b"))) ∧
        ∀ owner, draft.finalize 4 ≠ .error (.structural (.unsizedType owner)) := by
  have array : Ty.arrayOf .char (some 3) none = .ok (.array .char (some 3) 1) := rfl
  have text : (Value.ofString "a").Built := .stringOf (show Value.stringOf "a" none true = _ from rfl)
  obtain ⟨draft, performed⟩ : ∃ draft, Draft.performAll ⟨"S", [], 1, some 0, 0, .empty, []⟩
      [.addInt "n" .int8 1, .addArray "xs" [.int 2, .int 3] none,
        .addString "s" (some "a") (some 4) true .w32] = .ok draft := ⟨_, rfl⟩
  have declared : Draft.declare "S" = .ok ⟨"S", [], 1, some 0, 0, .empty, []⟩ := rfl
  have allowed : ∀ call ∈ [Draft.Call.addInt "n" .int8 1, .addArray "xs" [.int 2, .int 3] none,
      .addString "s" (some "a") (some 4) true .w32], call.Built ∧ call.IsManaged := by
    simp [Draft.Call.Built, Draft.Call.IsManaged, Datum.Built.int]
  obtain ⟨types, values, -, calls⟩ :=
    sized_in_place (.array .char (some 3) 1) (.ofString "a") draft
  obtain ⟨untailed, sized⟩ := calls "S" _ _ declared allowed performed
  exact ⟨types (.built (.arrayOf .char array)) _ (by simp [Ty.tree]), (values text).1 none,
    draft, performed, fun owner => untailed (.addBlob "b" ⟨[]⟩ .w8) owner "b", sized 4⟩

/-- An array of 32-bit integers, as many as fill the address space. -/
def Ty.wideArray : Ty :=
  .array (.int .int32) (some 4611686018427387904) 4

/-- The array can be built and is stored in place. But it has no width, and an array of such
    arrays cannot be built: the program stops. -/
theorem Ty.wideArray_stops :
    wideArray.Built ∧ wideArray.isInPlace = true ∧
      wideArray.width = .error .overflow ∧ (¬ ∃ width, wideArray.width = .ok width) ∧
      arrayOf wideArray none none = .error .overflow := by
  have built : wideArray.Built :=
    .arrayOf (.int .int32) (show arrayOf (.int .int32) (some 4611686018427387904) none = _ from rfl)
  have stops : wideArray.width = .error .overflow := by decide +kernel
  exact ⟨built, rfl, stops, by simp [stops], by decide +kernel⟩

end BinaryLayout
