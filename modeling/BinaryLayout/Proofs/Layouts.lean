import BinaryLayout.Proofs.Padding

/-!
# Struct layouts

A draft keeps the members of a struct with their values. The same struct can be made from
two lists that never meet: a layout that sees nothing but types, and the values in order.
The layout says how many padding bytes it has inserted, and as many zeros are put behind
the values. Both lists grow in step, so the struct that comes out is the one of the draft,
and what its layout promises is proved of both lists together.
-/

namespace BinaryLayout

namespace Member

variable {τ : Type} {members padding : List (Member τ)}

/-- Directly before a member stand fewer padding bytes than its alignment. -/
def FewBefore (align : τ → Nat) (members : List (Member τ)) : Prop :=
  ∀ run member, run ++ [member] <:+: members → (∀ byte ∈ run, byte.isPadding = true) →
    member.isPadding = false → run.length < align member.content

/-- At the end stand fewer padding bytes than an alignment. -/
def FewBehind (align : Nat) (members : List (Member τ)) : Prop :=
  ∀ run, run <:+ members → (∀ byte ∈ run, byte.isPadding = true) → run.length < align

/-- The last member is no padding byte. -/
def Unpadded (members : List (Member τ)) : Prop :=
  ∀ run, run <:+ members → (∀ byte ∈ run, byte.isPadding = true) → run = []

/-- Padding behind members that do not end in any is as long as the run at the end gets. -/
theorem Unpadded.length_le (unpadded : Unpadded members) {run : List (Member τ)}
    (behind : run <:+ members ++ padding) (inserted : ∀ byte ∈ run, byte.isPadding = true) :
    run.length ≤ padding.length := by
  rcases List.suffix_or_suffix_of_suffix behind (List.suffix_append members padding) with
    shorter | ⟨more, rfl⟩
  · exact shorter.length_le
  · have none : more = [] := by
      refine unpadded more (List.suffix_append_self_iff.mp behind) fun byte present => ?_
      exact inserted byte (List.mem_append_left _ present)
    rw [none, List.nil_append]

/-- A member that is no padding stands before the padding at the end. -/
theorem infix_of_padding {run : List (Member τ)} {member : Member τ}
    (inside : run ++ [member] <:+: members ++ padding)
    (inserted : ∀ byte ∈ padding, byte.isPadding = true) (placed : member.isPadding = false) :
    run ++ [member] <:+: members := by
  induction padding using List.reverseRecOn with
  | nil => rwa [List.append_nil] at inside
  | append_singleton padding byte ih =>
    have others : ∀ byte ∈ padding, byte.isPadding = true :=
      fun other present => inserted other (List.mem_append_left _ present)
    rw [← List.append_assoc, List.infix_concat_iff] at inside
    rcases inside with last | earlier
    · obtain ⟨before, same⟩ := last
      rw [← List.append_assoc] at same
      obtain rfl := List.singleton_inj.mp (List.append_inj_right' same rfl)
      have padded := inserted member (by simp)
      rw [placed] at padded
      contradiction
    · exact ih earlier others

end Member

/-- The types of a struct that is being laid out. -/
structure Layout where
  name : String
  members : List (Member Ty)
  align : Nat
  cursor : Option Nat
  nextPadding : Nat
  constants : Constants
  enums : List Enumeration

namespace Layout

/-- A layout without members. -/
def declare (name : String) : Except LayoutError Layout := do
  Identifier.validate name
  return ⟨name, [], 1, some 0, 0, .empty, []⟩

/-- Padding members from an offset on, and the number after their last one. -/
def paddingRun (taken : List String) :
    (count : Nat) → (offset start : Nat) → List (Member Ty) × Nat
  | 0, _, start => ([], start)
  | count + 1, offset, start =>
      let number := Draft.freeNumber taken taken.length start
      let (rest, next) := paddingRun taken count (offset + 1) (number + 1)
      (⟨Draft.paddingName number, offset, .int .int8, true⟩ :: rest, next)

/-- Insert padding members from a position up to an alignment, and count them. -/
def padTo (layout : Layout) (position align : Nat) : Layout × Nat :=
  let (padding, next) :=
    paddingRun (layout.members.map (·.name)) (gap position align) position layout.nextPadding
  ({ layout with members := layout.members ++ padding, nextPadding := next }, padding.length)

/-- Append a member and count the padding before it. -/
def addMember (layout : Layout) (name : String) (type : Ty) :
    Except LayoutError (Layout × Nat) := do
  if layout.members.any (·.name = name) then refuse (.duplicateMember layout.name name)
  else
    Identifier.validate name
    match layout.cursor with
    | none => refuse (.unsizedTail layout.name name)
    | some cursor =>
        let (padded, padding) := layout.padTo cursor type.align
        let offset ← checked .overflow (cursor + padding)
        let finish ← type.finish offset
        return ({ padded with
          members := padded.members ++ [⟨name, offset, type, false⟩]
          align := max padded.align type.align
          cursor := finish }, padding)

/-- The layout as a record. -/
def freeze (layout : Layout) (size : Option Nat) : Record Ty :=
  ⟨layout.name, layout.members, layout.align, size, layout.constants, layout.enums⟩

/-- Pad the layout to a multiple of an alignment, fix its size and count the padding. -/
def finalize (layout : Layout) (align : Nat) : Except LayoutError (Record Ty × Nat) :=
  if align = 0 then refuse .zeroAlignment
  else
    match layout.cursor with
    | none => refuse (.unsizedType layout.name)
    | some 0 => refuse (.emptyStruct layout.name)
    | some cursor => do
        let (padded, padding) := layout.padTo cursor align
        let size ← checked .overflow (cursor + padding)
        return (padded.freeze (some size), padding)

end Layout

/-- A layout with the values of its members. -/
structure Builder where
  layout : Layout
  values : List Value

namespace Builder

/-- Append a member to the layout, and to the values as many zeros as were inserted and the
    value itself. -/
def addInPlace (builder : Builder) (name : String) (value : Value) :
    Except LayoutError Builder :=
  if value.isNull then refuse (.nullInPlace name)
  else do
    let (layout, padding) ← builder.layout.addMember name value.type
    return ⟨layout, builder.values ++ List.replicate padding Draft.zeroByte ++ [value]⟩

/-- Carry out a call. -/
def perform (builder : Builder) (call : Draft.Call) : Except LayoutError Builder := do
  match ← call.entry with
  | some (name, value) => builder.addInPlace name value
  | none =>
      let (constants, enums) ← call.declared builder.layout.constants builder.layout.enums
      return { builder with layout := { builder.layout with constants, enums } }

/-- End the layout, and put as many zeros behind the values as were inserted. -/
def finish (builder : Builder) : Draft.Ending → Except LayoutError (Record Ty × List Value)
  | .openRecord => .ok (builder.layout.freeze none, builder.values)
  | .finalize align => do
      let (record, padding) ← builder.layout.finalize align
      return (record, builder.values ++ List.replicate padding Draft.zeroByte)

/-- The two lists that a sequence of calls makes. -/
def make (name : String) (calls : List Draft.Call) (ending : Draft.Ending) :
    Except LayoutError (Record Ty × List Value) := do
  (← calls.foldlM perform ⟨← Layout.declare name, []⟩).finish ending

end Builder

namespace Record

/-- The types of a record of values. -/
def types (record : Record Value) : Record Ty :=
  ⟨record.name, Value.memberTypes record.members, record.align, record.size, record.constants,
    record.enums⟩

/-- The values of a record without their names. -/
def values (record : Record Value) : List Value :=
  record.members.map (·.content)

end Record

namespace Draft

/-- The two lists of a draft. -/
def apart (draft : Draft) : Builder :=
  ⟨⟨draft.name, Value.memberTypes draft.members, draft.align, draft.cursor, draft.nextPadding,
    draft.constants, draft.enums⟩, draft.members.map (·.content)⟩

/-- Members have the same names in both lists. -/
theorem names_memberTypes (members : List (Member Value)) :
    (Value.memberTypes members).map (·.name) = members.map (·.name) := by
  rw [Value.memberTypes_eq_map, List.map_map]
  rfl

/-- Both lists get the same padding. -/
theorem paddingRun_apart (taken : List String) (count offset start : Nat) :
    Layout.paddingRun taken count offset start =
      (Value.memberTypes (paddingRun taken count offset start).1,
        (paddingRun taken count offset start).2) := by
  induction count generalizing offset start with
  | zero => rfl
  | succ count ih =>
    rw [Layout.paddingRun, ih]
    rfl

/-- Padding goes into the layout, and its count is the count of zeros behind the values. -/
theorem padTo_apart (draft : Draft) (position align : Nat) :
    draft.apart.layout.padTo position align =
        ((draft.padTo position align).apart.layout, gap position align) ∧
      (draft.padTo position align).apart.values =
        draft.apart.values ++ List.replicate (gap position align) zeroByte := by
  obtain ⟨spare, -⟩ := paddingRun_spare (draft.members.map (·.name)) (gap position align) position
    draft.nextPadding
  constructor
  · have count : (Value.memberTypes (paddingRun (draft.members.map (·.name)) (gap position align)
        position draft.nextPadding).1).length = gap position align := by
      rw [Value.memberTypes_eq_map, List.length_map, spare.length]
    simp only [Layout.padTo, apart, names_memberTypes, paddingRun_apart, count, padTo,
      Value.memberTypes_append]
  · have zeros : (paddingRun (draft.members.map (·.name)) (gap position align) position
        draft.nextPadding).1.map (·.content) = List.replicate (gap position align) zeroByte := by
      refine List.eq_replicate_iff.mpr ⟨by rw [List.length_map, spare.length], fun value inside => ?_⟩
      obtain ⟨byte, present, rfl⟩ := List.mem_map.mp inside
      exact spare.zero byte present
    simp only [padTo, apart, List.map_append, zeros]

/-- Adding a value keeps the two lists in step. -/
theorem addInPlace_apart (draft : Draft) (name : String) (value : Value) :
    draft.apart.addInPlace name value = (draft.addInPlace name value).map apart := by
  have names : draft.apart.layout.members.any (·.name = name) =
      draft.members.any (·.name = name) := by
    rw [apart, Value.memberTypes_eq_map, List.any_map]
    rfl
  rw [Builder.addInPlace, addInPlace]
  split
  · rfl
  · rw [Layout.addMember, place, names]
    split
    · rfl
    · cases Identifier.validate name with
      | error refusal => rfl
      | ok done =>
        cases known : draft.cursor with
        | none => simp [apart, known, refuse, Except.map, bind, Except.bind]
        | some cursor =>
          obtain ⟨layout, values⟩ := draft.padTo_apart cursor value.type.align
          have same : draft.apart.layout.cursor = some cursor := known
          simp only [same, layout]
          cases checked LayoutError.overflow (cursor + gap cursor value.type.align) with
          | error refusal => rfl
          | ok offset =>
            simp only [bind, Except.bind]
            cases value.type.finish offset with
            | error refusal => rfl
            | ok finish =>
              simp only [Except.map, pure, Except.pure, ← values]
              simp [apart, Value.memberTypes_append, Value.memberTypes]

/-- A call keeps the two lists in step. -/
theorem perform_apart (draft : Draft) (call : Call) :
    draft.apart.perform call = (draft.perform call).map apart := by
  rw [perform_eq, Builder.perform]
  cases call.entry with
  | error refusal => rfl
  | ok entry =>
    cases entry with
    | some entry => exact addInPlace_apart draft entry.1 entry.2
    | none =>
      show (call.declared draft.constants draft.enums >>= _) = _
      cases call.declared draft.constants draft.enums with
      | error refusal => rfl
      | ok declared => rfl

/-- Calls keep the two lists in step. -/
theorem performAll_apart (draft : Draft) (calls : List Call) :
    calls.foldlM Builder.perform draft.apart = (draft.performAll calls).map apart := by
  induction calls generalizing draft with
  | nil => rfl
  | cons call rest ih =>
    rw [performAll, List.foldlM_cons, List.foldlM_cons, perform_apart]
    cases draft.perform call with
    | error refusal => rfl
    | ok next => exact ih next

/-- A draft and its two lists are refused together, or they end in the same struct. -/
theorem finish_apart (draft : Draft) (ending : Ending) :
    (∃ refusal, draft.finish ending = .error refusal ∧
      draft.apart.finish ending = .error refusal) ∨
    ∃ record : Record Value, draft.finish ending = .ok (.struct record) ∧
      draft.apart.finish ending = .ok (record.types, record.values) := by
  cases ending with
  | openRecord => exact .inr ⟨_, rfl, rfl⟩
  | finalize align =>
    have same : draft.apart.layout.cursor = draft.cursor := rfl
    rw [finish, finalize, Builder.finish, Layout.finalize, same]
    by_cases zero : align = 0
    · rw [if_pos zero, if_pos zero]
      exact .inl ⟨_, rfl, rfl⟩
    · rw [if_neg zero, if_neg zero]
      rcases draft.cursor with _ | _ | cursor
      · exact .inl ⟨_, rfl, rfl⟩
      · exact .inl ⟨_, rfl, rfl⟩
      · obtain ⟨layout, values⟩ := draft.padTo_apart (cursor + 1) align
        simp only [layout]
        cases checked LayoutError.overflow (cursor + 1 + gap (cursor + 1) align) with
        | error refusal => exact .inl ⟨refusal, rfl, rfl⟩
        | ok size =>
          refine .inr ⟨_, rfl, ?_⟩
          simp only [bind, Except.bind, pure, Except.pure, ← values]
          rfl

/-- The two lists that calls make are those of the struct that they make, and neither is made
    without the other. -/
theorem make_apart (name : String) (calls : List Call) (ending : Ending) :
    (∃ refusal, make name calls ending = .error refusal ∧
      Builder.make name calls ending = .error refusal) ∨
    ∃ record : Record Value, make name calls ending = .ok (.struct record) ∧
      Builder.make name calls ending = .ok (record.types, record.values) := by
  rw [make, Builder.make, declare, Layout.declare]
  cases Identifier.validate name with
  | error refusal => exact .inl ⟨refusal, rfl, rfl⟩
  | ok done =>
    let start : Draft := ⟨name, [], 1, some 0, 0, .empty, []⟩
    have lists := performAll_apart start calls
    cases performed : start.performAll calls with
    | error refusal =>
      rw [performed] at lists
      refine .inl ⟨refusal, ?_, ?_⟩
      · show (start.performAll calls >>= _) = _
        rw [performed]
        rfl
      · show (calls.foldlM Builder.perform start.apart >>= _) = _
        rw [lists]
        rfl
    | ok draft =>
      rw [performed] at lists
      have ended := draft.finish_apart ending
      have first : (start.performAll calls >>= fun draft => draft.finish ending) =
          draft.finish ending := by rw [performed]; rfl
      have second : (calls.foldlM Builder.perform start.apart >>=
          fun builder => builder.finish ending) = draft.apart.finish ending := by rw [lists]; rfl
      rw [← first, ← second] at ended
      exact ended

namespace Stacked

variable {members : List (Member Value)} {cursor : Option Nat}

/-- Stacked members do not end in padding. -/
theorem unpadded (stacked : Stacked members cursor) : Member.Unpadded members := by
  intro run behind inserted
  cases stacked with
  | nil => exact List.suffix_nil.mp behind
  | place =>
    rcases List.suffix_concat_iff.mp behind with none | ⟨before, rfl, -⟩
    · exact none
    · have padded := inserted _ (List.mem_append_right _ (List.mem_singleton_self _))
      contradiction

/-- Stacked members stand at multiples of their alignments. -/
theorem aligned (stacked : Stacked members cursor)
    (positive : ∀ member ∈ members, 0 < member.content.type.align) :
    ∀ member ∈ members, member.content.type.align ∣ member.offset := by
  induction stacked with
  | nil => simp
  | place _ _ padded ih =>
    simp only [List.forall_mem_append, List.forall_mem_singleton] at positive ⊢
    refine ⟨⟨ih positive.1.1, fun byte present => ?_⟩, (gap_spec _ positive.2).2⟩
    rw [padded.zero byte present]
    exact Nat.one_dvd _

/-- Before a stacked member stand as few padding bytes as align it. -/
theorem fewBefore (stacked : Stacked members cursor)
    (positive : ∀ member ∈ members, 0 < member.content.type.align) :
    Member.FewBefore (·.type.align) members := by
  induction stacked with
  | nil =>
    intro run member inside
    simp at inside
  | @place members padding cursor name value before _ padded ih =>
    simp only [List.forall_mem_append, List.forall_mem_singleton] at positive
    intro run member inside inserted placed
    rcases List.infix_concat_iff.mp inside with last | earlier
    · rcases List.suffix_concat_iff.mp last with none | ⟨before', whole, behind⟩
      · simp at none
      · obtain ⟨rfl, same⟩ := List.append_inj' whole rfl
        obtain rfl := List.singleton_inj.mp same
        calc
          run.length ≤ padding.length := before.unpadded.length_le behind inserted
          _ = gap cursor value.type.align := padded.length
          _ < value.type.align := (gap_spec cursor positive.2).1
    · exact ih positive.1.1 run member
        (Member.infix_of_padding earlier padded.inserted placed) inserted placed

/-- Padding among stacked members is zero. -/
theorem zeros (stacked : Stacked members cursor) :
    ∀ member ∈ members, member.isPadding = true → member.content = zeroByte := by
  induction stacked with
  | nil => simp
  | place _ _ padded ih =>
    simp only [List.forall_mem_append, List.forall_mem_singleton]
    exact ⟨⟨ih, fun byte present _ => padded.zero byte present⟩, fun placed => by contradiction⟩

end Stacked

/-- What the layout of a struct and its values promise, for each way in which it may end. -/
structure LaidOut (types : Record Ty) (values : List Value) (ending : Ending) : Prop where
  inStep : List.Forall₂ (fun member value => value.type = member.content) types.members values
  zeros : List.Forall₂ (fun member value => member.isPadding = true → value = zeroByte)
    types.members values
  consecutive : ∃ finish, Consecutive 0 types.members finish
  aligned : ∀ member ∈ types.members, member.content.align ∣ member.offset
  few : Member.FewBefore Ty.align types.members
  widest : types.align = widestAlign types.members
  ended : match ending with
    | .openRecord => types.size = none
    | .finalize align => ∃ size, types.size = some size ∧
        Consecutive 0 types.members (some size) ∧ align ∣ size ∧
        Member.FewBehind align types.members
  unsized : ∀ before member behind, types.members = before ++ member :: behind →
    member.content.width? = none → behind = [] ∧ types.size = none

section Completed

variable {record : Record Value} {calls : List Call} {ending : Ending}
  {members padding : List (Member Value)} {cursor : Option Nat}

/-- Padding behind the members of a struct is as long as its last alignment asks for. -/
theorem Completed.padding_spec (completed : Completed record calls ending members padding cursor) :
    (∀ byte ∈ padding, byte.isPadding = true ∧ byte.content = zeroByte) ∧
      ∀ align, ending = .finalize align → padding.length < align := by
  have ended := completed.ended
  cases ending with
  | openRecord =>
    obtain ⟨rfl, -⟩ := ended
    exact ⟨by simp, fun align other => by contradiction⟩
  | finalize align =>
    obtain ⟨finish, -, positive, spare, -⟩ := ended
    refine ⟨fun byte present => ⟨spare.inserted byte present, spare.zero byte present⟩, ?_⟩
    rintro _ ⟨rfl⟩
    rw [spare.length]
    exact (gap_spec finish positive).1

/-- Members and padding of a struct stand at multiples of their alignments, behind as few
    padding bytes as align them. -/
theorem Completed.aligned (completed : Completed record calls ending members padding cursor)
    (positive : ∀ member ∈ record.members, 0 < member.content.type.align) :
    (∀ member ∈ record.members, member.content.type.align ∣ member.offset) ∧
      Member.FewBefore (·.type.align) record.members := by
  obtain ⟨inserted, -⟩ := completed.padding_spec
  rw [completed.all] at positive ⊢
  have positive : ∀ member ∈ members, 0 < member.content.type.align :=
    fun member present => positive member (List.mem_append_left _ present)
  constructor
  · refine List.forall_mem_append.mpr ⟨completed.stacked.aligned positive, fun byte present => ?_⟩
    rw [(inserted byte present).2]
    exact Nat.one_dvd _
  · intro run member inside zeros placed
    have earlier := Member.infix_of_padding inside (fun byte present => (inserted byte present).1)
      placed
    exact completed.stacked.fewBefore positive run member earlier zeros placed

/-- All padding of a struct is zero. -/
theorem Completed.zeros (completed : Completed record calls ending members padding cursor) :
    ∀ member ∈ record.members, member.isPadding = true → member.content = zeroByte := by
  obtain ⟨inserted, -⟩ := completed.padding_spec
  rw [completed.all]
  exact List.forall_mem_append.mpr
    ⟨completed.stacked.zeros, fun byte present _ => (inserted byte present).2⟩

/-- At the end of a finalized struct stand fewer padding bytes than its last alignment, which
    divides its size. -/
theorem Completed.finalized {align : Nat}
    (completed : Completed record calls (.finalize align) members padding cursor) :
    (∃ size, record.size = some size ∧ align ∣ size) ∧ Member.FewBehind align record.members := by
  obtain ⟨finish, -, positive, spare, size⟩ := completed.ended
  obtain ⟨few, divides⟩ := gap_spec finish positive
  refine ⟨⟨_, size, divides⟩, fun run behind inserted => ?_⟩
  rw [completed.all] at behind
  calc
    run.length ≤ padding.length := completed.stacked.unpadded.length_le behind inserted
    _ = gap finish align := spare.length
    _ < align := few

end Completed

section Types

variable {members : List (Member Value)}

/-- What is few before values is few before their types. -/
theorem fewBefore_memberTypes (few : Member.FewBefore (·.type.align) members) :
    Member.FewBefore Ty.align (Value.memberTypes members) := by
  intro run member inside inserted placed
  rw [Value.memberTypes_eq_map] at inside
  obtain ⟨source, within, same⟩ := List.infix_map_iff.mp inside
  obtain ⟨before, last, rfl, rfl, single⟩ := List.map_eq_append_iff.mp same.symm
  obtain ⟨origin, rfl, rfl⟩ := List.map_eq_singleton_iff.mp single
  rw [List.length_map]
  exact few before origin within (fun byte present => inserted _ (List.mem_map_of_mem present)) placed

/-- What is few behind values is few behind their types. -/
theorem fewBehind_memberTypes {align : Nat} (few : Member.FewBehind align members) :
    Member.FewBehind align (Value.memberTypes members) := by
  intro run behind inserted
  rw [Value.memberTypes_eq_map] at behind
  obtain ⟨source, within, rfl⟩ := List.suffix_map_iff.mp behind
  rw [List.length_map]
  exact few source within fun byte present => inserted _ (List.mem_map_of_mem present)

/-- A type without a width is the last of consecutive members, and nothing is known of the end
    behind it. -/
theorem last_of_unsized {before behind : List (Member Ty)} {member : Member Ty} {start : Nat}
    {finish : Option Nat} (laid : Consecutive start (before ++ member :: behind) finish)
    (unsized : member.content.width? = none) : behind = [] ∧ finish = none := by
  induction before generalizing start with
  | nil =>
    obtain ⟨-, tail⟩ := laid
    simpa [unsized] using tail
  | cons first rest ih =>
    obtain ⟨-, tail⟩ := laid
    cases known : first.content.width? with
    | none => simp [known] at tail
    | some width => exact ih (by simpa [known] using tail)

end Types

/-- Types and values of a record correspond to each other as its members do to themselves. -/
theorem forall₂_types_values {record : Record Value} {related : Member Ty → Value → Prop}
    (each : ∀ member ∈ record.members,
      related ⟨member.name, member.offset, member.content.type, member.isPadding⟩ member.content) :
    List.Forall₂ related record.types.members record.values := by
  rw [Record.types, Value.memberTypes_eq_map, Record.values, List.forall₂_map_left_iff,
    List.forall₂_map_right_iff]
  exact List.forall₂_same.mpr each

/-- Calls on built data make a struct with the promised layout, whether its types and values
    are kept together or apart. -/
theorem make_laidOut {name : String} {calls : List Call} {ending : Ending} {value : Value}
    (built : ∀ call ∈ calls, call.Built) (made : make name calls ending = .ok value) :
    ∃ record : Record Value, value = .struct record ∧ value.type = .struct record.types ∧
      Builder.make name calls ending = .ok (record.types, record.values) ∧
      LaidOut record.types record.values ending := by
  obtain ⟨refusal, refused, -⟩ | ⟨record, same, lists⟩ := make_apart name calls ending
  · rw [refused] at made
    contradiction
  · obtain rfl := Except.ok.inj (made.symm.trans same)
    obtain ⟨members, padding, cursor, completed⟩ := make_completed made
    have wellFormed : (Ty.struct record.types).WellFormed := (make_built built made).sound.type
    have positive : ∀ member ∈ record.members, 0 < member.content.type.align := by
      intro member present
      refine (wellFormed.member ⟨member.name, member.offset, member.content.type,
        member.isPadding⟩ ?_).one_le_align
      rw [Record.types, Value.memberTypes_eq_map]
      exact List.mem_map_of_mem present
    obtain ⟨aligned, few⟩ := completed.aligned positive
    cases wellFormed with
    | struct _ _ widest laid _ =>
    obtain ⟨finish, consecutive, sized⟩ := laid
    refine ⟨record, rfl, rfl, lists, ?_⟩
    constructor
    case inStep => exact forall₂_types_values fun member _ => rfl
    case zeros => exact forall₂_types_values completed.zeros
    case consecutive => exact ⟨finish, consecutive⟩
    case aligned =>
      intro member present
      obtain ⟨source, inside, rfl⟩ := Value.mem_memberTypes present
      exact aligned source inside
    case few => exact fewBefore_memberTypes few
    case widest => exact widest
    case ended =>
      cases ending with
      | openRecord => exact completed.ended.2
      | finalize align =>
        obtain ⟨⟨size, known, divides⟩, behind⟩ := completed.finalized
        obtain rfl : some size = finish := known.symm.trans (sized (by simp [Record.types, known]))
        exact ⟨size, known, consecutive, divides, fewBehind_memberTypes behind⟩
    case unsized =>
      intro before member behind whole unsized
      rw [whole] at consecutive
      obtain ⟨last, rfl⟩ := last_of_unsized consecutive unsized
      refine ⟨last, ?_⟩
      by_contra some
      exact some (sized (Option.isSome_iff_ne_none.mpr some))

/-- A character and a number, padded to a multiple of six. -/
def sixfold : Record Value :=
  ⟨"S", [⟨"c", 0, .char 120, false⟩, ⟨"paddingByte0", 1, zeroByte, true⟩,
    ⟨"paddingByte1", 2, zeroByte, true⟩, ⟨"paddingByte2", 3, zeroByte, true⟩,
    ⟨"n", 4, .int ⟨.int32, 7, .refl true⟩, false⟩, ⟨"paddingByte3", 8, zeroByte, true⟩,
    ⟨"paddingByte4", 9, zeroByte, true⟩, ⟨"paddingByte5", 10, zeroByte, true⟩,
    ⟨"paddingByte6", 11, zeroByte, true⟩], 4, some 12, .empty, []⟩

/-- An alignment that is no power of two needs four padding bytes at the end. -/
theorem sixfold_laidOut :
    make "S" [.addChar "c" 'x', .addInt "n" .int32 7] (.finalize 6) = .ok (.struct sixfold) ∧
      LaidOut sixfold.types sixfold.values (.finalize 6) := by
  have made : make "S" [.addChar "c" 'x', .addInt "n" .int32 7] (.finalize 6) =
      .ok (.struct sixfold) := rfl
  have built : ∀ call ∈ [Call.addChar "c" 'x', .addInt "n" .int32 7], call.Built := by
    simp [Call.Built]
  obtain ⟨record, same, -, -, laid⟩ := make_laidOut built made
  obtain rfl := Value.struct.inj same
  exact ⟨made, laid⟩

end Draft
end BinaryLayout
