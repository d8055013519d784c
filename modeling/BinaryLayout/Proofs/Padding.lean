import BinaryLayout.Proofs.Calls
import BinaryLayout.Proofs.Keys
import BinaryLayout.Proofs.Placement
import Mathlib.Data.List.Infix
import Mathlib.Data.List.Perm.Subperm

/-!
# Padding and names

Padding bytes are members too, so they need names that no other member has. A name is
chosen when a byte is inserted, among the ones that no member has so far; the member for
which the byte is inserted has been judged before and does not count yet. So the names of
a struct are told apart, and each of its values is found under its name, as long as no
member asks for the name of a padding byte directly before it.
-/

namespace BinaryLayout

namespace Member

variable {τ : Type}

/-- No two members share a name. -/
def NamesApart (members : List (Member τ)) : Prop :=
  (members.map (·.name)).Nodup

/-- No member has the name of one of the padding bytes directly before it. -/
def PaddingApart (members : List (Member τ)) : Prop :=
  ∀ padding member, padding ++ [member] <:+: members →
    (∀ byte ∈ padding, byte.isPadding = true) → member.isPadding = false →
    member.name ∉ padding.map (·.name)

/-- Names that are told apart everywhere are told apart from the padding. -/
theorem NamesApart.paddingApart {members : List (Member τ)} (apart : NamesApart members) :
    PaddingApart members := by
  intro padding member inside _ _ hidden
  have inner : ((padding ++ [member]).map (·.name)).Nodup :=
    List.Nodup.sublist (inside.sublist.map (·.name)) apart
  rw [List.map_append] at inner
  exact List.disjoint_of_nodup_append inner hidden (List.mem_singleton_self _)

/-- The first members of a list are told apart from the padding when all are. -/
theorem PaddingApart.left {first second : List (Member τ)} (apart : PaddingApart (first ++ second)) :
    PaddingApart first :=
  fun padding member inside => apart padding member (inside.trans (List.prefix_append ..).isInfix)

/-- Where names are told apart, every member is the one that its name finds. -/
theorem NamesApart.find?_eq {members : List (Member τ)} (apart : NamesApart members)
    {member : Member τ} (present : member ∈ members) :
    members.find? (·.name = member.name) = some member := by
  induction members with
  | nil => contradiction
  | cons first rest ih =>
    obtain ⟨other, behind⟩ := List.nodup_cons.mp apart
    rcases List.mem_cons.mp present with rfl | later
    · simp
    · have differs : first.name ≠ member.name :=
        fun same => other (List.mem_map.mpr ⟨member, later, same.symm⟩)
      rw [List.find?_cons_of_neg (by simpa using differs)]
      exact ih behind later

end Member

/-- What stands under a name of a record. -/
def Record.get? {τ : Type} (record : Record τ) (name : String) : Option τ :=
  (record.member? name).map (·.content)

namespace Draft

/-- Padding bytes differ in name when they differ in number: the digits of a name give its
    number back. -/
theorem paddingName_inj {first second : Nat} :
    paddingName first = paddingName second ↔ first = second := by
  constructor
  · intro same
    apply toDigits_inj
    simpa [paddingName, Nat.toString_eq_ofList_toDigits] using congrArg String.toList same
  · rintro rfl
    rfl

/-- The search passes over taken names only, and it stops at a free one unless it runs out
    of tries. -/
theorem freeNumber_spec (taken : List String) (tries start : Nat) :
    ∃ passed ≤ tries, freeNumber taken tries start = start + passed ∧
      (∀ step < passed, paddingName (start + step) ∈ taken) ∧
      (passed < tries → paddingName (start + passed) ∉ taken) := by
  induction tries generalizing start with
  | zero => exact ⟨0, Nat.le_refl 0, rfl, by simp, by simp⟩
  | succ tries ih =>
    by_cases used : paddingName start ∈ taken
    · obtain ⟨passed, few, found, before, free⟩ := ih (start + 1)
      refine ⟨passed + 1, Nat.succ_le_succ few, ?_, fun step below => ?_, fun below => ?_⟩
      · rw [freeNumber, if_pos (List.contains_iff_mem.mpr used), found]
        omega
      · cases step with
        | zero => exact used
        | succ step =>
          have taken := before step (by omega)
          rwa [Nat.add_assoc, Nat.add_comm 1] at taken
      · have untaken := free (by omega)
        rwa [Nat.add_assoc, Nat.add_comm 1] at untaken
    · refine ⟨0, Nat.zero_le _, ?_, by simp, fun _ => used⟩
      rw [freeNumber, if_neg (by simpa using used), Nat.add_zero]

/-- The search never goes back. -/
theorem le_freeNumber (taken : List String) (tries start : Nat) :
    start ≤ freeNumber taken tries start := by
  obtain ⟨passed, -, found, -⟩ := freeNumber_spec taken tries start
  omega

/-- With as many tries as there are taken names the search ends at a free one: it would have
    passed over more names than there are otherwise. -/
theorem freeNumber_untaken (taken : List String) (start : Nat) :
    paddingName (freeNumber taken taken.length start) ∉ taken := by
  obtain ⟨passed, few, found, before, free⟩ := freeNumber_spec taken taken.length start
  rw [found]
  rcases Nat.lt_or_ge passed taken.length with below | all
  · exact free below
  · intro used
    obtain rfl : passed = taken.length := by omega
    let names := (List.range (taken.length + 1)).map fun step => paddingName (start + step)
    have distinct : names.Nodup := by
      refine List.nodup_range.map fun first second same => ?_
      have := paddingName_inj.mp same
      omega
    have inside : names ⊆ taken := by
      intro name present
      obtain ⟨step, below, rfl⟩ := List.mem_map.mp present
      rcases Nat.lt_or_eq_of_le (Nat.lt_succ_iff.mp (List.mem_range.mp below)) with less | rfl
      · exact before step less
      · exact used
    have enough := (distinct.subperm inside).length_le
    simp [names] at enough

/-- Padding bytes under names of their own. -/
structure Spare (taken : List String) (count : Nat) (padding : List (Member Value)) : Prop where
  length : padding.length = count
  inserted : ∀ byte ∈ padding, byte.isPadding = true
  zero : ∀ byte ∈ padding, byte.content = zeroByte
  untaken : ∀ byte ∈ padding, byte.name ∉ taken
  apart : (padding.map (·.name)).Nodup

/-- The bytes of a run have free names, numbered upwards. -/
theorem paddingRun_spare (taken : List String) (count offset start : Nat) :
    Spare taken count (paddingRun taken count offset start).1 ∧
      ∀ byte ∈ (paddingRun taken count offset start).1,
        ∃ number ≥ start, byte.name = paddingName number := by
  induction count generalizing offset start with
  | zero => exact ⟨⟨rfl, by simp [paddingRun], by simp [paddingRun], by simp [paddingRun], .nil⟩,
      by simp [paddingRun]⟩
  | succ count ih =>
    let number := freeNumber taken taken.length start
    have here : start ≤ number := le_freeNumber taken taken.length start
    obtain ⟨rest, numbered⟩ := ih (offset + 1) (number + 1)
    refine ⟨⟨?_, ?_, ?_, ?_, ?_⟩, ?_⟩
    · simpa [paddingRun] using rest.length
    · exact List.forall_mem_cons.mpr ⟨rfl, rest.inserted⟩
    · exact List.forall_mem_cons.mpr ⟨rfl, rest.zero⟩
    · exact List.forall_mem_cons.mpr ⟨freeNumber_untaken taken start, rest.untaken⟩
    · refine List.nodup_cons.mpr ⟨fun again => ?_, rest.apart⟩
      obtain ⟨byte, present, same⟩ := List.mem_map.mp again
      obtain ⟨later, above, name⟩ := numbered byte present
      have := paddingName_inj.mp (name.symm.trans same)
      omega
    · refine List.forall_mem_cons.mpr ⟨⟨number, here, rfl⟩, fun byte present => ?_⟩
      obtain ⟨later, above, name⟩ := numbered byte present
      exact ⟨later, by omega, name⟩

/-- Members that were placed one behind the other, each behind the padding that aligns it.
    A member has a name that none has before the padding. -/
inductive Stacked : List (Member Value) → (cursor : Option Nat) → Prop
  | nil : Stacked [] (some 0)
  | place {members padding : List (Member Value)} {cursor : Nat} {name : String} {value : Value}
      (before : Stacked members (some cursor)) (untaken : name ∉ members.map (·.name))
      (padded : Spare (members.map (·.name)) (gap cursor value.type.align) padding) :
      Stacked (members ++ padding ++ [⟨name, cursor + gap cursor value.type.align, value, false⟩])
        (value.type.width?.map (cursor + gap cursor value.type.align + ·))

/-- What stands behind the members of a draft when it is padded. -/
theorem padTo_members (draft : Draft) (position align : Nat) :
    ∃ padding, Spare (draft.members.map (·.name)) (gap position align) padding ∧
      (draft.padTo position align).members = draft.members ++ padding :=
  ⟨_, (paddingRun_spare _ _ position draft.nextPadding).1, rfl⟩

/-- A value that is added in place goes behind the padding that aligns it, under a name that
    no member had before. -/
theorem addInPlace_eq_ok {draft next : Draft} {name : String} {value : Value}
    (added : draft.addInPlace name value = .ok next) :
    ∃ cursor padding, draft.cursor = some cursor ∧ name ∉ draft.members.map (·.name) ∧
      Spare (draft.members.map (·.name)) (gap cursor value.type.align) padding ∧
      next.members = draft.members ++ padding ++
        [⟨name, cursor + gap cursor value.type.align, value, false⟩] ∧
      next.cursor = value.type.width?.map (cursor + gap cursor value.type.align + ·) := by
  have placed := place_of_addInPlace added
  have untaken : name ∉ draft.members.map (·.name) := by
    rw [place] at placed
    split at placed
    · contradiction
    · rename_i absent
      simpa using absent
  obtain ⟨cursor, finish, known, ends, rfl⟩ := place_eq_ok placed
  obtain ⟨-, -, rfl⟩ := Ty.finish_eq_ok.mp ends
  obtain ⟨padding, spare, members⟩ := draft.padTo_members cursor value.type.align
  exact ⟨cursor, padding, known, untaken, spare, by rw [← members], rfl⟩

/-- Names and values of the members that are no padding. -/
def stored (members : List (Member Value)) : List (String × Value) :=
  (members.filter (!·.isPadding)).map fun member => (member.name, member.content)

/-- One call stacks the member that it asks for on the others, if it asks for one. -/
theorem perform_stacked {draft next : Draft} {call : Call}
    (before : Stacked draft.members draft.cursor) (performed : draft.perform call = .ok next) :
    Stacked next.members next.cursor ∧
      stored next.members = stored draft.members ++ call.entry?.toList := by
  obtain ⟨name, value, asked, added⟩ | ⟨asked, constants, enums, -, rfl⟩ :=
    perform_eq_ok performed
  · obtain ⟨cursor, padding, known, untaken, spare, members, ended⟩ := addInPlace_eq_ok added
    rw [known] at before
    rw [members, ended]
    refine ⟨.place before untaken spare, ?_⟩
    have silent : padding.filter (!·.isPadding) = [] := by
      simpa using spare.inserted
    simp [stored, silent, Call.entry?, asked]
  · exact ⟨before, by simp [Call.entry?, asked]⟩

/-- Calls stack their members in order. -/
theorem performAll_stacked {start draft : Draft} {calls : List Call}
    (before : Stacked start.members start.cursor)
    (performed : start.performAll calls = .ok draft) :
    Stacked draft.members draft.cursor ∧
      stored draft.members = stored start.members ++ calls.filterMap Call.entry? := by
  induction calls generalizing start with
  | nil =>
    obtain rfl := Except.ok.inj performed
    exact ⟨before, by simp⟩
  | cons call rest ih =>
    obtain ⟨next, first, later⟩ := bind_eq_ok.mp (by simpa [performAll] using performed)
    obtain ⟨stacked, here⟩ := perform_stacked before first
    obtain ⟨all, behind⟩ := ih stacked later
    refine ⟨all, ?_⟩
    rw [behind, here, List.append_assoc, List.filterMap_cons]
    cases call.entry? <;> simp

/-- How a struct's members were stacked: the ones that calls asked for, and behind them the
    padding up to the size. An open record has none. -/
structure Completed (record : Record Value) (calls : List Call) (ending : Ending)
    (members padding : List (Member Value)) (cursor : Option Nat) : Prop where
  stacked : Stacked members cursor
  all : record.members = members ++ padding
  stored : stored members = calls.filterMap Call.entry?
  ended : match ending with
    | .openRecord => padding = [] ∧ record.size = none
    | .finalize align => ∃ finish, cursor = some finish ∧ 0 < align ∧
        Spare (members.map (·.name)) (gap finish align) padding ∧
        record.size = some (finish + gap finish align)

/-- Every struct that calls make is completed from members that they stacked. -/
theorem make_completed {name : String} {calls : List Call} {ending : Ending}
    {record : Record Value} (made : make name calls ending = .ok (.struct record)) :
    ∃ members padding cursor, Completed record calls ending members padding cursor := by
  obtain ⟨start, declared, made⟩ := bind_eq_ok.mp made
  obtain ⟨draft, performed, ended⟩ := bind_eq_ok.mp made
  obtain ⟨_, -, same⟩ := bind_eq_ok.mp declared
  obtain rfl := Except.ok.inj same
  obtain ⟨stacked, entries⟩ := performAll_stacked .nil performed
  cases ending with
  | openRecord =>
    obtain rfl := Value.struct.inj (Except.ok.inj ended)
    exact ⟨draft.members, [], draft.cursor, stacked, by simp, entries, rfl, rfl⟩
  | finalize align =>
    obtain ⟨cursor, known, positive, -, frozen⟩ := finalize_eq_ok ended
    obtain rfl := Value.struct.inj frozen
    obtain ⟨padding, spare, members⟩ := draft.padTo_members cursor align
    exact ⟨draft.members, padding, draft.cursor, stacked, members, entries,
      cursor, known, positive, spare, rfl⟩

/-- A member behind padding is told apart from all before it when it differs from the members
    and from the padding. -/
theorem Spare.namesApart {members padding : List (Member Value)} {count : Nat}
    {member : Member Value} (spare : Spare (members.map (·.name)) count padding)
    (apart : Member.NamesApart members) (untaken : member.name ∉ members.map (·.name))
    (unpadded : member.name ∉ padding.map (·.name)) :
    Member.NamesApart (members ++ padding ++ [member]) := by
  have before : ((members ++ padding).map (·.name)).Nodup := by
    rw [List.map_append]
    refine apart.append spare.apart fun other old new => ?_
    obtain ⟨byte, present, rfl⟩ := List.mem_map.mp new
    exact spare.untaken byte present old
  rw [Member.NamesApart, List.map_append]
  refine before.append (List.nodup_singleton _) fun other old new => ?_
  obtain rfl := List.mem_singleton.mp new
  rw [List.map_append] at old
  exact (List.mem_append.mp old).elim untaken unpadded

namespace Stacked

variable {members : List (Member Value)} {cursor : Option Nat}

/-- Names that differ from the padding directly before them differ from all before them. -/
theorem namesApart (stacked : Stacked members cursor) (apart : Member.PaddingApart members) :
    Member.NamesApart members := by
  induction stacked with
  | nil => exact .nil
  | @place members padding cursor name value _ untaken padded ih =>
    have behind : padding ++ [⟨name, cursor + gap cursor value.type.align, value, false⟩] <:+:
        members ++ padding ++ [⟨name, cursor + gap cursor value.type.align, value, false⟩] := by
      rw [List.append_assoc]
      exact (List.suffix_append ..).isInfix
    exact padded.namesApart (ih apart.left.left) untaken (apart _ _ behind padded.inserted rfl)

/-- Where every member that is no padding is found under its name, names are told apart: the
    padding byte that hides a member is no value that needs padding. -/
theorem namesApart_of_found (stacked : Stacked members cursor)
    (found : ∀ member ∈ members, member.isPadding = false →
      (members.find? (·.name = member.name)).map (·.content) = some member.content) :
    Member.NamesApart members := by
  induction stacked with
  | nil => exact .nil
  | @place members padding cursor name value _ untaken padded ih =>
    have earlier : Member.NamesApart members := by
      refine ih fun member present unpadded => ?_
      obtain ⟨first, hit⟩ : ∃ first, members.find? (·.name = member.name) = some first :=
        Option.isSome_iff_exists.mp (List.find?_isSome.mpr ⟨member, present, by simp⟩)
      have same := found member (by simp [present]) unpadded
      rw [List.append_assoc, List.find?_append, hit] at same
      rwa [hit]
    refine padded.namesApart earlier untaken fun hidden => ?_
    obtain ⟨byte, present, same⟩ := List.mem_map.mp hidden
    have absent : members.find? (·.name = name) = none := by
      simpa using untaken
    obtain ⟨first, hit⟩ : ∃ first, padding.find? (·.name = name) = some first :=
      Option.isSome_iff_exists.mp (List.find?_isSome.mpr ⟨byte, present, by simpa using same⟩)
    have stored := found _ (List.mem_append_right _ (List.mem_singleton_self _)) rfl
    rw [List.append_assoc, List.find?_append, absent, Option.none_or, List.find?_append, hit,
      Option.some_or, Option.map_some, padded.zero first (List.mem_of_find?_eq_some hit)] at stored
    -- a zero byte is aligned everywhere, so there is no padding before it
    obtain rfl : zeroByte = value := Option.some.inj stored
    have none : padding.length = 0 := padded.length.trans (Nat.mod_one _)
    rw [List.eq_nil_of_length_eq_zero none] at present
    contradiction

end Stacked

variable {record : Record Value} {calls : List Call} {ending : Ending}
  {members padding : List (Member Value)} {cursor : Option Nat}

/-- The padding up to the size takes no name that a member has. -/
theorem Completed.namesApart (completed : Completed record calls ending members padding cursor)
    (apart : Member.NamesApart members) : Member.NamesApart record.members := by
  have ended := completed.ended
  rw [completed.all]
  cases ending with
  | openRecord =>
    obtain ⟨rfl, -⟩ := ended
    rwa [List.append_nil]
  | finalize align =>
    obtain ⟨finish, -, -, spare, -⟩ := ended
    rw [Member.NamesApart, List.map_append]
    refine List.Nodup.append apart spare.apart fun name old new => ?_
    obtain ⟨byte, present, rfl⟩ := List.mem_map.mp new
    exact spare.untaken byte present old

/-- The entries of a struct's calls are its members other than padding. -/
theorem Completed.mem_entries (completed : Completed record calls ending members padding cursor)
    {entry : String × Value} :
    entry ∈ calls.filterMap Call.entry? ↔
      ∃ member ∈ members, member.isPadding = false ∧ (member.name, member.content) = entry := by
  rw [← completed.stored]
  simp [Draft.stored, and_assoc]

/-- A member that is no padding hides every later one of its name. -/
theorem Completed.get?_eq (completed : Completed record calls ending members padding cursor)
    {member : Member Value} (present : member ∈ members) :
    record.get? member.name = (members.find? (·.name = member.name)).map (·.content) := by
  obtain ⟨first, hit⟩ : ∃ first, members.find? (·.name = member.name) = some first :=
    Option.isSome_iff_exists.mp (List.find?_isSome.mpr ⟨member, present, by simp⟩)
  rw [Record.get?, Record.member?, completed.all, List.find?_append, hit, Option.some_or]

/-- The names of a struct that calls made are told apart exactly when no member asked for the
    name of a padding byte directly before it, and exactly then every value that was stored
    under a name is found under it. -/
theorem make_namesApart_iff {name : String} {calls : List Call} {ending : Ending}
    {record : Record Value} (made : make name calls ending = .ok (.struct record)) :
    (Member.NamesApart record.members ↔ Member.PaddingApart record.members) ∧
      ((∀ entry ∈ calls.filterMap Call.entry?, record.get? entry.1 = some entry.2) ↔
        Member.PaddingApart record.members) := by
  obtain ⟨members, padding, cursor, completed⟩ := make_completed made
  have sufficient (apart : Member.PaddingApart record.members) : Member.NamesApart members := by
    rw [completed.all] at apart
    exact completed.stacked.namesApart apart.left
  refine ⟨⟨fun apart => apart.paddingApart, fun apart => completed.namesApart (sufficient apart)⟩,
    fun found => ?_, fun apart entry asked => ?_⟩
  · have apart : Member.NamesApart members := by
      refine completed.stacked.namesApart_of_found fun member present unpadded => ?_
      rw [← completed.get?_eq present]
      exact found (member.name, member.content)
        (completed.mem_entries.mpr ⟨member, present, unpadded, rfl⟩)
    exact (completed.namesApart apart).paddingApart
  · obtain ⟨member, present, -, rfl⟩ := completed.mem_entries.mp asked
    rw [completed.get?_eq present, (sufficient apart).find?_eq present, Option.map_some]

section Boundary

/-- A struct of a character and of a number behind three padding bytes, the first of which
    took the name that the number asked for. -/
def hidden : Record Value :=
  ⟨"S", [⟨"c", 0, .char 120, false⟩, ⟨"paddingByte0", 1, zeroByte, true⟩,
    ⟨"paddingByte1", 2, zeroByte, true⟩, ⟨"paddingByte2", 3, zeroByte, true⟩,
    ⟨"paddingByte0", 4, .int ⟨.int32, 7, .refl true⟩, false⟩], 4, some 8, .empty, []⟩

/-- A number that asks for the name of the padding before it is accepted and hidden. -/
theorem make_hidden :
    make "S" [.addChar "c" 'x', .addInt "paddingByte0" .int32 7] (.finalize 4) =
        .ok (.struct hidden) ∧
      ¬ Member.NamesApart hidden.members ∧ hidden.get? "paddingByte0" = some zeroByte := by
  refine ⟨rfl, ?_, rfl⟩
  rw [Member.NamesApart]
  decide

/-- A struct of two numbers, the first under a padding name, which the padding skips. -/
def skipped : Record Value :=
  ⟨"S", [⟨"paddingByte0", 0, .int ⟨.int8, 7, by decide⟩, false⟩,
    ⟨"paddingByte1", 1, zeroByte, true⟩, ⟨"paddingByte2", 2, zeroByte, true⟩,
    ⟨"paddingByte3", 3, zeroByte, true⟩, ⟨"x", 4, .int ⟨.int32, 9, by decide⟩, false⟩],
    4, some 8, .empty, []⟩

/-- Both numbers are found under their names. -/
theorem make_skipped :
    make "S" [.addInt "paddingByte0" .int8 7, .addInt "x" .int32 9] (.finalize 4) =
        .ok (.struct skipped) ∧
      Member.PaddingApart skipped.members ∧
      skipped.get? "paddingByte0" = some (.int ⟨.int8, 7, by decide⟩) ∧
      skipped.get? "x" = some (.int ⟨.int32, 9, by decide⟩) := by
  have made : make "S" [.addInt "paddingByte0" .int8 7, .addInt "x" .int32 9] (.finalize 4) =
      .ok (.struct skipped) := rfl
  have apart : Member.NamesApart skipped.members := by
    rw [Member.NamesApart]
    decide
  obtain ⟨names, found⟩ := make_namesApart_iff made
  have padding := names.mp apart
  exact ⟨made, padding, found.mpr padding ("paddingByte0", _) (List.mem_cons_self ..),
    found.mpr padding ("x", _) (List.mem_cons_of_mem _ (List.mem_cons_self ..))⟩

end Boundary

end Draft
end BinaryLayout
