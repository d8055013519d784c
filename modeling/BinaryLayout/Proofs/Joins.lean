import BinaryLayout.Proofs.Permutation

/-!
# Merging as a join

Merging builds its result from parts of either type, takes parts of one name from the first
one without looking into them, and builds references, tables, arrays and structs in different
ways. All the same it behaves like a join as far as it is defined: a type is its own common
type with itself, the order of the types does not decide whether they have a common one, and
the common type absorbs both. What is merged again and again therefore stays as it is.
-/

namespace BinaryLayout.Ty

/-- The laws of a join that is not defined everywhere, at two types. -/
structure Joins (join : Ty → Ty → Except LayoutError Ty) (a b : Ty) : Prop where
  idempotent : join a a = .ok a
  symmetric : (∃ c, join a b = .ok c) ↔ ∃ c, join b a = .ok c
  absorbs : ∀ c, join a b = .ok c → join c a = .ok c ∧ join c b = .ok c
  accepts : ∀ c, join a b = .ok c → (∃ d, join a c = .ok d) ∧ ∃ d, join b c = .ok d

section Parts

variable {a b c : Ty}

/-- An unknown target adds nothing to another one. -/
theorem known_null_right (merge : Ty → Except LayoutError Ty) (a : Ty) :
    known merge a null = .ok a := by
  cases a <;> rfl

/-- A type that takes in another one does so as a target, too. -/
theorem known_of_merge (merged : a.merge b = .ok a) : known a.merge a b = .ok a := by
  cases unknown : a.isNull with
  | true =>
    obtain rfl := isNull_eq_true.mp unknown
    obtain ⟨rfl, -⟩ := merge_null.mp merged
    rfl
  | false =>
    cases unknown' : b.isNull with
    | true =>
      rw [isNull_eq_true.mp unknown']
      exact known_null_right a.merge a
    | false => exact known_eq_ok.mpr (.inr (.inr ⟨unknown, unknown', merged⟩))

/-- A type that takes in another one does so as a part that is merged on demand. -/
theorem unlessSame_of_merge (merged : a.merge b = .ok a) : unlessSame a.merge a b = .ok a := by
  by_cases named : a.uniqueName = b.uniqueName
  · exact unlessSame_eq_ok.mpr (.inl ⟨named, rfl⟩)
  · exact unlessSame_eq_ok.mpr (.inr ⟨named, merged⟩)

end Parts

section Idempotence

/-- Parts of one type have one name. -/
theorem unlessSame_self (type : Ty) : unlessSame type.merge type type = .ok type :=
  unlessSame_eq_ok.mpr (.inl ⟨rfl, rfl⟩)

theorem mergeMembers_self (members : List (Member Ty)) :
    mergeMembers members members = .ok members := by
  induction members with
  | nil => exact mergeMembers_nil
  | cons member rest ih =>
    exact mergeMembers_cons.mpr ⟨member.content, rest, unlessSame_self member.content, ih, rfl⟩

/-- Every type is its common type with itself. -/
theorem merge_self (type : Ty) : type.merge type = .ok type := by
  induction type using Ty.induction with
  | ref target width ih => exact merge_ref.mpr ⟨target, target, rfl, known_of_merge ih, rfl⟩
  | array element fixed align _ =>
    exact merge_array.mpr ⟨element, element, rfl, unlessSame_self element, rfl⟩
  | refTable target fixed width _ =>
    exact merge_refTable.mpr ⟨target, target, rfl, rfl, .inl ⟨rfl, rfl⟩⟩
  | struct record _ =>
    exact merge_struct.mpr
      ⟨record, record.members, rfl, rfl, rfl, rfl, mergeMembers_self record.members, rfl⟩
  | _ => exact merge_self_of_leaf rfl

theorem known_self (type : Ty) : known type.merge type type = .ok type :=
  known_of_merge (merge_self type)

end Idempotence

section Symmetry

variable {a b c : Ty}

/-- Targets have a common type in both orders when they merge in both. -/
theorem known_symm (swapped : ∀ c, a.merge b = .ok c → ∃ d, b.merge a = .ok d)
    (merged : known a.merge a b = .ok c) : ∃ d, known b.merge b a = .ok d := by
  apply exists_known
  rcases known_eq_ok.mp merged with ⟨unknown, -⟩ | ⟨-, unknown, -⟩ | ⟨-, -, inner⟩
  · exact .inr (.inl unknown)
  · exact .inl unknown
  · exact .inr (.inr (swapped c inner))

/-- Parts are merged on demand in both orders when they merge in both. -/
theorem unlessSame_symm (swapped : ∀ c, a.merge b = .ok c → ∃ d, b.merge a = .ok d)
    (merged : unlessSame a.merge a b = .ok c) : ∃ d, unlessSame b.merge b a = .ok d := by
  rcases unlessSame_eq_ok.mp merged with ⟨named, -⟩ | ⟨-, inner⟩
  · exact ⟨b, unlessSame_eq_ok.mpr (.inl ⟨named.symm, rfl⟩)⟩
  · exact exists_unlessSame (swapped c inner)

/-- Which of two well-formed types comes first does not decide whether they merge. That a
    table has no references as targets matters here: merging checks it only for targets whose
    names differ. -/
theorem merge_symm (first : a.WellFormed) (second : b.WellFormed) (merged : a.merge b = .ok c) :
    ∃ d, b.merge a = .ok d := by
  induction a using Ty.induction generalizing b c with
  | int kind => obtain ⟨rfl, -⟩ := merge_int.mp merged; exact ⟨c, merged⟩
  | char => obtain ⟨rfl, -⟩ := merge_char.mp merged; exact ⟨c, merged⟩
  | null => obtain ⟨rfl, -⟩ := merge_null.mp merged; exact ⟨c, merged⟩
  | ref target width ih =>
    obtain ⟨other, common, rfl, targets, -⟩ := merge_ref.mp merged
    cases first with
    | ref _ sound =>
    cases second with
    | ref _ sound' =>
    obtain ⟨common', targets'⟩ := known_symm (fun _ inner => ih sound sound' inner) targets
    exact ⟨ref common' width, merge_ref.mpr ⟨target, common', rfl, targets', rfl⟩⟩
  | array element fixed align ih =>
    obtain ⟨other, common, rfl, elements, -⟩ := merge_array.mp merged
    cases first with
    | array _ sound _ _ _ =>
    cases second with
    | array _ sound' _ _ _ =>
    obtain ⟨common', elements'⟩ := unlessSame_symm (fun _ inner => ih sound sound' inner) elements
    exact ⟨array common' fixed align, merge_array.mpr ⟨element, common', rfl, elements', rfl⟩⟩
  | refTable target fixed width ih =>
    obtain ⟨other, common, rfl, -, targets⟩ := merge_refTable.mp merged
    cases first with
    | refTable _ _ sound direct =>
    cases second with
    | refTable _ _ sound' direct' =>
    refine (mergesTables direct' direct).mpr ⟨rfl, rfl, ?_⟩
    rcases targets with ⟨named, -⟩ | ⟨-, targets, -⟩
    · exact .inl named.symm
    · exact .inr (known_symm (fun _ inner => ih sound sound' inner) targets)
  | bitField type => obtain ⟨rfl, -⟩ := merge_bitField.mp merged; exact ⟨c, merged⟩
  | bitTable type => obtain ⟨rfl, -⟩ := merge_bitTable.mp merged; exact ⟨c, merged⟩
  | enum type => obtain ⟨rfl, -⟩ := merge_enum.mp merged; exact ⟨c, merged⟩
  | struct record ih =>
    obtain ⟨other, members, rfl, named, sized, names, parts, -⟩ := merge_struct.mp merged
    have swapped : List.Forall₂ (fun a b => ∃ d,
        unlessSame b.content.merge b.content a.content = .ok d) record.members other.members := by
      refine mergeMembers_pairs parts names fun a ina b inb c part => ?_
      exact unlessSame_symm
        (fun _ inner => ih a ina (first.member a ina) (second.member b inb) inner) part
    obtain ⟨members', parts'⟩ := exists_mergeMembers swapped.flip
    exact ⟨_, merge_struct.mpr
      ⟨record, members', rfl, named.symm, sized.symm, names.symm, parts', rfl⟩⟩

end Symmetry

section Absorption

variable {a b c : Ty}

/-- The common type of a type with any other one takes in both. -/
def Absorbed (a : Ty) : Prop :=
  ∀ b c, a.merge b = .ok c → c.merge a = .ok c ∧ c.merge b = .ok c

/-- The common target takes in both targets. -/
theorem Absorbed.known (absorbed : a.Absorbed) (merged : known a.merge a b = .ok c) :
    Ty.known c.merge c a = .ok c ∧ Ty.known c.merge c b = .ok c := by
  rcases known_eq_ok.mp merged with ⟨rfl, rfl⟩ | ⟨-, rfl, rfl⟩ | ⟨-, -, inner⟩
  · exact ⟨known_null_right c.merge c, known_self c⟩
  · exact ⟨known_self c, known_null_right c.merge c⟩
  · obtain ⟨first, second⟩ := absorbed b c inner
    exact ⟨known_of_merge first, known_of_merge second⟩

/-- The common type of two parts takes in both of them on demand. If they have one name, it is
    the first one and has that name, too. -/
theorem Absorbed.unlessSame (absorbed : a.Absorbed) (merged : unlessSame a.merge a b = .ok c) :
    Ty.unlessSame c.merge c a = .ok c ∧ Ty.unlessSame c.merge c b = .ok c := by
  rcases unlessSame_eq_ok.mp merged with ⟨named, rfl⟩ | ⟨-, inner⟩
  · exact ⟨unlessSame_self c, unlessSame_eq_ok.mpr (.inl ⟨named, rfl⟩)⟩
  · obtain ⟨first, second⟩ := absorbed b c inner
    exact ⟨unlessSame_of_merge first, unlessSame_of_merge second⟩

/-- Merged members take in both lists of members. -/
theorem mergeMembers_absorb {as bs members : List (Member Ty)}
    (absorbed : ∀ a ∈ as, a.content.Absorbed) (names : as.map (·.name) = bs.map (·.name))
    (merged : mergeMembers as bs = .ok members) :
    mergeMembers members as = .ok members ∧ mergeMembers members bs = .ok members := by
  induction as generalizing bs members with
  | nil =>
    obtain rfl : members = [] := by simpa [eq_comm] using merged
    exact ⟨mergeMembers_nil, mergeMembers_nil⟩
  | cons a as ih =>
    cases bs with
    | nil => simp at names
    | cons b bs =>
      obtain ⟨content, rest, part, later, rfl⟩ := mergeMembers_cons.mp merged
      obtain ⟨here, behind⟩ := List.forall_mem_cons.mp absorbed
      obtain ⟨first, second⟩ := here.unlessSame part
      obtain ⟨firsts, seconds⟩ := ih behind (List.cons.inj names).2 later
      exact ⟨mergeMembers_cons.mpr ⟨content, rest, first, firsts, rfl⟩,
        mergeMembers_cons.mpr ⟨content, rest, second, seconds, rfl⟩⟩

/-- Merging a common type with one of the types it comes from changes nothing. -/
theorem merge_absorbed (type : Ty) : type.Absorbed := by
  induction type using Ty.induction with
  | int kind =>
    intro b c merged
    obtain ⟨rfl, rfl⟩ := merge_int.mp merged
    exact ⟨merged, merged⟩
  | char =>
    intro b c merged
    obtain ⟨rfl, rfl⟩ := merge_char.mp merged
    exact ⟨merged, merged⟩
  | null =>
    intro b c merged
    obtain ⟨rfl, rfl⟩ := merge_null.mp merged
    exact ⟨merged, merged⟩
  | ref target width ih =>
    intro b c merged
    obtain ⟨other, common, rfl, targets, rfl⟩ := merge_ref.mp merged
    obtain ⟨first, second⟩ := ih.known targets
    exact ⟨merge_ref.mpr ⟨target, common, rfl, first, rfl⟩,
      merge_ref.mpr ⟨other, common, rfl, second, rfl⟩⟩
  | array element fixed align ih =>
    intro b c merged
    obtain ⟨other, common, rfl, elements, rfl⟩ := merge_array.mp merged
    obtain ⟨first, second⟩ := ih.unlessSame elements
    exact ⟨merge_array.mpr ⟨element, common, rfl, first, rfl⟩,
      merge_array.mpr ⟨other, common, rfl, second, rfl⟩⟩
  | refTable target fixed width ih =>
    intro b c merged
    obtain ⟨other, common, rfl, rfl, targets⟩ := merge_refTable.mp merged
    have takes {part : Ty} (known : known common.merge common part = .ok common)
        (direct : common.isRef = false) :
        (refTable common fixed width).merge (refTable part fixed width) =
          .ok (refTable common fixed width) := by
      by_cases named : common.uniqueName = part.uniqueName
      · exact merge_refTable.mpr ⟨part, common, rfl, rfl, .inl ⟨named, rfl⟩⟩
      · exact merge_refTable.mpr ⟨part, common, rfl, rfl, .inr ⟨named, known, direct⟩⟩
    rcases targets with ⟨named, rfl⟩ | ⟨-, targets, direct⟩
    · exact ⟨merge_self _, merged⟩
    · obtain ⟨first, second⟩ := ih.known targets
      exact ⟨takes first direct, takes second direct⟩
  | bitField type =>
    intro b c merged
    obtain ⟨rfl, rfl⟩ := merge_bitField.mp merged
    exact ⟨merged, merged⟩
  | bitTable type =>
    intro b c merged
    obtain ⟨rfl, rfl⟩ := merge_bitTable.mp merged
    exact ⟨merged, merged⟩
  | enum type =>
    intro b c merged
    obtain ⟨rfl, rfl⟩ := merge_enum.mp merged
    exact ⟨merged, merged⟩
  | struct record ih =>
    intro b c merged
    obtain ⟨other, members, rfl, named, sized, names, parts, rfl⟩ := merge_struct.mp merged
    obtain ⟨firsts, seconds⟩ := mergeMembers_absorb ih names parts
    have kept : members.map (·.name) = record.members.map (·.name) := by
      have places := congrArg (List.map Prod.fst) (mergeMembers_laidAlike parts names).places
      rwa [List.map_map, List.map_map] at places
    exact ⟨merge_struct.mpr ⟨record, members, rfl, rfl, rfl, kept, firsts, rfl⟩,
      merge_struct.mpr ⟨other, members, rfl, named, sized, kept.trans names, seconds, rfl⟩⟩

end Absorption

/-- Merging built types follows the laws of a join, and so does merging types of which either
    may be unknown. -/
theorem merge_joins {a b : Ty} (first : a.Built) (second : b.Built) :
    Joins merge a b ∧ Joins mergeKnown a b := by
  have sound := first.wellFormed
  have sound' := second.wellFormed
  constructor
  · constructor
    case idempotent => exact merge_self a
    case symmetric =>
      constructor
      · rintro ⟨c, merged⟩
        exact merge_symm sound sound' merged
      · rintro ⟨c, merged⟩
        exact merge_symm sound' sound merged
    case absorbs => exact fun c merged => merge_absorbed a b c merged
    case accepts =>
      intro c merged
      have common := sound.merge sound' merged
      obtain ⟨takesFirst, takesSecond⟩ := merge_absorbed a b c merged
      exact ⟨merge_symm common sound takesFirst, merge_symm common sound' takesSecond⟩
  · constructor
    case idempotent => exact known_self a
    case symmetric =>
      constructor
      · rintro ⟨c, merged⟩
        exact known_symm (fun _ inner => merge_symm sound sound' inner) merged
      · rintro ⟨c, merged⟩
        exact known_symm (fun _ inner => merge_symm sound' sound inner) merged
    case absorbs => exact fun c merged => (merge_absorbed a).known merged
    case accepts =>
      intro c merged
      have common := sound.mergeKnown sound' merged
      obtain ⟨takesFirst, takesSecond⟩ := (merge_absorbed a).known merged
      exact ⟨known_symm (fun _ inner => merge_symm common sound inner) takesFirst,
        known_symm (fun _ inner => merge_symm common sound' inner) takesSecond⟩

section Boundary

/-- A struct of two references that state their targets. -/
def twoTargets (first second : Value) : Ty :=
  (Value.struct ⟨"S", [⟨"x", 0, first, false⟩, ⟨"y", 4, second, false⟩], 4, some 8, .empty,
    []⟩).type

/-- Such a struct is built when it can be laid out. -/
theorem twoTargets_built {first second : Value} (built : first.Built) (built' : second.Built)
    (laid : Draft.layOut "S" [("x", first), ("y", second)] =
      .ok (.struct ⟨"S", [⟨"x", 0, first, false⟩, ⟨"y", 4, second, false⟩], 4, some 8, .empty,
        []⟩)) : (twoTargets first second).Built := by
  refine .ofValue (Draft.layOut_built (fun member present => ?_) laid)
  simp only [List.mem_cons, List.not_mem_nil, or_false] at present
  rcases present with rfl | rfl
  · exact built
  · exact built'

/-- Of two structs, each knows a target that the other one does not know. Their common type
    differs from both. -/
theorem twoTargets_joins :
    (twoTargets (.nullRef .char .w32) (.nullRef .null .w32)).merge
        (twoTargets (.nullRef .null .w32) (.nullRef (.int .int8) .w32)) =
      .ok (twoTargets (.nullRef .char .w32) (.nullRef (.int .int8) .w32)) ∧
    Joins merge (twoTargets (.nullRef .char .w32) (.nullRef .null .w32))
      (twoTargets (.nullRef .null .w32) (.nullRef (.int .int8) .w32)) ∧
    Joins mergeKnown (twoTargets (.nullRef .char .w32) (.nullRef .null .w32))
      (twoTargets (.nullRef .null .w32) (.nullRef (.int .int8) .w32)) := by
  refine ⟨rfl, merge_joins ?_ ?_⟩
  · exact twoTargets_built (.nullRef .w32 .char) (.nullRef .w32 .null) rfl
  · exact twoTargets_built (.nullRef .w32 .null) (.nullRef .w32 (.int .int8)) rfl

end Boundary

end BinaryLayout.Ty
