import BinaryLayout.Proofs.Construction

/-!
# Which types merge

Compatible types differ in nothing but unknown targets. Merging accepts every
compatible pair, but not only those: parts with equal unique names are not looked
into, and a unique name does not tell what a struct or an enumeration contains. The
main law says that nothing else is accepted. A merge is a merge of compatible types
exactly when no such pair of parts hides a conflict, and only then do both types and
their common one take the same room.
-/

namespace BinaryLayout.Ty

mutual

/-- Two types differ in nothing but unknown targets. Constants and enumerations beside
    a struct do not count. -/
def compatible : Ty → Ty → Bool
  | int a, int b => a = b
  | char, char => true
  | null, null => true
  | ref a v, ref b w => v = w && (a.isNull || b.isNull || compatible a b)
  | array a m p, array b n q => m = n && p = q && compatible a b
  | refTable a m v, refTable b n w =>
      m = n && v = w && (a.isNull || b.isNull || compatible a b)
  | bitField a, bitField b => a = b
  | bitTable a, bitTable b => a = b
  | enum a, enum b => a = b
  | struct ⟨m, as, _, s, _, _⟩, struct ⟨n, bs, _, t, _, _⟩ =>
      m = n && s = t && compatibleMembers as bs
  | _, _ => false

/-- Members agree in name and differ one by one in nothing but unknown targets. -/
def compatibleMembers : List (Member Ty) → List (Member Ty) → Bool
  | [], [] => true
  | ⟨m, _, a, _⟩ :: as, ⟨n, _, b, _⟩ :: bs =>
      m = n && compatible a b && compatibleMembers as bs
  | _, _ => false

end

mutual

/-- Some parts that merging compares share their unique name and are not compatible. -/
def hidesConflict : Ty → Ty → Bool
  | ref a _, ref b _ => !(a.isNull || b.isNull) && hidesConflict a b
  | array a _ _, array b _ _ =>
      if a.uniqueName = b.uniqueName then !compatible a b else hidesConflict a b
  | refTable a _ _, refTable b _ _ =>
      !(a.isNull || b.isNull) &&
        if a.uniqueName = b.uniqueName then !compatible a b else hidesConflict a b
  | struct ⟨_, as, _, _, _, _⟩, struct ⟨_, bs, _, _, _, _⟩ => membersHideConflict as bs
  | _, _ => false

/-- Some members that stand in the same place hide a conflict. -/
def membersHideConflict : List (Member Ty) → List (Member Ty) → Bool
  | ⟨_, _, a, _⟩ :: as, ⟨_, _, b, _⟩ :: bs =>
      (if a.uniqueName = b.uniqueName then !compatible a b else hidesConflict a b) ||
        membersHideConflict as bs
  | _, _ => false

end

/-- The pair is merged, and nothing that merging passes over is in conflict. -/
def MergesOpenly (a b : Ty) : Prop :=
  (∃ c, a.merge b = .ok c) ∧ a.hidesConflict b = false

section Parts

variable {a b : Ty} (exact : a.compatible b = true ↔ a.MergesOpenly b)

include exact

/-- Parts that are merged on demand: either the names agree and the parts are trusted,
    or merging looks into them. -/
theorem unlessSame_openly :
    a.compatible b = true ↔ (∃ c, unlessSame a.merge a b = .ok c) ∧
      (if a.uniqueName = b.uniqueName then !a.compatible b else a.hidesConflict b) = false := by
  by_cases same : a.uniqueName = b.uniqueName
  · simp [unlessSame, same]
  · simpa [unlessSame, same, MergesOpenly] using exact

/-- Targets: an unknown one is compatible with every other one. -/
theorem known_openly :
    (a.isNull || b.isNull || a.compatible b) = true ↔ (∃ c, known a.merge a b = .ok c) ∧
      (!(a.isNull || b.isNull) && a.hidesConflict b) = false := by
  cases first : a.isNull <;> cases second : b.isNull <;> simp [known, first, second]
  simpa [MergesOpenly] using exact

/-- Targets of tables: an unknown one is compatible with every other one, and known ones
    are looked into where their names differ. -/
theorem targets_openly :
    (a.isNull || b.isNull || a.compatible b) = true ↔
      (a.uniqueName = b.uniqueName ∨ ∃ c, known a.merge a b = .ok c) ∧
        (!(a.isNull || b.isNull) &&
          if a.uniqueName = b.uniqueName then !a.compatible b else a.hidesConflict b) = false := by
  by_cases same : a.uniqueName = b.uniqueName
  · cases first : a.isNull <;> cases second : b.isNull <;> simp [same]
  · simpa [same] using known_openly exact

end Parts

/-- Tables of direct targets merge when they state the same and either share the name of
    their target or have a common one. -/
theorem mergesTables {a b : Ty} {fixed count : Option Nat} {width place : RefWidth}
    (first : a.isRef = false) (second : b.isRef = false) :
    (∃ c, (refTable a fixed width).merge (refTable b count place) = .ok c) ↔
      fixed = count ∧ width = place ∧
        (a.uniqueName = b.uniqueName ∨ ∃ c, known a.merge a b = .ok c) := by
  constructor
  · rintro ⟨c, merged⟩
    obtain ⟨target, common, alike, -, targets⟩ := merge_refTable.mp merged
    obtain ⟨rfl, rfl, rfl⟩ := refTable.inj alike
    exact ⟨rfl, rfl, targets.imp (·.1) fun named => ⟨common, named.2.1⟩⟩
  · rintro ⟨rfl, rfl, targets⟩
    by_cases same : a.uniqueName = b.uniqueName
    · exact ⟨_, merge_refTable.mpr ⟨b, a, rfl, rfl, .inl ⟨same, rfl⟩⟩⟩
    · obtain ⟨common, merged⟩ := targets.resolve_left same
      exact ⟨_, merge_refTable.mpr ⟨b, common, rfl, rfl,
        .inr ⟨same, merged, known_isRef merged first second⟩⟩⟩

/-- Members are compatible when they agree in name and merge openly one by one. -/
theorem mergeMembers_openly {as bs : List (Member Ty)}
    (exact : ∀ a ∈ as, ∀ b ∈ bs,
      a.content.compatible b.content = true ↔ a.content.MergesOpenly b.content) :
    compatibleMembers as bs = true ↔
      as.map (·.name) = bs.map (·.name) ∧ (∃ members, mergeMembers as bs = .ok members) ∧
        membersHideConflict as bs = false := by
  induction as generalizing bs with
  | nil => cases bs <;> simp [compatibleMembers, membersHideConflict]
  | cons a as ih =>
    cases bs with
    | nil => simp [compatibleMembers]
    | cons b bs =>
      have first := unlessSame_openly (exact a (by simp) b (by simp))
      have rest := @ih bs fun a ina b inb => exact a (by simp [ina]) b (by simp [inb])
      simp only [compatibleMembers, Bool.and_eq_true, decide_eq_true_eq, first, rest,
        mergeMembers_cons, membersHideConflict, Bool.or_eq_false_iff, List.map_cons,
        List.cons.injEq]
      grind

/-- Compatible types are those that merge with nothing hidden. -/
theorem compatible_iff_mergesOpenly {a b : Ty} (first : a.WellFormed) (second : b.WellFormed) :
    a.compatible b = true ↔ a.MergesOpenly b := by
  induction a using Ty.induction generalizing b with
  | int kind => cases b <;> simp [compatible, MergesOpenly, hidesConflict, merge_int]; grind
  | char => cases b <;> simp [compatible, MergesOpenly, hidesConflict, merge_char]
  | null => cases b <;> simp [compatible, MergesOpenly, hidesConflict, merge_null]
  | ref target width ih =>
    cases b with
    | ref other place =>
      cases first with
      | ref _ sound =>
      cases second with
      | ref _ sound' =>
      have targets := known_openly (ih sound sound')
      simp only [compatible, MergesOpenly, hidesConflict, merge_ref, Bool.and_eq_true,
        decide_eq_true_eq, targets]
      grind
    | _ => simp [compatible, MergesOpenly, merge_ref]
  | array element fixed align ih =>
    cases b with
    | array other count place =>
      cases first with
      | array _ sound _ _ _ =>
      cases second with
      | array _ sound' _ _ _ =>
      have elements := unlessSame_openly (ih sound sound')
      simp only [compatible, MergesOpenly, hidesConflict, merge_array, Bool.and_eq_true,
        decide_eq_true_eq, elements]
      grind
    | _ => simp [compatible, MergesOpenly, merge_array]
  | refTable target fixed width ih =>
    cases b with
    | refTable other count place =>
      cases first with
      | refTable _ _ sound direct =>
      cases second with
      | refTable _ _ sound' direct' =>
      have targets := targets_openly (ih sound sound')
      have accepted := @mergesTables target other fixed count width place direct direct'
      simp only [compatible, MergesOpenly, hidesConflict, Bool.and_eq_true, decide_eq_true_eq,
        targets, accepted, and_assoc]
    | _ => simp [compatible, MergesOpenly, merge_refTable]
  | bitField type =>
    cases b <;> simp [compatible, MergesOpenly, hidesConflict, merge_bitField]; grind
  | bitTable type =>
    cases b <;> simp [compatible, MergesOpenly, hidesConflict, merge_bitTable]; grind
  | enum type => cases b <;> simp [compatible, MergesOpenly, hidesConflict, merge_enum]; grind
  | struct record ih =>
    cases b with
    | struct other =>
      cases first with
      | struct _ sound _ _ _ =>
      cases second with
      | struct _ sound' _ _ _ =>
      have members := mergeMembers_openly fun a ina b inb =>
        ih a ina (sound a ina) (sound' b inb)
      cases record
      cases other
      simp only [compatible, MergesOpenly, hidesConflict, merge_struct, Bool.and_eq_true,
        decide_eq_true_eq, members]
      grind
    | _ => cases record; simp [compatible, MergesOpenly, merge_struct]

/-- Compatible members agree in name and are compatible one by one. -/
theorem compatibleMembers_forall {as bs : List (Member Ty)} (alike : compatibleMembers as bs = true) :
    List.Forall₂ (fun a b => a.name = b.name ∧ a.content.compatible b.content = true) as bs := by
  induction as generalizing bs with
  | nil => cases bs <;> simp_all [compatibleMembers]
  | cons a as ih =>
    cases bs with
    | nil => simp [compatibleMembers] at alike
    | cons b bs =>
      simp only [compatibleMembers, Bool.and_eq_true, decide_eq_true_eq] at alike
      exact .cons alike.1 (ih alike.2)

/-- Compatible types take the same room. For structs this rests on their members: the
    sizes are compared, but the alignment follows from the members. -/
theorem compatible_storedAlike {a b : Ty} (first : a.WellFormed) (second : b.WellFormed)
    (alike : a.compatible b = true) : StoredAlike a b := by
  induction a using Ty.induction generalizing b with
  | ref target width ih =>
    cases b with
    | ref other place =>
      simp only [compatible, Bool.and_eq_true, decide_eq_true_eq] at alike
      obtain ⟨rfl, -⟩ := alike
      exact ⟨rfl, rfl, rfl⟩
    | _ => simp [compatible] at alike
  | array element fixed align ih =>
    cases b with
    | array other count place =>
      simp only [compatible, Bool.and_eq_true, decide_eq_true_eq] at alike
      obtain ⟨⟨rfl, rfl⟩, elements⟩ := alike
      cases first with
      | array _ sound _ _ _ =>
      cases second with
      | array _ sound' _ _ _ =>
      exact (ih sound sound' elements).array fixed align
    | _ => simp [compatible] at alike
  | refTable target fixed width ih =>
    cases b with
    | refTable other count place =>
      simp only [compatible, Bool.and_eq_true, decide_eq_true_eq] at alike
      obtain ⟨⟨rfl, rfl⟩, -⟩ := alike
      exact .refTable target other fixed width
    | _ => simp [compatible] at alike
  | struct record ih =>
    cases b with
    | struct other =>
      obtain ⟨name, members, align, size, constants, enums⟩ := record
      obtain ⟨name', members', align', size', constants', enums'⟩ := other
      simp only [compatible, Bool.and_eq_true, decide_eq_true_eq] at alike
      obtain ⟨⟨rfl, rfl⟩, pairs⟩ := alike
      cases first with
      | struct _ sound widest _ _ =>
      cases second with
      | struct _ sound' widest' _ _ =>
      have pairs := compatibleMembers_forall pairs
      have aligns : List.Forall₂ (fun a b => a.content.align = b.content.align)
          members members' := by
        refine List.forall₂_iff_get.mpr ⟨pairs.length_eq, fun i inFirst inSecond => ?_⟩
        have present := List.get_mem members ⟨i, inFirst⟩
        have present' := List.get_mem members' ⟨i, inSecond⟩
        exact (ih _ present (sound _ present) (sound' _ present')
          (pairs.get inFirst inSecond).2).align
      exact ⟨rfl, widest.trans ((widestAlign_congr aligns).trans widest'.symm), rfl⟩
    | _ => cases record; simp [compatible] at alike
  | int kind => cases b <;> simp_all [compatible, StoredAlike.refl]
  | char => cases b <;> simp_all [compatible, StoredAlike.refl]
  | null => cases b <;> simp_all [compatible, StoredAlike.refl]
  | bitField type => cases b <;> simp_all [compatible, StoredAlike.refl]
  | bitTable type => cases b <;> simp_all [compatible, StoredAlike.refl]
  | enum type => cases b <;> simp_all [compatible, StoredAlike.refl]

/-- A pair is merged exactly when it is compatible, and then both types and their common
    one take the same room. -/
def MergesExactly (a b : Ty) : Prop :=
  ((∃ c, a.merge b = .ok c) ↔ a.compatible b = true) ∧
    ∀ c, a.merge b = .ok c → StoredAlike a b ∧ StoredAlike c a

/-- Merging is exact on a pair of built types unless it passes over a conflict in them and
    accepts the pair. -/
theorem mergesExactly_iff {a b : Ty} (first : a.Built) (second : b.Built) :
    a.MergesExactly b ↔ (a.hidesConflict b = true → ∀ c, a.merge b ≠ .ok c) := by
  have openly := compatible_iff_mergesOpenly first.wellFormed second.wellFormed
  constructor
  · rintro ⟨exact, -⟩ hidden c merged
    obtain ⟨-, shown⟩ := openly.mp (exact.mp ⟨c, merged⟩)
    simp [hidden] at shown
  · intro seen
    have alike : (∃ c, a.merge b = .ok c) → a.compatible b = true := by
      rintro ⟨c, merged⟩
      refine openly.mpr ⟨⟨c, merged⟩, ?_⟩
      by_contra hidden
      exact seen (by simpa using hidden) c merged
    refine ⟨⟨alike, fun same => (openly.mp same).1⟩, fun c merged => ⟨?_, merge_storedAlike merged⟩⟩
    exact compatible_storedAlike first.wellFormed second.wellFormed (alike ⟨c, merged⟩)

section Hidden

set_option maxRecDepth 10000

/-- The type of arrays of one struct of 32-bit integers. -/
def oneOf (names : List String) : Ty :=
  array (Value.zeros names).type (some 1) 4

/-- Such a type is built when its struct is. -/
theorem oneOf_built {names : List String} (built : (Value.zeros names).Built) :
    (oneOf names).Built :=
  .arrayOf (.ofValue built) (show Ty.arrayOf (Value.zeros names).type (some 1) none = _ from rfl)

/-- Nothing is hidden in a pair of equal types. -/
theorem oneOf_mergesExactly : (oneOf ["x"]).MergesExactly (oneOf ["x"]) := by
  have built : (oneOf ["x"]).Built := oneOf_built (Value.zeros_built rfl)
  refine (mergesExactly_iff built built).mpr fun hidden => ?_
  simp [show (oneOf ["x"]).hidesConflict (oneOf ["x"]) = false by rfl] at hidden

/-- Arrays of two structs of one name merge although their elements differ in members and
    size: an array type is compared with another one by the unique name of its elements. -/
theorem oneOf_hidesMember :
    (oneOf ["x"]).Built ∧ (oneOf ["x", "y"]).Built ∧
      (oneOf ["x"]).merge (oneOf ["x", "y"]) = .ok (oneOf ["x"]) ∧
      (oneOf ["x"]).compatible (oneOf ["x", "y"]) = false ∧
      ¬ (oneOf ["x"]).MergesExactly (oneOf ["x", "y"]) := by
  have merged : (oneOf ["x"]).merge (oneOf ["x", "y"]) = .ok (oneOf ["x"]) := rfl
  have differ : (oneOf ["x"]).compatible (oneOf ["x", "y"]) = false := rfl
  refine ⟨oneOf_built (Value.zeros_built rfl), oneOf_built (Value.zeros_built rfl), merged,
    differ, fun exact => ?_⟩
  have alike := exact.1.mp ⟨_, merged⟩
  simp [differ] at alike

end Hidden

end BinaryLayout.Ty
