import BinaryLayout.Proofs.Construction
import Mathlib.Data.List.Induction
import Mathlib.Data.List.Nodup
import Mathlib.Data.List.Perm.Subperm

/-!
# Rows given by name

A row of a bit field array may be given as named values in any order. Each value goes into the
slot of its field, and the row that is appended is made of the slots. As there are as many values
as fields, and none goes into a slot that is taken, every slot is filled in the end. So the row
is whole, and what is appended does not depend on the order. Whatever else is given is refused,
and why is said here without the slots.
-/

namespace BinaryLayout

namespace TableItem

/-- Integers are stored in 31 bits. -/
def InRange : TableItem → Prop
  | int value => 0 ≤ value.toInt ∧ value.toInt < 2147483648
  | blob _ => True

variable {item : TableItem}

theorem check_eq_ok : item.check = .ok () ↔ item.InRange := by
  cases item with
  | int value => simp [check, InRange, limit]
  | blob content => simp [check, InRange]

theorem check_eq_error {refusal : LayoutError} :
    item.check = .error refusal ↔ ∃ value, item = .int value ∧ ¬ item.InRange ∧
      refusal = .valueRange (toString value.toInt) "bit field array entry" := by
  cases item with
  | int value =>
    by_cases fits : 0 ≤ value.toInt ∧ value.toInt < limit
    · have inRange : (int value).InRange := fits
      simp [check, fits, inRange]
    · have outside : ¬ (int value).InRange := fits
      simp only [check, if_neg fits, Except.error.injEq, TableItem.int.injEq]
      constructor
      · rintro rfl
        exact ⟨value, rfl, outside, rfl⟩
      · rintro ⟨_, rfl, -, rfl⟩
        rfl
  | blob content => simp [check]

end TableItem

namespace BitTable

/-- Fields that pass their checks are distinct. -/
theorem checkAll_nodup {checked fields result : List String}
    (accepted : BitTableType.checkAll checked fields = .ok result) (before : checked.Nodup) :
    result.Nodup := by
  induction fields generalizing checked with
  | nil =>
    obtain rfl := Except.ok.inj accepted
    exact before
  | cons field rest ih =>
    simp only [BitTableType.checkAll, bind_eq_ok] at accepted
    obtain ⟨_, -, accepted⟩ := accepted
    split at accepted
    · contradiction
    · split at accepted
      · contradiction
      · rename_i fresh
        apply ih accepted
        rw [List.nodup_append]
        refine ⟨before, List.nodup_singleton field, ?_⟩
        intro name present other here same
        obtain rfl := List.mem_singleton.mp here
        exact fresh (List.contains_iff_mem.mpr (same ▸ present))

/-- The fields of a bit field array are distinct. -/
theorem Built.nodup_fields {table : BitTable} (built : table.Built) :
    table.type.fields.Nodup := by
  induction built with
  | declare declared =>
    obtain ⟨type, made, same⟩ := bind_eq_ok.mp declared
    obtain rfl := Except.ok.inj same
    obtain ⟨_, -, made⟩ := bind_eq_ok.mp made
    split at made
    · contradiction
    · obtain ⟨checked, accepted, same⟩ := bind_eq_ok.mp made
      obtain rfl := Except.ok.inj same
      exact checkAll_nodup accepted List.nodup_nil
  | push _ appended ih =>
    obtain ⟨-, -, rfl⟩ := push_eq_ok.mp appended
    exact ih

/-- The names of a row are those of all fields, each of them once. -/
def NamesEach (type : BitTableType) (row : List (String × TableItem)) : Prop :=
  (row.map (·.1)).Perm type.fields

/-- The value that a row names for a field. -/
def named? (row : List (String × TableItem)) (field : String) : Option TableItem :=
  List.lookup field row

/-- The values of a row in the order of the fields. -/
def inOrder (type : BitTableType) (row : List (String × TableItem)) : List TableItem :=
  type.fields.filterMap (named? row)

/-- The names of a row are names of fields, none of them twice. -/
structure NamesSome (type : BitTableType) (row : List (String × TableItem)) : Prop where
  known : ∀ name ∈ row.map (·.1), name ∈ type.fields
  distinct : (row.map (·.1)).Nodup

/-- The first name that is no field, or was given before, and how it is reported. -/
inductive Misnames (type : BitTableType) (row : List (String × TableItem)) : LayoutError → Prop
  | unknown {before after : List (String × TableItem)} {field : String} {item : TableItem}
      (split : row = before ++ (field, item) :: after) (earlier : NamesSome type before)
      (missing : field ∉ type.fields) :
      Misnames type row (.structural (.unknownField type.name field))
  | again {before after : List (String × TableItem)} {field : String} {item : TableItem}
      (split : row = before ++ (field, item) :: after) (earlier : NamesSome type before)
      (known : field ∈ type.fields) (given : field ∈ before.map (·.1)) :
      Misnames type row (.structural (.duplicateName field))

/-- Why a row is refused. Its length is judged before its names, and the values at last, in the
    order of the fields. -/
inductive Refuses (type : BitTableType) (row : List (String × TableItem)) : LayoutError → Prop
  | count (wrong : row.length ≠ type.fields.length) :
      Refuses type row (.structural (.fieldCount type.fields.length row.length))
  | names {refusal : LayoutError} (count : row.length = type.fields.length)
      (fault : Misnames type row refusal) : Refuses type row refusal
  | range {before after : List TableItem} {value : Int64} (whole : NamesEach type row)
      (split : inOrder type row = before ++ .int value :: after)
      (earlier : ∀ item ∈ before, item.InRange) (outside : ¬ (TableItem.int value).InRange) :
      Refuses type row (.valueRange (toString value.toInt) "bit field array entry")

/-- The slots of a row: the value of every field that it names. -/
def slots (type : BitTableType) (row : List (String × TableItem)) : List (Option TableItem) :=
  type.fields.map (named? row)

section Lookup

variable {row order : List (String × TableItem)} {field : String} {item : TableItem}

/-- A field has a value exactly when it is named. -/
theorem named?_eq_none : named? row field = none ↔ field ∉ row.map (·.1) := by
  rw [named?, List.lookup_eq_none_iff, List.mem_map]
  simp only [bne_iff_ne, not_exists, not_and]
  exact forall₂_congr fun _ _ => ne_comm

theorem exists_named? (given : field ∈ row.map (·.1)) : ∃ item, named? row field = some item :=
  Option.ne_none_iff_exists'.mp fun free => named?_eq_none.mp free given

/-- A value behind the others is found by its name, if no other has that name. -/
theorem named?_concat (row : List (String × TableItem)) (name field : String)
    (item : TableItem) : named? (row ++ [(field, item)]) name =
      (named? row name).or (if name = field then some item else none) := by
  rw [named?, List.lookup_append]
  by_cases same : name = field
  · simp [named?, same]
  · simp [named?, List.lookup_cons, same, beq_eq_false_iff_ne.mpr same]

/-- Among distinct names a field has the value that stands beside it. -/
theorem named?_eq_some (distinct : (row.map (·.1)).Nodup) :
    named? row field = some item ↔ (field, item) ∈ row := by
  induction row with
  | nil => simp [named?]
  | cons entry rest ih =>
    obtain ⟨name, value⟩ := entry
    rw [List.map_cons, List.nodup_cons] at distinct
    obtain ⟨fresh, distinct⟩ := distinct
    rw [List.mem_cons, Prod.mk.injEq]
    by_cases same : field = name
    · subst same
      have absent : (field, item) ∉ rest := by
        intro present
        exact fresh (List.mem_map.mpr ⟨_, present, rfl⟩)
      simp [named?, absent, eq_comm]
    · have other : named? ((name, value) :: rest) field = named? rest field := by
        simp [named?, List.lookup_cons, beq_eq_false_iff_ne.mpr same]
      rw [other, ih distinct]
      simp [same]

/-- The value of a field does not depend on the order. -/
theorem named?_perm (distinct : (row.map (·.1)).Nodup) (permuted : order.Perm row)
    (field : String) : named? order field = named? row field := by
  have distinct' : (order.map (·.1)).Nodup := (permuted.map _).nodup_iff.mpr distinct
  apply Option.ext
  intro item
  rw [named?_eq_some distinct', named?_eq_some distinct]
  exact permuted.mem_iff

end Lookup

section Filling

variable {type : BitTableType} {row order before rest : List (String × TableItem)}
  {field : String} {item : TableItem} {refusal : LayoutError}

theorem NamesSome.nil : NamesSome type [] :=
  ⟨by simp, by simp⟩

/-- One more name goes well as long as it is known and new. -/
theorem namesSome_concat : NamesSome type (before ++ [(field, item)]) ↔
    NamesSome type before ∧ field ∈ type.fields ∧ field ∉ before.map (·.1) := by
  constructor
  · rintro ⟨known, distinct⟩
    simp only [List.map_append, List.map_cons, List.map_nil] at known distinct
    obtain ⟨others, -, apart⟩ := List.nodup_append.mp distinct
    refine ⟨⟨fun name present => known name (List.mem_append_left _ present), others⟩, ?_, ?_⟩
    · exact known field (by simp)
    · exact fun present => apart field present field (by simp) rfl
  · rintro ⟨⟨known, distinct⟩, here, fresh⟩
    constructor
    · intro name present
      rw [List.map_append, List.mem_append] at present
      rcases present with old | new
      · exact known name old
      · obtain rfl := List.mem_singleton.mp new
        exact here
    · rw [List.map_append, List.nodup_append]
      refine ⟨distinct, by simp, ?_⟩
      intro name present other new
      obtain rfl := List.mem_singleton.mp new
      exact fun same => fresh (same ▸ present)

/-- Rows are filled in one after the other. -/
theorem fill_append (filled : List (Option TableItem)) :
    fill type filled (before ++ rest) = (fill type filled before).bind (fill type · rest) := by
  induction before generalizing filled with
  | nil => rfl
  | cons entry others ih =>
    obtain ⟨name, value⟩ := entry
    rw [List.cons_append, fill, fill]
    split
    · rfl
    · split
      · exact ih _
      · rfl

/-- A field that is unknown is refused. -/
theorem fill_unknown (missing : field ∉ type.fields) (filled : List (Option TableItem)) :
    fill type filled ((field, item) :: rest) = refuse (.unknownField type.name field) := by
  have unplaced : type.index? field = none := by
    rw [BitTableType.index?, List.findIdx?_eq_none_iff]
    intro name present
    exact decide_eq_false fun same => missing (same ▸ present)
  simp only [fill, unplaced]

/-- A known field stands somewhere, and there is its slot. -/
theorem exists_index (known : field ∈ type.fields) (row : List (String × TableItem)) :
    ∃ index, type.index? field = some index ∧ type.fields[index]? = some field ∧
      (slots type row)[index]? = some (named? row field) := by
  obtain ⟨index, placed⟩ : ∃ index, type.index? field = some index := by
    cases placed : type.index? field with
    | none =>
      have elsewhere := List.findIdx?_eq_none_iff.mp placed field known
      simp at elsewhere
    | some index => exact ⟨index, rfl⟩
  obtain ⟨inside, found, -⟩ := List.findIdx?_eq_some_iff_getElem.mp placed
  have stands : type.fields[index]? = some field := by
    rw [List.getElem?_eq_getElem inside, of_decide_eq_true found]
  refine ⟨index, placed, stands, ?_⟩
  rw [slots, List.getElem?_map, stands, Option.map_some]

/-- A field that was named before is refused. -/
theorem fill_again (known : field ∈ type.fields) (given : field ∈ before.map (·.1)) :
    fill type (slots type before) ((field, item) :: rest) = refuse (.duplicateName field) := by
  obtain ⟨index, placed, -, slot⟩ := exists_index known before
  obtain ⟨value, taken⟩ := exists_named? given
  simp only [fill, placed, slot, taken]

/-- A new value goes into the slot of its field, and nowhere else. -/
theorem fill_fresh (nodup : type.fields.Nodup) (known : field ∈ type.fields)
    (fresh : field ∉ before.map (·.1)) :
    fill type (slots type before) ((field, item) :: rest) =
      fill type (slots type (before ++ [(field, item)])) rest := by
  obtain ⟨index, placed, stands, slot⟩ := exists_index known before
  rw [named?_eq_none.mpr fresh] at slot
  have filled : (slots type before).set index (some item) =
      slots type (before ++ [(field, item)]) := by
    apply List.ext_getElem?
    intro place
    obtain ⟨inside, same⟩ := List.getElem?_eq_some_iff.mp stands
    rw [List.getElem?_set, slots, slots, List.getElem?_map, List.getElem?_map]
    by_cases here : index = place
    · subst here
      rw [if_pos rfl, if_pos (by simpa using inside), stands, Option.map_some, named?_concat,
        named?_eq_none.mpr fresh, if_pos rfl, Option.none_or]
    · rw [if_neg here]
      cases other : type.fields[place]? with
      | none => rfl
      | some name =>
        have apart : name ≠ field := by
          rintro rfl
          obtain ⟨inside', same'⟩ := List.getElem?_eq_some_iff.mp other
          exact here ((List.Nodup.getElem_inj_iff nodup).mp (same.trans same'.symm))
        rw [Option.map_some, Option.map_some, named?_concat, if_neg apart, Option.or_none]
  simp only [fill, placed, slot, filled]

/-- Known and distinct names fill their slots.

    The induction is on the row from its end, so that what was filled in before is the slots of
    the row so far. -/
theorem fill_of_namesSome (nodup : type.fields.Nodup) (row : List (String × TableItem))
    (good : NamesSome type row) :
    fill type (slots type []) row = .ok (slots type row) := by
  induction row using List.reverseRecOn with
  | nil => rfl
  | append_singleton before entry ih =>
    obtain ⟨field, item⟩ := entry
    obtain ⟨earlier, known, fresh⟩ := namesSome_concat.mp good
    rw [fill_append, ih earlier]
    exact fill_fresh nodup known fresh

/-- The first name that is wrong is reported. -/
theorem fill_of_misnames (nodup : type.fields.Nodup) (fault : Misnames type row refusal) :
    fill type (slots type []) row = .error refusal := by
  cases fault with
  | unknown split earlier missing =>
    rw [split, fill_append, fill_of_namesSome nodup _ earlier]
    exact fill_unknown missing _
  | again split earlier known given =>
    rw [split, fill_append, fill_of_namesSome nodup _ earlier]
    exact fill_again known given

/-- Names are all known and distinct, or there is a first one that is not. -/
theorem namesSome_or_misnames (type : BitTableType) (row : List (String × TableItem)) :
    NamesSome type row ∨ ∃ refusal, Misnames type row refusal := by
  induction row using List.reverseRecOn with
  | nil => exact .inl .nil
  | append_singleton before entry ih =>
    obtain ⟨field, item⟩ := entry
    rcases ih with good | ⟨refusal, fault⟩
    · by_cases known : field ∈ type.fields
      · by_cases given : field ∈ before.map (·.1)
        · exact .inr ⟨_, .again rfl good known given⟩
        · exact .inl (namesSome_concat.mpr ⟨good, known, given⟩)
      · exact .inr ⟨_, .unknown rfl good known⟩
    · right
      cases fault with
      | unknown split earlier missing =>
        rw [split, List.append_assoc]
        exact ⟨_, .unknown rfl earlier missing⟩
      | again split earlier known given =>
        rw [split, List.append_assoc]
        exact ⟨_, .again rfl earlier known given⟩

/-- Filling succeeds for known and distinct names only. -/
theorem fill_eq_ok (nodup : type.fields.Nodup) {filled : List (Option TableItem)} :
    fill type (slots type []) row = .ok filled ↔ NamesSome type row ∧ filled = slots type row := by
  constructor
  · intro done
    rcases namesSome_or_misnames type row with good | ⟨refusal, fault⟩
    · rw [fill_of_namesSome nodup row good] at done
      exact ⟨good, (Except.ok.inj done).symm⟩
    · rw [fill_of_misnames nodup fault] at done
      contradiction
  · rintro ⟨good, rfl⟩
    exact fill_of_namesSome nodup row good

/-- Filling fails at the first name that is wrong. -/
theorem fill_eq_error (nodup : type.fields.Nodup) :
    fill type (slots type []) row = .error refusal ↔ Misnames type row refusal := by
  constructor
  · intro failed
    rcases namesSome_or_misnames type row with good | ⟨reported, fault⟩
    · rw [fill_of_namesSome nodup row good] at failed
      contradiction
    · rw [fill_of_misnames nodup fault] at failed
      exact Except.error.inj failed ▸ fault
  · exact fill_of_misnames nodup

/-- As many names as fields, all of them known and distinct, are the names of all fields: none
    can be missing. -/
theorem namesEach_iff (nodup : type.fields.Nodup) : NamesEach type row ↔
    row.length = type.fields.length ∧ NamesSome type row := by
  constructor
  · intro each
    refine ⟨by simpa using each.length_eq, fun name => each.mem_iff.mp, ?_⟩
    exact each.nodup_iff.mpr nodup
  · rintro ⟨count, known, distinct⟩
    have same : (row.map (·.1)).length = type.fields.length := by simpa using count
    exact (distinct.subperm known).perm_of_length_le (Nat.le_of_eq same.symm)

theorem NamesEach.distinct (nodup : type.fields.Nodup) (each : NamesEach type row) :
    (row.map (·.1)).Nodup :=
  each.nodup_iff.mpr nodup

/-- Every field stands beside its value. -/
theorem NamesEach.inOrder (nodup : type.fields.Nodup) (each : NamesEach type row) :
    List.Forall₂ (fun field item => (field, item) ∈ row) type.fields (inOrder type row) := by
  have distinct := each.distinct nodup
  have named : ∀ field ∈ type.fields, ∃ item, named? row field = some item := by
    intro field known
    exact exists_named? (each.mem_iff.mpr known)
  rw [BitTable.inOrder]
  generalize type.fields = fields at named
  induction fields with
  | nil => exact .nil
  | cons field others ih =>
    obtain ⟨⟨item, here⟩, behind⟩ := List.forall_mem_cons.mp named
    rw [List.filterMap_cons_some here]
    exact .cons ((named?_eq_some distinct).mp here) (ih behind)

/-- In a whole row no slot is left free. -/
theorem NamesEach.slots_eq (nodup : type.fields.Nodup) (each : NamesEach type row) :
    slots type row = (BitTable.inOrder type row).map some := by
  have distinct := each.distinct nodup
  have named := each.inOrder nodup
  rw [slots]
  generalize BitTable.inOrder type row = items at named
  generalize type.fields = fields at named
  induction named with
  | nil => rfl
  | cons here _ ih => rw [List.map_cons, List.map_cons, (named?_eq_some distinct).mpr here, ih]

/-- The order of a row does not change its values. -/
theorem NamesEach.inOrder_perm (nodup : type.fields.Nodup) (each : NamesEach type row)
    (permuted : order.Perm row) : BitTable.inOrder type order = BitTable.inOrder type row := by
  have same : named? order = named? row := funext (named?_perm (each.distinct nodup) permuted)
  rw [BitTable.inOrder, BitTable.inOrder, same]

theorem namesEach_perm (permuted : order.Perm row) : NamesEach type order ↔ NamesEach type row :=
  ⟨(permuted.map _).symm.trans, (permuted.map _).trans⟩

end Filling

variable {table : BitTable} {row order : List (String × TableItem)} {refusal : LayoutError}

/-- Before any value is filled in, all slots are free. -/
theorem slots_nil (type : BitTableType) :
    slots type [] = List.replicate type.fields.length none := by
  rw [slots, List.eq_replicate_iff]
  constructor
  · exact List.length_map _
  · intro slot present
    obtain ⟨field, -, rfl⟩ := List.mem_map.mp present
    rfl

/-- The slots of a whole row hold its values in the order of the fields. -/
theorem values_slots (nodup : table.type.fields.Nodup) (each : NamesEach table.type row) :
    (slots table.type row).filterMap id = inOrder table.type row := by
  rw [each.slots_eq nodup, List.filterMap_map]
  exact List.filterMap_some

/-- A row that names every field is appended in the order of the fields. -/
theorem pushNamed_of_namesEach (nodup : table.type.fields.Nodup)
    (each : NamesEach table.type row) :
    table.pushNamed row = table.push (inOrder table.type row) := by
  obtain ⟨count, good⟩ := (namesEach_iff nodup).mp each
  have filled := fill_of_namesSome nodup row good
  rw [slots_nil] at filled
  rw [pushNamed, if_neg (not_ne_iff.mpr count), filled]
  exact congrArg table.push (values_slots nodup each)

/-- A row that names every field is accepted when its integers are in range. -/
theorem exists_push_inOrder_iff (nodup : table.type.fields.Nodup)
    (each : NamesEach table.type row) :
    (∃ next, table.push (inOrder table.type row) = .ok next) ↔
      ∀ entry ∈ row, entry.2.InRange := by
  have named := each.inOrder nodup
  have count := named.length_eq.symm
  simp only [push_eq_ok, count, TableItem.check_eq_ok, true_and, exists_and_left, exists_eq,
    and_true]
  constructor
  · intro inRange entry present
    have known : entry.1 ∈ table.type.fields := each.mem_iff.mp (List.mem_map_of_mem present)
    have value : named? row entry.1 = some entry.2 :=
      (named?_eq_some (each.distinct nodup)).mpr present
    exact inRange entry.2 (List.mem_filterMap.mpr ⟨entry.1, known, value⟩)
  · intro inRange item present
    obtain ⟨field, -, value⟩ := List.mem_filterMap.mp present
    exact inRange (field, item) ((named?_eq_some (each.distinct nodup)).mp value)

/-- Appending the values of a whole row fails at the first of them that is out of range. -/
theorem push_inOrder_eq_error (nodup : table.type.fields.Nodup) (each : NamesEach table.type row) :
    table.push (inOrder table.type row) = .error refusal ↔
      ∃ before value after, inOrder table.type row = before ++ .int value :: after ∧
        (∀ item ∈ before, item.InRange) ∧ ¬ (TableItem.int value).InRange ∧
          refusal = .valueRange (toString value.toInt) "bit field array entry" := by
  have count := (each.inOrder nodup).length_eq.symm
  rw [push, if_neg (not_ne_iff.mpr count), List.forM_eq_forM, bind_eq_error, forM_eq_error]
  simp only [TableItem.check_eq_ok, TableItem.check_eq_error, pure, Except.pure, reduceCtorEq,
    and_false, exists_false, or_false]
  constructor
  · rintro ⟨before, _, after, split, earlier, value, rfl, outside, rfl⟩
    exact ⟨before, value, after, split, earlier, outside, rfl⟩
  · rintro ⟨before, value, after, split, earlier, outside, rfl⟩
    exact ⟨before, _, after, split, earlier, value, rfl, outside, rfl⟩

/-- A row is appended only if it names every field. -/
theorem namesEach_of_pushNamed (nodup : table.type.fields.Nodup) {next : BitTable}
    (appended : table.pushNamed row = .ok next) : NamesEach table.type row := by
  by_cases count : row.length = table.type.fields.length
  · rw [pushNamed, if_neg (not_ne_iff.mpr count), ← slots_nil] at appended
    obtain ⟨filled, done, -⟩ := bind_eq_ok.mp appended
    obtain ⟨good, -⟩ := (fill_eq_ok nodup).mp done
    exact (namesEach_iff nodup).mpr ⟨count, good⟩
  · rw [pushNamed, if_pos count] at appended
    contradiction

/-- A named row fails for the reasons that are listed, and each of them is the one reported. -/
theorem pushNamed_eq_error (nodup : table.type.fields.Nodup) :
    table.pushNamed row = .error refusal ↔ Refuses table.type row refusal := by
  by_cases count : row.length = table.type.fields.length
  · rw [pushNamed, if_neg (not_ne_iff.mpr count), bind_eq_error, ← slots_nil, fill_eq_error nodup]
    constructor
    · rintro (fault | ⟨filled, done, failed⟩)
      · exact .names count fault
      · obtain ⟨good, rfl⟩ := (fill_eq_ok nodup).mp done
        have whole := (namesEach_iff nodup).mpr ⟨count, good⟩
        rw [values_slots nodup whole] at failed
        obtain ⟨before, value, after, split, earlier, outside, rfl⟩ :=
          (push_inOrder_eq_error nodup whole).mp failed
        exact .range whole split earlier outside
    · intro refused
      cases refused with
      | count wrong => exact absurd count wrong
      | names _ fault => exact .inl fault
      | range whole split earlier outside =>
        have done := fill_of_namesSome nodup row ((namesEach_iff nodup).mp whole).2
        refine .inr ⟨_, done, ?_⟩
        rw [values_slots nodup whole]
        exact (push_inOrder_eq_error nodup whole).mpr ⟨_, _, _, split, earlier, outside, rfl⟩
  · rw [pushNamed, if_pos count]
    constructor
    · intro failed
      obtain rfl := Except.error.inj failed
      exact .count count
    · intro refused
      cases refused with
      | count => rfl
      | names same => exact absurd same count
      | range whole => exact absurd ((namesEach_iff nodup).mp whole).1 count

/-- What appending a row of named values comes to in some order of them. -/
structure TakesInOrder (table : BitTable) (row order : List (String × TableItem)) : Prop where
  accepted : (∃ next, table.pushNamed order = .ok next) ↔
    NamesEach table.type row ∧ ∀ entry ∈ row, entry.2.InRange
  /-- The order in which the values are given is forgotten. -/
  pushed : NamesEach table.type row →
    table.pushNamed order = table.push (inOrder table.type row)
  ordered : NamesEach table.type row →
    List.Forall₂ (fun field item => (field, item) ∈ row) table.type.fields (inOrder table.type row)
  /-- When the slots of as many values as fields are filled, none of them is free. -/
  whole : ∀ filled, order.length = table.type.fields.length →
    fill table.type (List.replicate table.type.fields.length none) order = .ok filled →
      filled = (inOrder table.type row).map some
  refused : ∀ refusal, table.pushNamed order = .error refusal ↔ Refuses table.type order refusal

/-- Named values are appended in the order of the fields, whatever the order in which they are
    given, and they are accepted exactly when they name every field once and their integers are in
    range. No slot is left free then. Everything else is refused, for one of the reasons listed. -/
theorem pushNamed_takesInOrder {table : BitTable} (built : table.Built)
    {row order : List (String × TableItem)} (permuted : order.Perm row) :
    TakesInOrder table row order := by
  have nodup := built.nodup_fields
  have same : NamesEach table.type order ↔ NamesEach table.type row := namesEach_perm permuted
  have pushed (each : NamesEach table.type row) :
      table.pushNamed order = table.push (inOrder table.type row) := by
    rw [pushNamed_of_namesEach nodup (same.mpr each), each.inOrder_perm nodup permuted]
  constructor
  case accepted =>
    constructor
    · rintro ⟨next, appended⟩
      have each := same.mp (namesEach_of_pushNamed nodup appended)
      rw [pushed each] at appended
      exact ⟨each, (exists_push_inOrder_iff nodup each).mp ⟨next, appended⟩⟩
    · rintro ⟨each, inRange⟩
      rw [pushed each]
      exact (exists_push_inOrder_iff nodup each).mpr inRange
  case pushed => exact pushed
  case ordered => exact fun each => each.inOrder nodup
  case whole =>
    intro filled count done
    rw [← slots_nil] at done
    obtain ⟨good, rfl⟩ := (fill_eq_ok nodup).mp done
    have each := (namesEach_iff nodup).mpr ⟨count, good⟩
    rw [each.slots_eq nodup, (same.mp each).inOrder_perm nodup permuted]
  case refused => exact fun refusal => pushNamed_eq_error nodup

/-- Three fields named backwards are appended in order, below a row that was given in order. -/
theorem backwards_takesInOrder :
    let table : BitTable := ⟨⟨"Flags", ["a", "b", "c"]⟩, [[.int 1, .int 0, .int 17]]⟩
    let row : List (String × TableItem) :=
      [("a", .int 2147483647), ("b", .blob ⟨[true, false]⟩), ("c", .int 0)]
    table.Built ∧ row.reverse.Perm row ∧ TakesInOrder table row row.reverse ∧
      table.pushNamed row.reverse = .ok ⟨table.type,
        [[.int 1, .int 0, .int 17], [.int 2147483647, .blob ⟨[true, false]⟩, .int 0]]⟩ := by
  intro table row
  have built : table.Built := by
    have declared : BitTable.declare "Flags" ["a", "b", "c"] = .ok ⟨table.type, []⟩ := by rfl
    have appended : push ⟨table.type, []⟩ [.int 1, .int 0, .int 17] = .ok table := by rfl
    exact .push (.declare declared) appended
  have permuted : row.reverse.Perm row := row.reverse_perm
  exact ⟨built, permuted, pushNamed_takesInOrder built permuted, by rfl⟩

end BitTable
end BinaryLayout
