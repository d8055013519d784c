import BinaryLayout.Proofs.Permutation
import Mathlib.Data.List.Induction
import Mathlib.Data.List.Nodup

/-!
# Insertions into a catalog

Types are inserted one after another, and a refused one does not end the run. However the
insertions turn out, the names of the catalog are those of the first visits in their order,
and the entry of a name goes by that name: the common type of two types of one name has it
too. A catalog with an index finds its entries by place and not by search. It goes through the
same states, with the same refusals, and its index never points anywhere else.
-/

namespace BinaryLayout

/-- A common type of two types of one name has that name. -/
theorem Ty.uniqueName_of_merge {a b c : Ty} (merged : a.merge b = .ok c)
    (named : a.uniqueName = b.uniqueName) : c.uniqueName = a.uniqueName := by
  rcases Ty.merge_outline merged with left | right
  · exact Ty.uniqueName_eq_of_outline left
  · exact (Ty.uniqueName_eq_of_outline right).trans named.symm

namespace Catalog

/-- Insert a type, or keep the catalog as it is when the type is refused. -/
def offer (catalog : Catalog) (type : Ty) : Except LayoutError Unit × Catalog :=
  match catalog.insert type with
  | .ok next => (.ok (), next)
  | .error refusal => (.error refusal, catalog)

/-- What insertions one after another leave behind, refused ones among them. -/
def offerAll (types : List Ty) : Catalog :=
  types.foldl (fun catalog type => (catalog.offer type).2) empty

/-- Entries go by the unique names of their types. -/
def Named (catalog : Catalog) : Prop :=
  ∀ entry ∈ catalog.entries, entry.2.uniqueName = entry.1

/-- Whatever an entry contains has an entry of its own. -/
def Closed (catalog : Catalog) : Prop :=
  ∀ entry ∈ catalog.entries, ∀ part ∈ entry.2.contained, part.uniqueName ∈ catalog.names

section Names

variable {catalog : Catalog} {name : String} {type : Ty}

@[simp] theorem names_replace : (catalog.replace name type).names = catalog.names := by
  rw [names, names, replace, List.map_map]
  apply List.map_congr_left
  intro entry _
  by_cases same : entry.1 = name <;> simp [same]

/-- A name without an entry is not listed. -/
theorem get?_eq_none : catalog.get? name = none ↔ name ∉ catalog.names := by
  rw [mem_names, Option.eq_none_iff_forall_ne_some]
  simp

/-- Under distinct names, the type that is found is the one that was entered. -/
theorem get?_eq_some (distinct : catalog.names.Nodup) :
    catalog.get? name = some type ↔ (name, type) ∈ catalog.entries := by
  have first (entries : List (String × Ty)) (distinct : (entries.map (·.1)).Nodup) :
      (entries.find? (·.1 = name)).map (·.2) = some type ↔ (name, type) ∈ entries := by
    induction entries with
    | nil => simp
    | cons entry rest ih =>
      obtain ⟨unlisted, others⟩ := List.nodup_cons.mp distinct
      by_cases here : entry.1 = name
      · have elsewhere : (name, type) ∉ rest := by
          intro present
          apply unlisted
          show entry.1 ∈ rest.map (·.1)
          rw [here]
          exact List.mem_map_of_mem present
        have same : (name, type) = entry ↔ entry.2 = type := by
          rw [Prod.ext_iff, and_iff_right here.symm, eq_comm]
        simp [here, elsewhere, same]
      · have other : (name, type) ≠ entry := by
          rintro rfl
          exact here rfl
        simp [here, other, ih others]
  exact first catalog.entries distinct

/-- All that an insertion can do: enter a new type, merge it into the entry of its name, or
    refuse it where these do not merge. -/
theorem offer_cases (catalog : Catalog) (type : Ty) :
    (catalog.get? type.uniqueName = none ∧
        catalog.offer type = (.ok (), ⟨catalog.entries ++ [(type.uniqueName, type)]⟩)) ∨
      (∃ entered common, catalog.get? type.uniqueName = some entered ∧
        entered.merge type = .ok common ∧
        catalog.offer type = (.ok (), catalog.replace type.uniqueName common)) ∨
      ∃ entered refusal, catalog.get? type.uniqueName = some entered ∧
        entered.merge type = .error refusal ∧ catalog.offer type = (.error refusal, catalog) := by
  cases found : catalog.get? type.uniqueName with
  | none => exact .inl ⟨rfl, by simp [offer, insert, found]⟩
  | some entered =>
    cases merged : entered.merge type with
    | ok common =>
      exact .inr (.inl ⟨entered, common, rfl, merged, by
        simp [offer, insert, found, merged, Except.map]⟩)
    | error refusal =>
      exact .inr (.inr ⟨entered, refusal, rfl, merged, by
        simp [offer, insert, found, merged, Except.map]⟩)

/-- An insertion is refused exactly when the entry of the name refuses to be merged, and then
    the catalog stays as it is. -/
theorem offer_refused (catalog : Catalog) (type : Ty) (refusal : LayoutError) :
    ((catalog.offer type).1 = .error refusal ↔
      ∃ entered, catalog.get? type.uniqueName = some entered ∧
        entered.merge type = .error refusal) ∧
      ((catalog.offer type).1 = .error refusal → (catalog.offer type).2 = catalog) := by
  rcases catalog.offer_cases type with
    ⟨found, offered⟩ | ⟨entered, common, found, merged, offered⟩ |
      ⟨entered, reason, found, merged, offered⟩
  · simp [found, offered]
  · simp [found, merged, offered]
  · simp [found, merged, offered]

/-- An insertion lists the name of its type behind the others, unless it is listed already. -/
theorem names_offer (catalog : Catalog) (type : Ty) :
    (catalog.offer type).2.names =
      if type.uniqueName ∈ catalog.names then catalog.names
      else catalog.names ++ [type.uniqueName] := by
  rcases catalog.offer_cases type with
    ⟨found, offered⟩ | ⟨entered, common, found, -, offered⟩ | ⟨entered, reason, found, -, offered⟩
  · rw [if_neg (get?_eq_none.mp found), offered]
    simp [names]
  · rw [if_pos (mem_names.mpr ⟨entered, found⟩), offered, names_replace]
  · rw [if_pos (mem_names.mpr ⟨entered, found⟩), offered]

/-- Names stay distinct. -/
theorem nodup_offer (distinct : catalog.names.Nodup) (type : Ty) :
    (catalog.offer type).2.names.Nodup := by
  rw [names_offer]
  split
  · exact distinct
  · rename_i unlisted
    rw [← List.concat_eq_append]
    exact List.Nodup.concat unlisted distinct

/-- Entries keep going by their names. -/
theorem Named.offer (named : catalog.Named) (distinct : catalog.names.Nodup) (type : Ty) :
    (catalog.offer type).2.Named := by
  rcases catalog.offer_cases type with
    ⟨-, offered⟩ | ⟨entered, common, found, merged, offered⟩ | ⟨-, reason, -, -, offered⟩
  · rw [offered]
    intro entry present
    rcases List.mem_append.mp present with before | last
    · exact named entry before
    · obtain rfl := List.mem_singleton.mp last
      rfl
  · have before := named _ ((get?_eq_some distinct).mp found)
    rw [offered]
    intro entry present
    obtain ⟨source, inside, rfl⟩ := List.mem_map.mp present
    by_cases here : source.1 = type.uniqueName
    · rw [if_pos here]
      exact (Ty.uniqueName_of_merge merged before).trans before
    · rw [if_neg here]
      exact named source inside
  · rw [offered]
    exact named

end Names

section Runs

/-- A name behind others is a new one or is dropped. -/
theorem eraseDups_concat (names : List String) (name : String) :
    (names ++ [name]).eraseDups =
      if name ∈ names then names.eraseDups else names.eraseDups ++ [name] := by
  rw [List.eraseDups_append]
  by_cases listed : name ∈ names <;> simp [List.removeAll, listed, List.eraseDups_cons]

/-- One more insertion goes on from where the earlier ones have led. -/
theorem offerAll_concat (types : List Ty) (type : Ty) :
    offerAll (types ++ [type]) = ((offerAll types).offer type).2 := by
  simp [offerAll]

/-- The names are those of the inserted types in the order of their first visits. -/
theorem names_offerAll (types : List Ty) :
    (offerAll types).names = (types.map Ty.uniqueName).eraseDups := by
  induction types using List.reverseRecOn with
  | nil => rfl
  | append_singleton types type ih =>
    rw [offerAll_concat, names_offer, ih, List.map_append, List.map_singleton, eraseDups_concat]
    simp only [List.mem_eraseDups]

/-- After any insertions the names are distinct, and entries go by them. -/
theorem offerAll_named (types : List Ty) :
    (offerAll types).names.Nodup ∧ (offerAll types).Named := by
  induction types using List.reverseRecOn with
  | nil =>
    constructor
    · exact List.nodup_nil
    · intro entry present
      simp [offerAll, empty] at present
  | append_singleton types type ih =>
    obtain ⟨distinct, named⟩ := ih
    rw [offerAll_concat]
    exact ⟨nodup_offer distinct type, named.offer distinct type⟩

/-- A collection is what the types within its roots leave behind when none is refused. -/
theorem eq_offerAll_of_insertAll {types : List Ty} {catalog : Catalog}
    (inserted : empty.insertAll types = .ok catalog) : catalog = offerAll types := by
  induction types using List.reverseRecOn generalizing catalog with
  | nil => simpa [insertAll, pure, Except.pure, offerAll, eq_comm] using inserted
  | append_singleton types type ih =>
    obtain ⟨before, earlier, last⟩ := insertAll_append.mp inserted
    have last : before.insert type = .ok catalog := by
      simpa [insertAll, bind_eq_ok, pure, Except.pure] using last
    rw [offerAll_concat, ← ih earlier, offer, last]

variable {roots : List Ty} {catalog : Catalog}

/-- The names of a collection are those of the types within its roots. -/
theorem mem_names_of_collect (collected : collect roots = .ok catalog) {name : String} :
    name ∈ catalog.names ↔ ∃ root ∈ roots, ∃ part ∈ root.tree, part.uniqueName = name := by
  rw [eq_offerAll_of_insertAll collected, names_offerAll, List.mem_eraseDups]
  simp only [List.mem_map, List.mem_flatMap]
  grind

/-- Merging brings nothing into an entry that was not collected itself: what an entry contains is
    settled by the time the entry is. -/
theorem closed_of_collect (sound : ∀ root ∈ roots, root.WellFormed)
    (collected : collect roots = .ok catalog) : catalog.Closed := by
  have coherent : catalog.Coherent :=
    (collects_of_each (fun root among => collects_of_wellFormed (sound root among)) empty catalog
      coherent_empty collected).1
  have distinct : catalog.names.Nodup := by
    rw [eq_offerAll_of_insertAll collected]
    exact (offerAll_named _).1
  intro entry present part inside
  obtain ⟨-, -, settled⟩ := coherent entry.1 entry.2 ((get?_eq_some distinct).mpr present)
  obtain ⟨found, listed, -⟩ := settled part (Ty.mem_tree_of_contained inside part.self_mem_tree)
  exact mem_names.mpr ⟨found, listed⟩

end Runs

end Catalog

/-- Types in the order of their first visits, and the places where the types of all names stand. -/
structure IndexedCatalog where
  types : List (String × Ty)
  places : String → Option Nat

namespace IndexedCatalog

/-- The catalog without types. -/
def empty : IndexedCatalog := ⟨[], fun _ => none⟩

/-- The type at the place of a name. -/
def get? (indexed : IndexedCatalog) (name : String) : Option Ty := do
  let (_, type) ← indexed.types[← indexed.places name]?
  return type

/-- Merge a type into the one at the place of its name, or append it and note its place. The
    answer stands beside the catalog that is left behind. There is none when a place lies
    outside the types. -/
def insert (indexed : IndexedCatalog) (type : Ty) :
    Option (Except LayoutError Unit × IndexedCatalog) :=
  let name := type.uniqueName
  match indexed.places name with
  | some place => do
      let (key, entered) ← indexed.types[place]?
      match entered.merge type with
      | .ok merged => return (.ok (), { indexed with types := indexed.types.set place (key, merged) })
      | .error refusal => return (.error refusal, indexed)
  | none =>
      some (.ok (), ⟨indexed.types ++ [(name, type)],
        fun other => if other = name then some indexed.types.length else indexed.places other⟩)

/-- The catalog that insertions one after another leave behind, refused ones among them. -/
def insertAll (types : List Ty) : Option IndexedCatalog :=
  types.foldlM (fun indexed type => (indexed.insert type).map (·.2)) empty

/-- A catalog with an index holds the entries of one without, and its index leads to them. -/
structure Indexes (indexed : IndexedCatalog) (catalog : Catalog) : Prop where
  types : indexed.types = catalog.entries
  distinct : catalog.names.Nodup
  places : ∀ name place, indexed.places name = some place ↔ catalog.names[place]? = some name

namespace Indexes

variable {indexed : IndexedCatalog} {catalog : Catalog}

theorem nothing : empty.Indexes Catalog.empty := by
  constructor <;> simp [empty, Catalog.empty, Catalog.names]

/-- A place in the index is the place of an entry of its name. -/
theorem entered (indexes : indexed.Indexes catalog) {name : String} {place : Nat}
    (placed : indexed.places name = some place) :
    ∃ type, indexed.types[place]? = some (name, type) ∧ catalog.get? name = some type := by
  have listed := (indexes.places name place).mp placed
  obtain ⟨⟨key, type⟩, stands, rfl⟩ : ∃ entry, catalog.entries[place]? = some entry ∧
      entry.1 = name := by
    simpa [Catalog.names] using listed
  refine ⟨type, by rw [indexes.types, stands], ?_⟩
  exact (Catalog.get?_eq_some indexes.distinct).mpr (List.mem_of_getElem? stands)

/-- A name without an entry is not in the index. -/
theorem unplaced (indexes : indexed.Indexes catalog) {name : String}
    (unlisted : name ∉ catalog.names) : indexed.places name = none := by
  apply Option.eq_none_iff_forall_ne_some.mpr
  intro place placed
  exact unlisted (List.mem_of_getElem? ((indexes.places name place).mp placed))

/-- An entry stands at the place of its name. -/
theorem placed (indexes : indexed.Indexes catalog) {name : String} {type : Ty}
    (found : catalog.get? name = some type) :
    ∃ place, indexed.places name = some place ∧ indexed.types[place]? = some (name, type) := by
  obtain ⟨place, stands⟩ := List.mem_iff_getElem?.mp
    ((Catalog.get?_eq_some indexes.distinct).mp found)
  refine ⟨place, (indexes.places name place).mpr (by simp [Catalog.names, stands]), ?_⟩
  rw [indexes.types, stands]

/-- Looking a name up in the index finds what a search finds. -/
theorem get?_eq (indexes : indexed.Indexes catalog) (name : String) :
    indexed.get? name = catalog.get? name := by
  cases found : catalog.get? name with
  | none => simp [get?, indexes.unplaced (Catalog.get?_eq_none.mp found)]
  | some type =>
    obtain ⟨place, placed, stands⟩ := indexes.placed found
    simp [get?, placed, stands]

/-- Replacing the type at a place replaces the type of its name. -/
theorem replace (indexes : indexed.Indexes catalog) {name : String} {place : Nat} (type : Ty)
    (placed : indexed.places name = some place) :
    Indexes { indexed with types := indexed.types.set place (name, type) }
      (catalog.replace name type) := by
  constructor
  case types =>
    apply List.ext_getElem?
    intro index
    rw [Catalog.replace, List.getElem?_map, List.getElem?_set, indexes.types]
    by_cases here : place = index
    · subst here
      obtain ⟨before, stands, -⟩ := indexes.entered placed
      rw [indexes.types] at stands
      have inside : place < catalog.entries.length := (List.getElem?_eq_some_iff.mp stands).1
      rw [if_pos rfl, if_pos inside, stands]
      simp
    · rw [if_neg here]
      cases stands : catalog.entries[index]? with
      | none => rfl
      | some entry =>
        have other : entry.1 ≠ name := by
          rintro rfl
          have listed : catalog.names[index]? = some entry.1 := by simp [Catalog.names, stands]
          rw [(indexes.places entry.1 index).mpr listed] at placed
          exact here (Option.some.inj placed).symm
        simp [other]
  case distinct =>
    rw [Catalog.names_replace]
    exact indexes.distinct
  case places =>
    intro other index
    rw [Catalog.names_replace]
    exact indexes.places other index

/-- Appending a type of a new name notes its place. -/
theorem append (indexes : indexed.Indexes catalog) {name : String} (type : Ty)
    (unlisted : name ∉ catalog.names) :
    Indexes ⟨indexed.types ++ [(name, type)],
        fun other => if other = name then some indexed.types.length else indexed.places other⟩
      ⟨catalog.entries ++ [(name, type)]⟩ := by
  have length : indexed.types.length = catalog.names.length := by
    rw [indexes.types, Catalog.names, List.length_map]
  have names : Catalog.names ⟨catalog.entries ++ [(name, type)]⟩ = catalog.names ++ [name] := by
    simp [Catalog.names]
  constructor
  case types => rw [indexes.types]
  case distinct =>
    rw [names, ← List.concat_eq_append]
    exact List.Nodup.concat unlisted indexes.distinct
  case places =>
    intro other index
    rw [names]
    by_cases same : other = name
    · subst same
      have earlier : catalog.names[index]? ≠ some other :=
        fun stands => unlisted (List.mem_of_getElem? stands)
      simp only [if_pos, length, Option.some.injEq]
      grind
    · simp only [if_neg same, indexes.places]
      grind

/-- An insertion gives the same answer and leads to the same catalog, indexed or not. -/
theorem insert (indexes : indexed.Indexes catalog) (type : Ty) :
    ∃ next, indexed.insert type = some ((catalog.offer type).1, next) ∧
      next.Indexes (catalog.offer type).2 := by
  rcases catalog.offer_cases type with
    ⟨found, offered⟩ | ⟨entered, common, found, merged, offered⟩ |
      ⟨entered, refusal, found, merged, offered⟩
  · have unlisted := Catalog.get?_eq_none.mp found
    rw [offered]
    refine ⟨_, ?_, indexes.append type unlisted⟩
    simp [IndexedCatalog.insert, indexes.unplaced unlisted]
  · obtain ⟨place, placed, stands⟩ := indexes.placed found
    rw [offered]
    refine ⟨_, ?_, indexes.replace common placed⟩
    simp [IndexedCatalog.insert, placed, stands, merged]
  · obtain ⟨place, placed, stands⟩ := indexes.placed found
    rw [offered]
    refine ⟨indexed, ?_, indexes⟩
    simp [IndexedCatalog.insert, placed, stands, merged]

/-- Entries leave no choice of the index. -/
theorem unique {other : IndexedCatalog} (first : indexed.Indexes catalog)
    (second : other.Indexes catalog) : indexed = other := by
  obtain ⟨types, places⟩ := indexed
  obtain ⟨types', places'⟩ := other
  obtain rfl : types = types' := first.types.trans second.types.symm
  congr 1
  funext name
  apply Option.ext
  intro place
  rw [first.places, second.places]

end Indexes

/-- Insertions lead to the same catalog, indexed or not. -/
theorem insertAll_indexes (types : List Ty) :
    ∃ indexed, insertAll types = some indexed ∧ indexed.Indexes (Catalog.offerAll types) := by
  induction types using List.reverseRecOn with
  | nil => exact ⟨empty, rfl, .nothing⟩
  | append_singleton types type ih =>
    obtain ⟨before, earlier, indexes⟩ := ih
    obtain ⟨next, answered, kept⟩ := indexes.insert type
    refine ⟨next, ?_, ?_⟩
    · rw [insertAll, List.foldlM_append, ← insertAll, earlier]
      simp [answered]
    · rw [Catalog.offerAll_concat]
      exact kept

/-- The order that insertions keep, refused ones among them. -/
structure Orderly (indexed : IndexedCatalog) (types : List Ty) : Prop where
  distinct : (indexed.types.map (·.1)).Nodup
  named : ∀ entry ∈ indexed.types, entry.2.uniqueName = entry.1
  /-- The index leads nowhere outside the types. -/
  placed : ∀ name place, indexed.places name = some place → place < indexed.types.length
  found : ∀ name type, indexed.get? name = some type ↔ (name, type) ∈ indexed.types
  order : indexed.types.map (·.1) = (types.map Ty.uniqueName).eraseDups
  /-- One more insertion has an answer. It is refused exactly when the type of its name refuses
      to be merged, and then nothing has changed. -/
  next : ∀ type, ∃ answer next, indexed.insert type = some (answer, next) ∧
    ∀ refusal, (answer = .error refusal ↔
      ∃ entered, indexed.get? type.uniqueName = some entered ∧
        entered.merge type = .error refusal) ∧ (answer = .error refusal → next = indexed)

namespace Indexes

variable {indexed : IndexedCatalog} {catalog : Catalog}

/-- What insertions lead to is orderly. -/
theorem orderly {types : List Ty} (indexes : indexed.Indexes (Catalog.offerAll types)) :
    indexed.Orderly types := by
  have names : indexed.types.map (·.1) = (Catalog.offerAll types).names := by
    rw [indexes.types, Catalog.names]
  constructor
  case distinct =>
    rw [names]
    exact indexes.distinct
  case named =>
    rw [indexes.types]
    exact (Catalog.offerAll_named types).2
  case placed =>
    intro name place placed
    obtain ⟨type, stands, -⟩ := indexes.entered placed
    exact (List.getElem?_eq_some_iff.mp stands).1
  case found =>
    intro name type
    rw [indexes.get?_eq, indexes.types]
    exact Catalog.get?_eq_some indexes.distinct
  case order =>
    rw [names]
    exact Catalog.names_offerAll types
  case next =>
    intro type
    obtain ⟨next, answered, kept⟩ := indexes.insert type
    refine ⟨_, next, answered, fun refusal => ?_⟩
    obtain ⟨refused, unchanged⟩ := (Catalog.offerAll types).offer_refused type refusal
    rw [indexes.get?_eq]
    refine ⟨refused, fun same => ?_⟩
    rw [unchanged same] at kept
    exact kept.unique indexes

end Indexes

end IndexedCatalog

namespace Catalog

/-- Any insertions, refused ones among them, lead to the same entries with and without an index,
    and they stand in order there. A collection of built types is reached in this way without a
    refusal. Its names are those of the types within the roots, and whatever one of its entries
    contains has an entry, after all merging. -/
theorem insertions_orderly :
    (∀ types, ∃ indexed, IndexedCatalog.insertAll types = some indexed ∧
      indexed.types = (offerAll types).entries ∧ indexed.Orderly types) ∧
    ∀ roots : List Ty, (∀ root ∈ roots, root.Built) → ∀ catalog, collect roots = .ok catalog →
      catalog = offerAll (roots.flatMap Ty.tree) ∧
      (∀ name, name ∈ catalog.names ↔ ∃ root ∈ roots, ∃ part ∈ root.tree, part.uniqueName = name) ∧
      catalog.Closed := by
  constructor
  · intro types
    obtain ⟨indexed, run, indexes⟩ := IndexedCatalog.insertAll_indexes types
    exact ⟨indexed, run, indexes.types, indexes.orderly⟩
  · intro roots built catalog collected
    have sound : ∀ root ∈ roots, root.WellFormed := fun root among => (built root among).wellFormed
    exact ⟨eq_offerAll_of_insertAll collected, fun name => mem_names_of_collect collected,
      closed_of_collect sound collected⟩

/-- A struct with a null reference, and one of the same name whose reference leads to a text. -/
def pointingPair : List Ty :=
  [(Value.pointing (.nullRef .null .w32)).type, (Value.pointing (.ref (.ofString "a") .w32)).type]

/-- Both structs are built. -/
theorem pointingPair_built : ∀ root ∈ pointingPair, root.Built := by
  have text : (Value.ofString "a").Built :=
    .stringOf (show Value.stringOf "a" none true = _ from rfl)
  simp only [pointingPair, List.mem_cons, List.not_mem_nil, or_false, forall_eq_or_imp, forall_eq]
  constructor
  · exact .ofValue (Value.pointing_built (.nullRef .w32 .null) rfl)
  · exact .ofValue (Value.pointing_built (.refTo .w32 text) rfl)

/-- A struct of other members is refused between the two, and the second one is merged into the
    first. Collected, the two bring the target of the reference with them. -/
theorem pointingPair_orderly :
    (∃ indexed, IndexedCatalog.insertAll
        [.int .int32, (Value.pointing (.nullRef .null .w32)).type, (Value.zeros ["x", "y"]).type,
          (Value.pointing (.ref (.ofString "a") .w32)).type] = some indexed ∧
      indexed.Orderly
        [.int .int32, (Value.pointing (.nullRef .null .w32)).type, (Value.zeros ["x", "y"]).type,
          (Value.pointing (.ref (.ofString "a") .w32)).type] ∧
      indexed.types = [("int32_t", .int .int32),
        ("S", (Value.pointing (.ref (.ofString "a") .w32)).type)]) ∧
    ∃ catalog, collect pointingPair = .ok catalog ∧
      catalog.names = ["ref32->void", "S", "char", "char[]", "ref32->char[]"] ∧
      catalog.Closed := by
  constructor
  · obtain ⟨indexed, run, types, orderly⟩ := insertions_orderly.1
      [.int .int32, (Value.pointing (.nullRef .null .w32)).type, (Value.zeros ["x", "y"]).type,
        (Value.pointing (.ref (.ofString "a") .w32)).type]
    exact ⟨indexed, run, orderly, types.trans rfl⟩
  · exact ⟨_, rfl, rfl, (insertions_orderly.2 pointingPair pointingPair_built _ rfl).2.2⟩

end Catalog

end BinaryLayout
