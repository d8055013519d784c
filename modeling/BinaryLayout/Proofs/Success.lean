import Mathlib.Data.List.Forall2

/-!
# When computations succeed

A computation in steps succeeds when every step does. The laws below take such a
computation apart at a result, so that no later proof unfolds a bind.
-/

namespace BinaryLayout

variable {ε α β : Type}

/-- A computation in two steps succeeds when both of them do. -/
theorem bind_eq_ok {first : Except ε α} {next : α → Except ε β} {result : β} :
    first >>= next = .ok result ↔ ∃ middle, first = .ok middle ∧ next middle = .ok result := by
  cases first <;> simp [bind, Except.bind]

/-- A computation in two steps fails at the first step, or behind it at the second. -/
theorem bind_eq_error {first : Except ε α} {next : α → Except ε β} {error : ε} :
    first >>= next = .error error ↔
      first = .error error ∨ ∃ middle, first = .ok middle ∧ next middle = .error error := by
  cases first <;> simp [bind, Except.bind]

/-- A list that is computed item by item fails at its first item, or behind it. -/
theorem cons_eq_error {first : Except ε α} {rest : α → Except ε (List α)} {error : ε} :
    (do let item ← first; let items ← rest item; return item :: items) = .error error ↔
      first = .error error ∨ ∃ item, first = .ok item ∧ rest item = .error error := by
  simp [bind_eq_error, pure, Except.pure]

/-- A mapped computation succeeds when the computation does. -/
theorem map_eq_ok {first : Except ε α} {image : α → β} {result : β} :
    first.map image = .ok result ↔ ∃ middle, first = .ok middle ∧ image middle = result := by
  cases first <;> simp [Except.map]

/-- A mapped computation fails as the computation does. -/
theorem map_eq_error {first : Except ε α} {image : α → β} {error : ε} :
    first.map image = .error error ↔ first = .error error := by
  cases first <;> simp [Except.map]

/-- Rewording a refusal changes no result. -/
theorem mapError_eq_ok {ε' : Type} {first : Except ε α} {reword : ε → ε'} {result : α} :
    first.mapError reword = .ok result ↔ first = .ok result := by
  cases first <;> simp [Except.mapError]

/-- A fold that succeeds keeps what each of its steps keeps, and what a step shows of
    its item holds of every item. -/
theorem foldlM_each (kept : β → Prop) (shown : α → Prop) {step : β → α → Except ε β}
    {items : List α} {start result : β} (folded : items.foldlM step start = .ok result)
    (initial : kept start)
    (stepped : ∀ state item next, item ∈ items → kept state → step state item = .ok next →
      kept next ∧ shown item) : kept result ∧ ∀ item ∈ items, shown item := by
  induction items generalizing start with
  | nil =>
    obtain rfl : start = result := by simpa [pure, Except.pure] using folded
    exact ⟨initial, by simp⟩
  | cons item rest ih =>
    obtain ⟨next, first, later⟩ := bind_eq_ok.mp (by simpa using folded)
    obtain ⟨here, itself⟩ := stepped start item next (by simp) initial first
    obtain ⟨final, others⟩ := ih later here
      fun state item next present => stepped state item next (by simp [present])
    exact ⟨final, List.forall_mem_cons.mpr ⟨itself, others⟩⟩

/-- A fold that succeeds keeps what each of its steps keeps. -/
theorem foldlM_invariant (kept : β → Prop) {step : β → α → Except ε β} {items : List α}
    {start result : β} (folded : items.foldlM step start = .ok result) (initial : kept start)
    (preserved : ∀ state item next, item ∈ items → kept state → step state item = .ok next →
      kept next) : kept result :=
  (foldlM_each kept (fun _ => True) folded initial
    fun state item next present before step =>
      ⟨preserved state item next present before step, trivial⟩).1

/-- Items are checked one after another when each of them passes. -/
theorem forM_eq_ok {check : α → Except ε Unit} {items : List α} {done : Unit} :
    forM items check = .ok done ↔ ∀ item ∈ items, check item = .ok () := by
  induction items with
  | nil => exact iff_of_true rfl (by simp)
  | cons item rest ih =>
    rw [List.forM_cons, bind_eq_ok, List.forall_mem_cons]
    constructor
    · rintro ⟨_, here, behind⟩
      exact ⟨here, ih.mp behind⟩
    · rintro ⟨here, behind⟩
      exact ⟨(), here, ih.mpr behind⟩

/-- A list is mapped in steps when every item is mapped by its own step. -/
theorem mapM_eq_ok {step : α → Except ε β} {items : List α} {results : List β} :
    items.mapM step = .ok results ↔
      List.Forall₂ (fun item result => step item = .ok result) items results := by
  induction items generalizing results with
  | nil => simp [pure, Except.pure, eq_comm]
  | cons item rest ih =>
    simp only [List.mapM_cons, bind_eq_ok, pure, Except.pure, Except.ok.injEq, ih,
      List.forall₂_cons_left_iff]
    grind

/-- A list is mapped in steps up to the first item whose step fails. -/
theorem mapM_eq_error {step : α → Except ε β} {items : List α} {error : ε} :
    items.mapM step = .error error ↔ ∃ before item after, items = before ++ item :: after ∧
      (∀ earlier ∈ before, ∃ result, step earlier = .ok result) ∧ step item = .error error := by
  induction items with
  | nil =>
    refine iff_of_false (by rintro ⟨⟩) ?_
    rintro ⟨before, item, after, split, -⟩
    simp at split
  | cons item rest ih =>
    rw [List.mapM_cons, cons_eq_error]
    constructor
    · rintro (here | ⟨result, passed, behind⟩)
      · exact ⟨[], item, rest, rfl, by simp, here⟩
      · obtain ⟨before, faulty, after, rfl, earlier, refused⟩ := ih.mp behind
        exact ⟨item :: before, faulty, after, rfl,
          List.forall_mem_cons.mpr ⟨⟨result, passed⟩, earlier⟩, refused⟩
    · rintro ⟨before, faulty, after, split, earlier, refused⟩
      cases before with
      | nil =>
        obtain ⟨rfl, -⟩ := List.cons.inj split
        exact .inl refused
      | cons first others =>
        obtain ⟨rfl, behind⟩ := List.cons.inj split
        obtain ⟨⟨result, passed⟩, earlier⟩ := List.forall_mem_cons.mp earlier
        exact .inr ⟨result, passed, ih.mpr ⟨others, faulty, after, behind, earlier, refused⟩⟩

/-- Items are checked as they are mapped, with no result kept. -/
theorem forM_eq_map_mapM {check : α → Except ε Unit} {items : List α} :
    forM items check = (items.mapM check).map fun _ => () := by
  induction items with
  | nil => rfl
  | cons item rest ih =>
    rw [List.forM_cons, List.mapM_cons, ih]
    cases check item with
    | error refusal => rfl
    | ok passed => cases rest.mapM check <;> rfl

/-- A check of items is refused at the first of them that does not pass. -/
theorem forM_eq_error {check : α → Except ε Unit} {items : List α} {error : ε} :
    forM items check = .error error ↔ ∃ before item after, items = before ++ item :: after ∧
      (∀ earlier ∈ before, check earlier = .ok ()) ∧ check item = .error error := by
  have passes (item : α) : (∃ result, check item = .ok result) ↔ check item = .ok () := by
    constructor
    · rintro ⟨_, passed⟩
      exact passed
    · exact fun passed => ⟨(), passed⟩
  simp only [forM_eq_map_mapM, map_eq_error, mapM_eq_error, passes]

/-- A list is mapped in steps as soon as every step succeeds. -/
theorem exists_mapM_eq_ok {step : α → Except ε β} {items : List α}
    (each : ∀ item ∈ items, ∃ result, step item = .ok result) :
    ∃ results, items.mapM step = .ok results := by
  induction items with
  | nil => exact ⟨[], rfl⟩
  | cons item rest ih =>
    obtain ⟨⟨result, here⟩, others⟩ := List.forall_mem_cons.mp each
    obtain ⟨results, behind⟩ := ih others
    exact ⟨result :: results, mapM_eq_ok.mpr (.cons here (mapM_eq_ok.mp behind))⟩

/-- Of two lists that are related item by item, the second has a partner at every index of
    the first. -/
theorem exists_partner {R : α → β → Prop} {items : List α} {results : List β}
    (related : List.Forall₂ R items results) {index : Nat} {item : α}
    (found : items[index]? = some item) :
    ∃ result, results[index]? = some result ∧ R item result := by
  induction related generalizing index with
  | nil => simp at found
  | cons here _ ih =>
    cases index with
    | zero => exact ⟨_, rfl, by simpa [← Option.some.inj found] using here⟩
    | succ index => exact ih (by simpa using found)

end BinaryLayout
