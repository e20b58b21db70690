import VisualQuery.Proofs.Json.Trees

/-!
# Reading lists and records

A list is read if each of its items is, in order.  A field of a record comes from a
member of the tree or is the default, so what holds of all parts of a tree holds of
the sources of all fields.
-/

namespace VisualQuery
namespace Json

/-! ## Lists -/

section

variable {α β : Type} {read : α → Option β} {items : List α} {results : List β}

theorem mapM_eq_some_iff :
    items.mapM read = some results ↔
      List.Forall₂ (fun item result => read item = some result) items results := by
  induction items generalizing results with
  | nil => simp [eq_comm]
  | cons item rest inductionHypothesis =>
      simp only [List.mapM_cons, bind, Option.bind_eq_some_iff, pure, Option.some.injEq,
        inductionHypothesis, List.forall₂_cons_left_iff]
      grind

/-- Two ways of reading that agree on the items agree on the list. -/
theorem mapM_congr
    {other : α → Option β}
    (same : ∀ item ∈ items, read item = other item) :
    items.mapM read = items.mapM other := by
  induction items with
  | nil => rfl
  | cons item rest inductionHypothesis =>
      obtain ⟨first, later⟩ := List.forall_mem_cons.1 same
      rw [List.mapM_cons, List.mapM_cons, first, inductionHypothesis later]

/-- A written list is read back exactly if each of its items is. -/
theorem mapM_map_eq_some_iff {write : β → α} :
    (results.map write).mapM read = some results ↔
      ∀ result ∈ results, read (write result) = some result := by
  rw [mapM_eq_some_iff, List.forall₂_map_left_iff, List.forall₂_same]

/-- A list can be read exactly if each of its items can. -/
theorem isSome_mapM (read : α → Option β) (items : List α) :
    (items.mapM read).isSome = items.all fun item => (read item).isSome := by
  induction items with
  | nil => rfl
  | cons item rest inductionHypothesis =>
      rw [List.mapM_cons, List.all_cons, ← inductionHypothesis]
      cases read item <;> cases rest.mapM read <;> rfl

/-- What is read from a list was read from its items. -/
theorem exists_of_mem_mapM
    (decoded : items.mapM read = some results)
    {result : β}
    (member : result ∈ results) :
    ∃ item ∈ items, read item = some result := by
  have paired := mapM_eq_some_iff.1 decoded
  clear decoded
  induction paired with
  | nil => cases member
  | cons first _ inductionHypothesis =>
      rcases List.mem_cons.1 member with rfl | later
      · exact ⟨_, List.mem_cons_self, first⟩
      · obtain ⟨item, listed, itemRead⟩ := inductionHypothesis later
        exact ⟨item, List.mem_cons_of_mem _ listed, itemRead⟩

end

section

variable {α : Type} {decode : Json → Option α}

/-- Only arrays are read as lists, and what is read comes from their items. -/
theorem exists_of_list?
    {tree : Json}
    {results : List α}
    (read : list? decode tree = some results) :
    ∃ items, tree = .arr items ∧
      ∀ result ∈ results, ∃ item ∈ items, decode item = some result := by
  cases tree with
  | arr items => exact ⟨items, rfl, fun _ member => exists_of_mem_mapM read member⟩
  | null | bool | int | float | str | obj | unreadable => cases read

/-- A written array is read back exactly if each of its items is. -/
theorem list?_map_eq_some_iff
    {write : α → Json}
    {results : List α} :
    list? decode (.arr (results.map write)) = some results ↔
      ∀ result ∈ results, decode (write result) = some result :=
  mapM_map_eq_some_iff

@[simp] theorem list?_strings (texts : List String) :
    list? str? (strings texts) = some texts :=
  list?_map_eq_some_iff.2 fun _ _ => rfl

/-! ## Records -/

variable {name : String} {members : Members}

/-- A member that is found is one of the members. -/
theorem mem_of_member?
    {value : Json}
    (found : member? name members = some (some value)) :
    (name, value) ∈ members := by
  unfold member? at found
  split at found
  · cases found
  · rename_i single
    obtain rfl := Option.some.inj (Option.some.inj found)
    have listed := List.mem_filter.1 (single ▸ List.mem_cons_self)
    rw [← of_decide_eq_true listed.2]
    exact listed.1
  · cases found

/-- A defaulted field is the default or comes from a member. -/
theorem eq_default_or_exists_of_defaulted?
    {default result : α}
    (read : defaulted? default decode name members = some result) :
    result = default ∨ ∃ source, (name, source) ∈ members ∧ decode source = some result := by
  obtain ⟨found, isFound, read⟩ := Option.bind_eq_some_iff.1 read
  cases found with
  | none => exact Or.inl (Option.some.inj read).symm
  | some source => exact Or.inr ⟨source, mem_of_member? isFound, read⟩

/-- A field is set exactly if its member is there, is not null and is read. -/
theorem optional?_eq_some_iff {result : α} :
    optional? decode name members = some (some result) ↔
      ∃ source, member? name members = some (some source) ∧ source ≠ .null ∧
        decode source = some result := by
  rw [optional?, Option.bind_eq_bind, Option.bind_eq_some_iff]
  constructor
  · rintro ⟨found, isFound, read⟩
    split at read
    · cases read
    · cases read
    · rename_i source notNull
      obtain ⟨_, sourceRead, same⟩ := Option.map_eq_some_iff.1 read
      exact ⟨source, isFound, notNull, Option.some.inj same ▸ sourceRead⟩
  · rintro ⟨source, isFound, notNull, sourceRead⟩
    refine ⟨some source, isFound, ?_⟩
    split
    · cases ‹some source = none›
    · exact absurd (Option.some.inj ‹_›) notNull
    · rename_i same
      rw [← Option.some.inj same, sourceRead, Option.map_some]

/-- The fields of a record hold no other numbers than the tree. -/
theorem InRange.of_record?
    {tree : Json}
    {names : List String}
    (inRange : tree.InRange)
    (found : record? names tree = some members) :
    ∀ member ∈ members, member.2.InRange := by
  cases inRange with
  | obj each =>
      obtain rfl := Option.some.inj found
      exact each
  | arr each =>
      rw [record?] at found
      split at found
      · obtain rfl := Option.some.inj found
        exact fun member listed => each member.2 (List.of_mem_zip listed).2
      · cases found
  | null | bool | int | float | str | unreadable => cases found

/-- What holds of everything that is read from trees in range holds of all items of
a field of a record in range. -/
theorem forall_of_defaulted?_list?
    {property : α → Prop}
    (each : ∀ tree result, tree.InRange → decode tree = some result → property result)
    (inRange : ∀ member ∈ members, member.2.InRange)
    {results : List α}
    (read : defaulted? [] (list? decode) name members = some results) :
    ∀ result ∈ results, property result := by
  intro result listed
  rcases eq_default_or_exists_of_defaulted? read with rfl | ⟨source, member, sourceRead⟩
  · cases listed
  · obtain ⟨items, rfl, fromItems⟩ := exists_of_list? sourceRead
    obtain ⟨item, isItem, itemRead⟩ := fromItems result listed
    exact each item result (inRange_arr_iff.1 (inRange _ member) item isItem) itemRead

end

end Json
end VisualQuery
