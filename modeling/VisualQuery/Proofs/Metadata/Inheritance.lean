import VisualQuery.Metadata.Registry

/-!
# Metadata that labels inherit

A label inherits along its line: its own declaration, that of its parent, that
of its grandparent and so on, up to a label without declaration or just before
a label that occurs a second time.  Every field of the resolved metadata is
what the first declaration of the line sets, and if none sets it, what the
overrides of the default set, and else what the builtin default sets.  A
resolver answers the same whatever it has been asked before.
-/

namespace VisualQuery
namespace LabelRegistry

/-! ## The line of a label -/

/-- The label some generations above a label. -/
def ancestor? (declarations : KeyedList LabelDeclaration) (label : String) :
    Nat → Option String
  | 0 => some label
  | generation + 1 =>
    match KeyedList.lookup? label declarations with
    | some declaration =>
      match declaration.parent with
      | some parent => ancestor? declarations parent generation
      | none => none
    | none => none

/-- The declarations of a label, its parent, its grandparent and so on, as long
as the labels are declared, differ from each other and were not passed
before. -/
structure LineOf
    (declarations : KeyedList LabelDeclaration)
    (passed : List String)
    (label : String)
    (lineage : List LabelDeclaration) : Prop where
  declared :
    ∀ generation declaration, lineage[generation]? = some declaration →
      ∃ name, ancestor? declarations label generation = some name ∧
        KeyedList.lookup? name declarations = some declaration
  fresh :
    ∀ generation < lineage.length, ∀ name, ancestor? declarations label generation = some name →
      name ∉ passed ∧
        ∀ earlier < generation, ancestor? declarations label earlier ≠ some name
  /-- The line does not end too early. -/
  ends :
    ∀ name, ancestor? declarations label lineage.length = some name →
      KeyedList.lookup? name declarations = none ∨ name ∈ passed ∨
        ∃ earlier < lineage.length, ancestor? declarations label earlier = some name

variable
  {declarations : KeyedList LabelDeclaration}
  {passed : List String}
  {label parent : String}
  {lineage : List LabelDeclaration}

/-- Above a label with a parent stands what stands above the parent. -/
theorem ancestor?_succ
    {declaration : LabelDeclaration}
    (found : KeyedList.lookup? label declarations = some declaration)
    (isParent : declaration.parent = some parent)
    (generation : Nat) :
    ancestor? declarations label (generation + 1) =
      ancestor? declarations parent generation := by
  simp only [ancestor?, found, isParent]

namespace LineOf

/-- At a label that was passed before, or is not declared, the line is over. -/
theorem nil
    (atEnd : KeyedList.lookup? label declarations = none ∨ label ∈ passed) :
    LineOf declarations passed label [] where
  declared := by simp
  fresh := by simp
  ends := by
    intro name same
    injection same with same
    subst same
    exact atEnd.imp_right Or.inl

/-- The line ends with a declaration that names no parent. -/
theorem single
    {declaration : LabelDeclaration}
    (found : KeyedList.lookup? label declarations = some declaration)
    (isTop : declaration.parent = none)
    (new : label ∉ passed) :
    LineOf declarations passed label [declaration] where
  declared := by
    intro generation other at_generation
    cases generation with
    | zero =>
        injection at_generation with same
        subst same
        exact ⟨label, rfl, found⟩
    | succ generation => cases at_generation
  fresh := by
    intro generation below name same
    obtain rfl : generation = 0 := Nat.lt_one_iff.1 below
    injection same with same
    subst same
    exact ⟨new, by simp⟩
  ends := by
    intro name same
    simp [ancestor?, found, isTop] at same

/-- A declaration stands in front of the line of its parent. -/
theorem cons
    {declaration : LabelDeclaration}
    (found : KeyedList.lookup? label declarations = some declaration)
    (isParent : declaration.parent = some parent)
    (new : label ∉ passed)
    (above : LineOf declarations (label :: passed) parent lineage) :
    LineOf declarations passed label (declaration :: lineage) where
  declared := by
    intro generation other at_generation
    cases generation with
    | zero =>
        injection at_generation with same
        subst same
        exact ⟨label, rfl, found⟩
    | succ generation =>
        rw [ancestor?_succ found isParent]
        exact above.declared generation other at_generation
  fresh := by
    intro generation below name same
    cases generation with
    | zero =>
        injection same with same
        subst same
        exact ⟨new, by simp⟩
    | succ generation =>
        rw [ancestor?_succ found isParent] at same
        obtain ⟨outside, differs⟩ :=
          above.fresh generation (Nat.lt_of_succ_lt_succ below) name same
        rw [List.mem_cons, not_or] at outside
        obtain ⟨notLabel, notPassed⟩ := outside
        refine ⟨notPassed, ?_⟩
        intro earlier smaller
        cases earlier with
        | zero =>
            intro isLabel
            injection isLabel with isLabel
            exact notLabel isLabel.symm
        | succ earlier =>
            rw [ancestor?_succ found isParent]
            exact differs earlier (Nat.lt_of_succ_lt_succ smaller)
  ends := by
    intro name same
    rw [List.length_cons, ancestor?_succ found isParent] at same
    rcases above.ends name same with undeclared | isPassed | ⟨earlier, below, repeated⟩
    · exact Or.inl undeclared
    · rcases List.mem_cons.1 isPassed with rfl | before
      · exact Or.inr (Or.inr ⟨0, Nat.succ_pos _, rfl⟩)
      · exact Or.inr (Or.inl before)
    · refine Or.inr (Or.inr ⟨earlier + 1, Nat.succ_lt_succ below, ?_⟩)
      rw [ancestor?_succ found isParent]
      exact repeated

/-- No line goes on where another one ends. -/
theorem length_le
    {other : List LabelDeclaration}
    (isLine : LineOf declarations passed label lineage)
    (isOther : LineOf declarations passed label other) :
    other.length ≤ lineage.length := by
  refine Nat.le_of_not_lt fun longer => ?_
  obtain ⟨name, at_end, found⟩ :=
    isOther.declared lineage.length _ (List.getElem?_eq_getElem longer)
  obtain ⟨notPassed, differs⟩ := isOther.fresh lineage.length longer name at_end
  rcases isLine.ends name at_end with undeclared | isPassed | ⟨earlier, below, repeated⟩
  · rw [undeclared] at found
    cases found
  · exact notPassed isPassed
  · exact differs earlier below repeated

/-- A label has one line. -/
theorem unique
    {other : List LabelDeclaration}
    (isLine : LineOf declarations passed label lineage)
    (isOther : LineOf declarations passed label other) :
    other = lineage := by
  apply List.ext_getElem
  · exact Nat.le_antisymm (isLine.length_le isOther) (isOther.length_le isLine)
  · intro generation below otherBelow
    obtain ⟨name, at_generation, found⟩ :=
      isOther.declared generation _ (List.getElem?_eq_getElem below)
    obtain ⟨again, sameGeneration, foundAgain⟩ :=
      isLine.declared generation _ (List.getElem?_eq_getElem otherBelow)
    rw [at_generation] at sameGeneration
    injection sameGeneration with same
    rw [← same, found] at foundAgain
    injection foundAgain

end LineOf

/-- The walk up the parents visits the line, cycles or not. -/
theorem ancestry_lineOf
    (declarations : KeyedList LabelDeclaration)
    (label : String)
    (passed : List String) :
    LineOf declarations passed label (ancestry declarations label passed) := by
  fun_induction ancestry declarations label passed with
  | case1 label passed isPassed => exact LineOf.nil (Or.inr isPassed)
  | case2 label passed new undeclared => exact LineOf.nil (Or.inl undeclared)
  | case3 label passed new declaration found parent isParent inductionHypothesis =>
      exact LineOf.cons found isParent new inductionHypothesis
  | case4 label passed new declaration found isTop => exact LineOf.single found isTop new

/-! ## The first declaration that sets a field -/

/-- A field that an overlay takes from the first declaration that sets it. -/
structure Layered {α : Type} (field : LabelDeclaration → Option α) : Prop where
  unset : field {} = none
  overlay :
    ∀ declaration base : LabelDeclaration,
      field (declaration.overlay base) = (field declaration <|> field base)

/-- What the labels of a line inherit from, nearest first. -/
def sources (lineage : List LabelDeclaration) (overrides : Option LabelDeclaration) :
    List LabelDeclaration :=
  lineage ++ overrides.toList ++ [.builtin]

/-- The declarations of a line on top of the default. -/
def merged (registry : LabelRegistry) (lineage : List LabelDeclaration) : LabelDeclaration :=
  (lineage.foldl LabelDeclaration.overlay {}).overlay registry.default

section

variable
  {α : Type}
  {field : LabelDeclaration → Option α}
  (declared : List (String × LabelDeclaration))
  (overrides : Option LabelDeclaration)
  (relationFilter : Option (Relationship → Bool))
  (lineage : List LabelDeclaration)

theorem Layered.foldl_overlay
    (layered : Layered field)
    (start : LabelDeclaration) :
    field (lineage.foldl LabelDeclaration.overlay start) =
      (field start <|> lineage.findSome? field) := by
  induction lineage generalizing start with
  | nil => simp
  | cons declaration rest inductionHypothesis =>
      rw [List.foldl_cons, inductionHypothesis, layered.overlay, List.findSome?_cons]
      cases field start <;> cases field declaration <;> rfl

/-- The default is the overrides on top of the builtin declaration. -/
theorem Layered.default_build (layered : Layered field) :
    field (build declared overrides relationFilter).default =
      (overrides.toList ++ [LabelDeclaration.builtin]).findSome? field := by
  cases overrides with
  | none =>
      show field LabelDeclaration.builtin = _
      simp
  | some overrides =>
      show field (overrides.overlay LabelDeclaration.builtin) = _
      rw [layered.overlay]
      cases first : field overrides <;> simp [first]

/-- Merging keeps what the first declaration sets. -/
theorem Layered.merged_eq (layered : Layered field) :
    field ((build declared overrides relationFilter).merged lineage) =
      (sources lineage overrides).findSome? field := by
  rw [merged, layered.overlay, layered.foldl_overlay, layered.unset, layered.default_build]
  simp [sources]

/-- A field that the builtin declaration sets is always set. -/
theorem Layered.merged_eq_some
    (layered : Layered field)
    {standard : α}
    (set : field LabelDeclaration.builtin = some standard)
    (fallback : α) :
    (sources lineage overrides).findSome? field =
      some ((field ((build declared overrides relationFilter).merged lineage)).getD fallback) := by
  rw [layered.merged_eq]
  cases found : (sources lineage overrides).findSome? field with
  | some value => rfl
  | none =>
      have unset := List.findSome?_eq_none_iff.1 found LabelDeclaration.builtin (by simp [sources])
      rw [set] at unset
      cases unset

/-- An empty ordering key is a key that is set, and orders nothing. -/
theorem Layered.orderingKey_merged
    {key : LabelDeclaration → Option String}
    (layered : Layered key)
    {standard : String}
    (set : key LabelDeclaration.builtin = some standard) :
    ∃ chosen, (sources lineage overrides).findSome? key = some chosen ∧
      orderingKey (key ((build declared overrides relationFilter).merged lineage)) =
        if chosen = "" then none else some chosen := by
  refine ⟨_, layered.merged_eq_some declared overrides relationFilter lineage set "", ?_⟩
  rw [layered.merged_eq]
  cases found : (sources lineage overrides).findSome? key with
  | none => rfl
  | some chosen =>
      by_cases isEmpty : chosen = "" <;> simp [orderingKey, Option.filter, isEmpty]

end

/-- Every field of resolved metadata is set by the first of some declarations
that sets it.  An empty ordering key counts as set, and means no ordering. -/
structure SetByFirst (sources : List LabelDeclaration) (resolved : ResolvedLabel) : Prop where
  constraintAttribute :
    sources.findSome? LabelDeclaration.constraintAttribute = some resolved.constraintAttribute
  predefinedConstraints :
    sources.findSome? LabelDeclaration.predefinedConstraints = some resolved.predefinedConstraints
  valueOrderBy :
    ∃ key, sources.findSome? LabelDeclaration.valueOrderBy = some key ∧
      resolved.valueOrderBy = if key = "" then none else some key
  valueOrderAscending :
    sources.findSome? LabelDeclaration.valueOrderAscending = some resolved.valueOrderAscending
  resultOrderBy :
    ∃ key, sources.findSome? LabelDeclaration.resultOrderBy = some key ∧
      resolved.resultOrderBy = if key = "" then none else some key
  resultOrderAscending :
    sources.findSome? LabelDeclaration.resultOrderAscending = some resolved.resultOrderAscending
  searchable : sources.findSome? LabelDeclaration.searchable = some resolved.searchable
  autoExpandRelations :
    sources.findSome? LabelDeclaration.autoExpandRelations = some resolved.autoExpandRelations
  group : sources.findSome? LabelDeclaration.group = some resolved.group
  resultHook :
    resolved.hooks.result = sources.findSome? fun declaration => declaration.hooks.result
  valuesHook :
    resolved.hooks.values = sources.findSome? fun declaration => declaration.hooks.values
  countHook :
    resolved.hooks.count = sources.findSome? fun declaration => declaration.hooks.count
  relationsHook :
    resolved.hooks.relations = sources.findSome? fun declaration => declaration.hooks.relations

/-- A label is resolved to what the first declarations of the walk set. -/
theorem resolve_setByFirst
    (declared : List (String × LabelDeclaration))
    (overrides : Option LabelDeclaration)
    (relationFilter : Option (Relationship → Bool))
    (label : String) :
    SetByFirst (sources ((build declared overrides relationFilter).chain label) overrides)
      ((build declared overrides relationFilter).resolve label) := by
  have single {α : Type} (field : LabelDeclaration → Option α) (layered : Layered field)
      {standard : α} (set : field LabelDeclaration.builtin = some standard) (fallback : α) :=
    layered.merged_eq_some declared overrides relationFilter
      ((build declared overrides relationFilter).chain label) set fallback
  have ordered (key : LabelDeclaration → Option String) (layered : Layered key)
      {standard : String} (set : key LabelDeclaration.builtin = some standard) :=
    layered.orderingKey_merged declared overrides relationFilter
      ((build declared overrides relationFilter).chain label) set
  have hooked (hook : LabelDeclaration → Option QueryHook) (layered : Layered hook) :=
    layered.merged_eq declared overrides relationFilter
      ((build declared overrides relationFilter).chain label)
  exact
    { constraintAttribute :=
        single LabelDeclaration.constraintAttribute ⟨rfl, fun _ _ => rfl⟩ rfl _
      predefinedConstraints :=
        single LabelDeclaration.predefinedConstraints ⟨rfl, fun _ _ => rfl⟩ rfl _
      valueOrderBy := ordered LabelDeclaration.valueOrderBy ⟨rfl, fun _ _ => rfl⟩ rfl
      valueOrderAscending :=
        single LabelDeclaration.valueOrderAscending ⟨rfl, fun _ _ => rfl⟩ rfl _
      resultOrderBy := ordered LabelDeclaration.resultOrderBy ⟨rfl, fun _ _ => rfl⟩ rfl
      resultOrderAscending :=
        single LabelDeclaration.resultOrderAscending ⟨rfl, fun _ _ => rfl⟩ rfl _
      searchable := single LabelDeclaration.searchable ⟨rfl, fun _ _ => rfl⟩ rfl _
      autoExpandRelations :=
        single LabelDeclaration.autoExpandRelations ⟨rfl, fun _ _ => rfl⟩ rfl _
      group := single LabelDeclaration.group ⟨rfl, fun _ _ => rfl⟩ rfl _
      resultHook := hooked (fun declaration => declaration.hooks.result) ⟨rfl, fun _ _ => rfl⟩
      valuesHook := hooked (fun declaration => declaration.hooks.values) ⟨rfl, fun _ _ => rfl⟩
      countHook := hooked (fun declaration => declaration.hooks.count) ⟨rfl, fun _ _ => rfl⟩
      relationsHook :=
        hooked (fun declaration => declaration.hooks.relations) ⟨rfl, fun _ _ => rfl⟩ }

end LabelRegistry

/-! ## Answers of a resolver -/

namespace LabelResolver

/-- What a resolver remembers is what its registry would answer. -/
def Faithful (resolver : LabelResolver) : Prop :=
  ∀ label resolved, KeyedList.lookup? label resolver.known = some resolved →
    resolved = resolver.registry.resolve label

variable {resolver : LabelResolver}

theorem faithful_new (registry : LabelRegistry) :
    Faithful { registry } := by
  intro label resolved found
  cases found

/-- A resolver that remembers faithfully answers as its registry does, and goes
on remembering faithfully. -/
theorem Faithful.resolve
    (faithful : resolver.Faithful)
    (label : String) :
    (resolver.resolve label).1 = resolver.registry.resolve label ∧
      (resolver.resolve label).2.registry = resolver.registry ∧
      (resolver.resolve label).2.Faithful := by
  unfold LabelResolver.resolve
  cases found : KeyedList.lookup? label resolver.known with
  | some resolved => exact ⟨faithful label resolved found, rfl, faithful⟩
  | none =>
      refine ⟨rfl, rfl, ?_⟩
      intro other resolved remembered
      by_cases same : other = label
      · subst same
        rw [KeyedList.lookup?_insert_self] at remembered
        injection remembered with remembered
        exact remembered.symm
      · rw [KeyedList.lookup?_insert_of_ne same] at remembered
        exact faithful other resolved remembered

/-- Nothing asked on the way changes that. -/
theorem Faithful.resolveAll
    (faithful : resolver.Faithful)
    (labels : List String) :
    (resolver.resolveAll labels).2.registry = resolver.registry ∧
      (resolver.resolveAll labels).2.Faithful := by
  induction labels generalizing resolver with
  | nil => exact ⟨rfl, faithful⟩
  | cons label rest inductionHypothesis =>
      obtain ⟨_, sameRegistry, stillFaithful⟩ := faithful.resolve label
      obtain ⟨sameAfter, faithfulAfter⟩ := inductionHypothesis stillFaithful
      exact ⟨sameAfter.trans sameRegistry, faithfulAfter⟩

/-- Whatever a resolver was asked before, it answers a label with metadata that
is set field by field by the first declaration along the line of the label, else
by the overrides of the default, else by the builtin default.  The line of a
label exists whatever the parents are, cycles included, and there is only
one. -/
theorem answer_setByFirst
    (declared : List (String × LabelDeclaration))
    (overrides : Option LabelDeclaration)
    (relationFilter : Option (Relationship → Bool))
    (before : List String)
    (label : String) :
    ∃ lineage,
      LabelRegistry.LineOf (LabelRegistry.build declared overrides relationFilter).declarations
          [] label lineage ∧
        (∀ other,
          LabelRegistry.LineOf
              (LabelRegistry.build declared overrides relationFilter).declarations [] label
              other →
            other = lineage) ∧
        LabelRegistry.SetByFirst (lineage ++ overrides.toList ++ [.builtin])
          (LabelResolver.resolve label (LabelResolver.resolveAll
            { registry := .build declared overrides relationFilter } before).2).1 := by
  have isLine := LabelRegistry.ancestry_lineOf
    (LabelRegistry.build declared overrides relationFilter).declarations label []
  refine ⟨_, isLine, fun other isOther => isLine.unique isOther, ?_⟩
  obtain ⟨sameRegistry, faithful⟩ :=
    (faithful_new (.build declared overrides relationFilter)).resolveAll before
  rw [(faithful.resolve label).1, sameRegistry]
  exact LabelRegistry.resolve_setByFirst declared overrides relationFilter label

/-- Two labels that are parents of each other: an empty ordering key of the
nearer one hides that of the other, which still decides about grouping. -/
example :
    let resolved :=
      (LabelResolver.resolve "A" {
        registry := .build
          [("A", { parent := some "B", valueOrderBy := some "" }),
            ("B", { parent := some "A", valueOrderBy := some "name", group := some true })]
          none none }).1
    resolved.valueOrderBy = none ∧ resolved.group = true := by
  decide +kernel

end LabelResolver
end VisualQuery
