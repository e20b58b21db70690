import VisualQuery.Configuration
import VisualQuery.Proofs.Metadata.Registration

/-!
# Parents that validation misses

Validation looks for the parent of a label among the labels of the
configuration.  The registry built from the same configuration also knows the
labels that are only listed as children.  So what passes validation inherits
from registered labels only, but a configuration with a parent that is only
listed as a child is refused.
-/

namespace VisualQuery
namespace Configuration

variable {configuration : Configuration} {known : List String} {label parent : String}

/-- A label is the first in order whose parent is not among some known labels. -/
structure FirstWithout
    (known : List String)
    (labels : KeyedList LabelDeclaration)
    (label parent : String) : Prop where
  inherits :
    ∃ declaration, (label, declaration) ∈ labels ∧ declaration.parent = some parent
  isUnknown : parent ∉ known
  isFirst :
    ∀ earlier ∈ labels, earlier.1 < label →
      ∀ elder, earlier.2.parent = some elder → elder ∈ known

/-- All parents are among some known labels. -/
def InheritsFrom (known : List String) (labels : KeyedList LabelDeclaration) : Prop :=
  ∀ entry ∈ labels, ∀ parent, entry.2.parent = some parent → parent ∈ known

/-- Validation tells what the registry of the configuration knows about the
parents. -/
structure AgreesWithRegistry (configuration : Configuration) : Prop where
  accepts :
    configuration.validate = .ok () ↔
      InheritsFrom configuration.registry.labels configuration.labels
  refuses :
    ∀ label parent,
      configuration.validate = .error (.unknownParent label parent) ↔
        FirstWithout configuration.registry.labels configuration.labels label parent

/-- There is only one first label. -/
theorem FirstWithout.unique
    {labels : KeyedList LabelDeclaration}
    {otherLabel otherParent : String}
    (sorted : labels.Sorted)
    (isFirst : FirstWithout known labels label parent)
    (isOther : FirstWithout known labels otherLabel otherParent) :
    otherLabel = label ∧ otherParent = parent := by
  obtain ⟨declaration, member, own⟩ := isFirst.inherits
  obtain ⟨otherDeclaration, otherMember, otherOwn⟩ := isOther.inherits
  have notBefore : ¬ label < otherLabel := fun before =>
    isFirst.isUnknown (isOther.isFirst _ member before parent own)
  have notBehind : ¬ otherLabel < label := fun behind =>
    isOther.isUnknown (isFirst.isFirst _ otherMember behind otherParent otherOwn)
  have sameLabel : otherLabel = label :=
    String.le_antisymm (String.not_lt.1 notBefore) (String.not_lt.1 notBehind)
  have sameEntry := sorted.eq_of_key_eq otherMember member sameLabel
  injection sameEntry with _ sameDeclaration
  rw [sameDeclaration, own] at otherOwn
  injection otherOwn with sameParent
  exact ⟨sameLabel, sameParent.symm⟩

/-- A first label stays first while more labels are known than before, but not
its parent. -/
theorem FirstWithout.mono
    {labels : KeyedList LabelDeclaration}
    {more : List String}
    (isFirst : FirstWithout known labels label parent)
    (subset : known ⊆ more)
    (isUnknown : parent ∉ more) :
    FirstWithout more labels label parent where
  inherits := isFirst.inherits
  isUnknown := isUnknown
  isFirst earlier member before elder own :=
    subset (isFirst.isFirst earlier member before elder own)

/-! ## What is decoded -/

theorem sorted_labels?
    {value : Json}
    {labels : KeyedList LabelDeclaration}
    (decoded : labels? value = some labels) :
    labels.Sorted := by
  simp only [labels?, bind, Option.bind_eq_some_iff, pure, Option.some.injEq] at decoded
  obtain ⟨_, _, declared, _, rfl⟩ := decoded
  exact KeyedList.sorted_ofList declared

/-- The labels of a decoded configuration are in order. -/
theorem sorted_labels
    {value : Json}
    (decoded : ofJson? value = some configuration) :
    configuration.labels.Sorted := by
  obtain ⟨members, _, decoded⟩ := Option.bind_eq_some_iff.1 decoded
  obtain ⟨_, _, decoded⟩ := Option.bind_eq_some_iff.1 decoded
  obtain ⟨query, _, decoded⟩ := Option.bind_eq_some_iff.1 decoded
  obtain ⟨default, _, decoded⟩ := Option.bind_eq_some_iff.1 decoded
  obtain ⟨labels, found, decoded⟩ := Option.bind_eq_some_iff.1 decoded
  injection decoded with decoded
  subst decoded
  obtain ⟨member, _, found⟩ := Option.bind_eq_some_iff.1 found
  cases member with
  | none =>
      injection found with isEmpty
      exact isEmpty ▸ List.Pairwise.nil
  | some value => exact sorted_labels? found

/-! ## What validation finds -/

theorem missingParent?_eq_some_iff
    {labels : KeyedList LabelDeclaration}
    {entry : String × LabelDeclaration}
    {error : ConfigurationError} :
    missingParent? labels entry = some error ↔
      ∃ parent, entry.2.parent = some parent ∧ parent ∉ KeyedList.keys labels ∧
        error = .unknownParent entry.1 parent := by
  unfold missingParent?
  cases own : entry.2.parent with
  | none => simp
  | some parent =>
      by_cases isKnown : parent ∈ KeyedList.keys labels
      · simp [KeyedList.contains_iff.2 isKnown, isKnown]
      · have isMissing : KeyedList.contains parent labels = false :=
          Bool.eq_false_iff.2 fun present => isKnown (KeyedList.contains_iff.1 present)
        simp [isMissing, isKnown, eq_comm]

theorem missingParent?_eq_none_iff
    {labels : KeyedList LabelDeclaration}
    {entry : String × LabelDeclaration} :
    missingParent? labels entry = none ↔
      ∀ parent, entry.2.parent = some parent → parent ∈ KeyedList.keys labels := by
  rw [Option.eq_none_iff_forall_ne_some]
  simp only [ne_eq, missingParent?_eq_some_iff]
  constructor
  · intro noError parent own
    by_contra isMissing
    exact noError _ ⟨parent, own, isMissing, rfl⟩
  · rintro declared _ ⟨parent, own, isMissing, _⟩
    exact isMissing (declared parent own)

/-- Validation succeeds if all parents are declared themselves. -/
theorem validate_ok_iff :
    configuration.validate = .ok () ↔
      InheritsFrom (KeyedList.keys configuration.labels) configuration.labels := by
  have none_iff := List.findSome?_eq_none_iff (l := configuration.labels)
    (p := missingParent? configuration.labels)
  simp only [missingParent?_eq_none_iff] at none_iff
  rw [InheritsFrom, ← none_iff, validate]
  cases configuration.labels.findSome? (missingParent? configuration.labels) <;> simp

/-- Validation names the first label whose parent is not declared. -/
theorem validate_error_iff
    (sorted : configuration.labels.Sorted)
    {error : ConfigurationError} :
    configuration.validate = .error error ↔
      ∃ label parent, error = .unknownParent label parent ∧
        FirstWithout (KeyedList.keys configuration.labels) configuration.labels label parent := by
  have found_iff : configuration.validate = .error error ↔
      configuration.labels.findSome? (missingParent? configuration.labels) = some error := by
    rw [validate]
    cases configuration.labels.findSome? (missingParent? configuration.labels) <;> simp
  rw [found_iff, List.findSome?_eq_some_iff]
  constructor
  · rintro ⟨front, entry, back, split, missing, noneBefore⟩
    obtain ⟨parent, own, isUnknown, rfl⟩ := missingParent?_eq_some_iff.1 missing
    refine ⟨entry.1, parent, rfl, ⟨entry.2, ?_, own⟩, isUnknown, ?_⟩
    · rw [split]
      exact List.mem_append_right _ List.mem_cons_self
    · intro earlier member smaller
      rw [split] at member sorted
      exact missingParent?_eq_none_iff.1
        (noneBefore earlier (sorted.mem_front_iff.2 ⟨member, smaller⟩))
  · rintro ⟨label, parent, rfl, ⟨declaration, member, own⟩, isUnknown, isFirst⟩
    obtain ⟨front, back, split⟩ := List.append_of_mem member
    refine ⟨front, (label, declaration), back, split,
      missingParent?_eq_some_iff.2 ⟨parent, own, isUnknown, rfl⟩, ?_⟩
    intro earlier before
    rw [split] at sorted
    obtain ⟨earlierMember, smaller⟩ := sorted.mem_front_iff.1 before
    rw [← split] at earlierMember
    exact missingParent?_eq_none_iff.2 (isFirst earlier earlierMember smaller)

/-! ## What the registry knows -/

/-- The registry knows the labels that are declared and those that are listed
as children. -/
theorem mem_registry_labels_iff
    (sorted : configuration.labels.Sorted) :
    label ∈ configuration.registry.labels ↔
      label ∈ KeyedList.keys configuration.labels ∨
        ∃ entry ∈ configuration.labels, label ∈ entry.2.children := by
  rw [registry, LabelRegistry.mem_labels_iff, sorted.ofList_eq]

/-- Validation agrees with the registry unless the parent it names is listed as
a child. -/
theorem agreesWithRegistry_iff
    (sorted : configuration.labels.Sorted) :
    configuration.AgreesWithRegistry ↔
      ∀ label parent, configuration.validate = .error (.unknownParent label parent) →
        ∀ entry ∈ configuration.labels, parent ∉ entry.2.children := by
  have declaredKnown :
      KeyedList.keys configuration.labels ⊆ configuration.registry.labels := fun label declared =>
    (mem_registry_labels_iff sorted).2 (Or.inl declared)
  constructor
  · intro agrees label parent refused entry member listed
    exact ((agrees.refuses label parent).1 refused).isUnknown
      ((mem_registry_labels_iff sorted).2 (Or.inr ⟨entry, member, listed⟩))
  · intro unlisted
    -- what validation names first is also the first label without a registered parent
    have names : ∀ error, configuration.validate = .error error →
        ∃ label parent, error = .unknownParent label parent ∧
          FirstWithout configuration.registry.labels configuration.labels label parent := by
      intro error refused
      obtain ⟨label, parent, rfl, isFirst⟩ := (validate_error_iff sorted).1 refused
      refine ⟨label, parent, rfl, isFirst.mono declaredKnown ?_⟩
      intro isRegistered
      rcases (mem_registry_labels_iff sorted).1 isRegistered with declared | ⟨entry, member, listed⟩
      · exact isFirst.isUnknown declared
      · exact unlisted label parent refused entry member listed
    refine ⟨⟨?_, ?_⟩, fun label parent => ⟨?_, ?_⟩⟩
    · intro accepted entry member parent own
      exact declaredKnown (validate_ok_iff.1 accepted entry member parent own)
    · intro registered
      cases outcome : configuration.validate with
      | ok => rfl
      | error error =>
          obtain ⟨label, parent, rfl, isFirst⟩ := names error outcome
          obtain ⟨declaration, member, own⟩ := isFirst.inherits
          exact absurd (registered _ member parent own) isFirst.isUnknown
    · intro refused
      obtain ⟨_, _, same, isFirst⟩ := names _ refused
      injection same with sameLabel sameParent
      exact sameLabel ▸ sameParent ▸ isFirst
    · intro isFirst
      cases outcome : configuration.validate with
      | ok =>
          obtain ⟨declaration, member, own⟩ := isFirst.inherits
          exact absurd (declaredKnown (validate_ok_iff.1 outcome _ member parent own))
            isFirst.isUnknown
      | error error =>
          obtain ⟨_, _, rfl, isOther⟩ := names error outcome
          obtain ⟨rfl, rfl⟩ := isFirst.unique sorted isOther
          rfl

/-- Validation of a decoded configuration succeeds exactly if every parent is
declared, and else names the first label whose parent is not, and that parent.
The registry of the configuration also knows the labels listed as children, so
the two agree about unknown parents exactly if the parent that validation names,
if any, is listed nowhere. -/
theorem validate_misses_listed
    {value : Json}
    (decoded : ofJson? value = some configuration) :
    (configuration.validate = .ok () ↔
        InheritsFrom (KeyedList.keys configuration.labels) configuration.labels) ∧
      (∀ error, configuration.validate = .error error ↔
        ∃ label parent, error = .unknownParent label parent ∧
          FirstWithout (KeyedList.keys configuration.labels) configuration.labels label parent) ∧
      (∀ label, label ∈ configuration.registry.labels ↔
        label ∈ KeyedList.keys configuration.labels ∨
          ∃ entry ∈ configuration.labels, label ∈ entry.2.children) ∧
      (configuration.AgreesWithRegistry ↔
        ∀ label parent, configuration.validate = .error (.unknownParent label parent) →
          ∀ entry ∈ configuration.labels, parent ∉ entry.2.children) :=
  have sorted := sorted_labels decoded
  ⟨validate_ok_iff, fun _ => validate_error_iff sorted,
    fun _ => mem_registry_labels_iff sorted, agreesWithRegistry_iff sorted⟩

/-- A parent that another label lists as its child is refused, although it is
registered. -/
theorem validate_misses_listed_customer :
    let value : Json := .obj [("labels", .obj [
      ("Account", .obj [("children", .arr [.str "Customer"])]),
      ("Lead", .obj [("parent", .str "Customer")])])]
    ∃ configuration, ofJson? value = some configuration ∧
      configuration.validate = .error (.unknownParent "Lead" "Customer") ∧
      "Customer" ∈ configuration.registry.labels ∧
      ¬ configuration.AgreesWithRegistry := by
  intro value
  have decoded : ofJson? value = some {
      labels := [("Account", { children := ["Customer"] }), ("Lead", { parent := "Customer" })] } :=
    by rfl
  obtain ⟨_, _, registered, agrees⟩ := validate_misses_listed decoded
  refine ⟨_, decoded, by decide +kernel, ?_, ?_⟩
  · exact (registered _).2 (Or.inr ⟨_, List.mem_cons_self, by decide⟩)
  · intro isAgreed
    exact agrees.1 isAgreed "Lead" "Customer" (by decide +kernel) _ List.mem_cons_self (by decide)

end Configuration
end VisualQuery
