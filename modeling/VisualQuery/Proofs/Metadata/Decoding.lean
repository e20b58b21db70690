import VisualQuery.Proofs.Json.Reading
import VisualQuery.Proofs.Metadata.Registration
import VisualQuery.Proofs.Metadata.Returned

/-!
# Attributes that were read by their names

An attribute is read from its name, and the name of the database identity is read
as the identity.  So attributes that were read differ in their names.  What a
registry returns for a label comes from the declarations it was built from, so it
was read if all their attributes were.
-/

namespace VisualQuery

namespace Attribute

/-- The attribute was read from a name. -/
def IsDecoded (candidate : Attribute) : Prop := ∃ name, ofName name = candidate

theorem IsDecoded.ofName_name
    {candidate : Attribute}
    (decoded : candidate.IsDecoded) :
    ofName candidate.name = candidate := by
  obtain ⟨name, rfl⟩ := decoded
  rw [name_ofName]

/-- The identity is the only attribute with the name of its column. -/
theorem isDecoded_iff {candidate : Attribute} :
    candidate.IsDecoded ↔ candidate ≠ .property internalIdColumn := by
  constructor
  · rintro decoded rfl
    exact absurd decoded.ofName_name (by simp [ofName, name])
  · intro other
    refine ⟨candidate.name, ?_⟩
    cases candidate with
    | internalId => simp [ofName, name]
    | property text =>
        have different : text ≠ internalIdColumn := fun same => other (congrArg property same)
        simp [ofName, name, different]

/-- Different attributes have different names. -/
theorem IsDecoded.eq_of_name_eq
    {left right : Attribute}
    (leftDecoded : left.IsDecoded)
    (rightDecoded : right.IsDecoded)
    (same : left.name = right.name) :
    left = right := by
  rw [← leftDecoded.ofName_name, same, rightDecoded.ofName_name]

theorem isDecoded_of_ofJson?
    {value : Json}
    {candidate : Attribute}
    (read : ofJson? value = some candidate) :
    candidate.IsDecoded := by
  obtain ⟨text, _, named⟩ := Option.map_eq_some_iff.1 read
  exact ⟨text, named⟩

end Attribute

namespace LabelDeclaration

/-- All attributes of a declaration. -/
def attributes (declaration : LabelDeclaration) : List Attribute :=
  declaration.returnAttributes.getD [] ++ declaration.constraintAttribute.toList

/-- All attributes of a declaration were read from names. -/
def IsDecoded (declaration : LabelDeclaration) : Prop :=
  ∀ candidate ∈ declaration.attributes, candidate.IsDecoded

theorem isDecoded_builtin : builtin.IsDecoded := by
  simp [IsDecoded, attributes, builtin, Attribute.isDecoded_iff]

theorem isDecoded_of_ofJson?
    {value : Json}
    {declaration : LabelDeclaration}
    (read : ofJson? value = some declaration) :
    declaration.IsDecoded := by
  obtain ⟨members, _, read⟩ := Option.bind_eq_some_iff.1 read
  obtain ⟨_, _, read⟩ := Option.bind_eq_some_iff.1 read
  obtain ⟨parent, _, read⟩ := Option.bind_eq_some_iff.1 read
  obtain ⟨children, _, read⟩ := Option.bind_eq_some_iff.1 read
  obtain ⟨returned, returnedRead, read⟩ := Option.bind_eq_some_iff.1 read
  obtain ⟨constraint, constraintRead, read⟩ := Option.bind_eq_some_iff.1 read
  -- What else is read, the constraints, the orderings and the flags, names no attribute.
  obtain ⟨_, _, read⟩ := Option.bind_eq_some_iff.1 read
  obtain ⟨_, _, read⟩ := Option.bind_eq_some_iff.1 read
  obtain ⟨_, _, read⟩ := Option.bind_eq_some_iff.1 read
  obtain ⟨_, _, read⟩ := Option.bind_eq_some_iff.1 read
  obtain ⟨_, _, read⟩ := Option.bind_eq_some_iff.1 read
  obtain ⟨_, _, read⟩ := Option.bind_eq_some_iff.1 read
  obtain ⟨_, _, read⟩ := Option.bind_eq_some_iff.1 read
  obtain ⟨_, _, read⟩ := Option.bind_eq_some_iff.1 read
  injection read with read
  subst read
  intro candidate listed
  rcases List.mem_append.1 listed with ofReturned | ofConstraint
  · cases returned with
    | none => cases ofReturned
    | some returned =>
        obtain ⟨_, _, _, listRead⟩ := Json.optional?_eq_some_iff.1 returnedRead
        obtain ⟨_, _, fromItems⟩ := Json.exists_of_list? listRead
        obtain ⟨_, _, itemRead⟩ := fromItems candidate ofReturned
        exact Attribute.isDecoded_of_ofJson? itemRead
  · have set : constraint = some candidate := Option.mem_toList.1 ofConstraint
    rw [set] at constraintRead
    obtain ⟨_, _, _, attributeRead⟩ := Json.optional?_eq_some_iff.1 constraintRead
    exact Attribute.isDecoded_of_ofJson? attributeRead

end LabelDeclaration

namespace LabelRegistry

variable
  {declared : List (String × LabelDeclaration)}
  {overrides : Option LabelDeclaration}

/-- Being adopted leaves the attributes of a declaration. -/
theorem attributes_claimed
    {claimant : Option String}
    {found : Option LabelDeclaration}
    {declaration : LabelDeclaration}
    (registered : claimed claimant found = some declaration) :
    declaration.attributes = (found.getD {}).attributes := by
  cases claimant with
  | none =>
      rw [claimed] at registered
      rw [registered, Option.getD_some]
  | some parent =>
      rw [← Option.some.inj registered]
      rfl

/-- What labels inherit from was read if all declarations were. -/
theorem isDecoded_of_mem_sources
    (decoded : ∀ declaration ∈ declared.map Prod.snd ++ overrides.toList, declaration.IsDecoded)
    (relationFilter : Option (Relationship → Bool))
    (label : String) :
    ∀ source ∈ sources ((build declared overrides relationFilter).chain label) overrides,
      source.IsDecoded := by
  intro source member
  rw [sources, List.mem_append, List.mem_append, List.mem_singleton] at member
  rcases member with (onLine | overriding) | rfl
  · obtain ⟨generation, atGeneration⟩ := List.getElem?_of_mem onLine
    obtain ⟨name, _, registered⟩ := (ancestry_lineOf
      (build declared overrides relationFilter).declarations label []).declared _ _ atGeneration
    rw [lookup?_build] at registered
    rw [LabelDeclaration.IsDecoded, attributes_claimed registered]
    cases found : KeyedList.lookup? name (KeyedList.ofList declared) with
    | none => simp [LabelDeclaration.attributes]
    | some declaration =>
        have listed := (KeyedList.sorted_ofList declared).lookup?_eq_some_iff.1 found
        exact decoded declaration (List.mem_append_left _
          (List.mem_map_of_mem (KeyedList.mem_of_mem_ofList listed)))
  · exact decoded source (List.mem_append_right _ overriding)
  · exact LabelDeclaration.isDecoded_builtin

/-- The attributes returned for a label were read if all declarations were. -/
theorem isDecoded_of_mem_returnAttributes
    (decoded : ∀ declaration ∈ declared.map Prod.snd ++ overrides.toList, declaration.IsDecoded)
    (relationFilter : Option (Relationship → Bool))
    (label : String) :
    ∀ candidate ∈ ((build declared overrides relationFilter).resolve label).returnAttributes,
      candidate.IsDecoded := by
  have sourcesDecoded := isDecoded_of_mem_sources decoded relationFilter label
  -- Lists of one source, whether its own or found first.
  have listed : ∀ source ∈ sources ((build declared overrides relationFilter).chain label)
      overrides, ∀ candidate ∈ source.returnAttributes.getD [], candidate.IsDecoded :=
    fun source member candidate within =>
      sourcesDecoded source member candidate (List.mem_append_left _ within)
  intro candidate returned
  rw [resolve, returned_eq, List.mem_eraseDups, List.mem_append, List.mem_append,
    List.mem_singleton] at returned
  rcases returned with (along | fallback) | rfl
  · obtain ⟨source, member, within⟩ := List.mem_flatMap.1 along
    exact listed source (List.mem_append_left _ (List.mem_append_left _ member)) candidate within
  · have layered : Layered LabelDeclaration.returnAttributes := ⟨rfl, fun _ _ => rfl⟩
    have within := (List.mem_filter.1 fallback).1
    rw [layered.default_build declared overrides relationFilter] at within
    cases first : (overrides.toList ++ [LabelDeclaration.builtin]).findSome?
        LabelDeclaration.returnAttributes with
    | none => simp [first] at within
    | some attributes =>
        obtain ⟨source, member, sets⟩ := List.exists_of_findSome?_eq_some first
        refine listed source ?_ candidate (by rwa [sets, ← first])
        rw [sources, List.append_assoc]
        exact List.mem_append_right _ member
  · obtain ⟨source, member, sets⟩ := List.exists_of_findSome?_eq_some
      (resolve_setByFirst declared overrides relationFilter label).constraintAttribute
    exact sourcesDecoded source member _
      (List.mem_append_right _ (Option.mem_toList.2 sets))

end LabelRegistry
end VisualQuery
