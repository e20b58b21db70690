import Mathlib.Data.List.Induction
import VisualQuery.Proofs.Metadata.Inheritance

/-!
# Attributes that labels return

While every other field is set by the nearest declaration, the returned
attributes are collected along the whole line of a label.  Those of the default
follow, without the identity if the label is registered, and the constraint
attribute comes last.  Of every attribute the first occurrence is kept.
-/

namespace VisualQuery
namespace LabelRegistry

variable
  {declarations : KeyedList LabelDeclaration}
  {passed : List String}
  {label : String}
  {lineage : List LabelDeclaration}

/-! ## First occurrences -/

theorem pushAttribute_eraseDups (attributes : List Attribute) (new : Attribute) :
    pushAttribute attributes.eraseDups new = (attributes ++ [new]).eraseDups := by
  rw [List.eraseDups_append, pushAttribute]
  by_cases occurs : new ∈ attributes <;> simp [List.removeAll, List.eraseDups_cons, occurs]

/-- Pushing attributes one after the other keeps their first occurrences. -/
theorem foldl_pushAttribute (attributes : List Attribute) :
    attributes.foldl pushAttribute [] = attributes.eraseDups := by
  induction attributes using List.reverseRecOn with
  | nil => simp
  | append_singleton rest last inductionHypothesis =>
      rw [List.foldl_append, inductionHypothesis, ← pushAttribute_eraseDups]
      rfl

theorem nodup_pushAttribute
    {attributes : List Attribute}
    (distinct : attributes.Nodup)
    (new : Attribute) :
    (pushAttribute attributes new).Nodup := by
  unfold pushAttribute
  split
  · exact distinct
  · rename_i missing
    exact List.nodup_append.2 ⟨distinct, List.pairwise_singleton _ new, by
      rintro old member _ isNew rfl
      exact missing (List.mem_singleton.1 isNew ▸ member)⟩

/-- No attribute is kept twice. -/
theorem nodup_eraseDups (attributes : List Attribute) : attributes.eraseDups.Nodup := by
  induction attributes using List.reverseRecOn with
  | nil => simp
  | append_singleton rest last inductionHypothesis =>
      rw [← pushAttribute_eraseDups]
      exact nodup_pushAttribute inductionHypothesis last

/-! ## Registered labels -/

/-- The line of a label is empty exactly if the label is not registered. -/
theorem LineOf.eq_nil_iff
    (isLine : LineOf declarations [] label lineage) :
    lineage = [] ↔ KeyedList.contains label declarations = false := by
  rw [KeyedList.contains, Option.isSome_eq_false_iff, Option.isNone_iff_eq_none]
  constructor
  · rintro rfl
    rcases isLine.ends label rfl with undeclared | isPassed | ⟨earlier, below, _⟩
    · exact undeclared
    · cases isPassed
    · exact absurd below (Nat.not_lt_zero earlier)
  · intro undeclared
    exact (LineOf.nil (Or.inl undeclared)).unique isLine

/-- A label is registered if there is a declaration on its line. -/
theorem isRegistered_eq_isEmpty_chain (registry : LabelRegistry) (label : String) :
    registry.isRegistered label = !(registry.chain label).isEmpty := by
  have isLine : LineOf registry.declarations [] label (registry.chain label) :=
    ancestry_lineOf registry.declarations label []
  rw [Bool.eq_iff_iff, Bool.not_eq_true', List.isEmpty_eq_false_iff, ← Bool.not_eq_false]
  exact not_congr isLine.eq_nil_iff.symm

/-- The default of a registry always lists what is returned. -/
theorem exists_default_returnAttributes
    (declared : List (String × LabelDeclaration))
    (overrides : Option LabelDeclaration)
    (relationFilter : Option (Relationship → Bool)) :
    ∃ fallback,
      (build declared overrides relationFilter).default.returnAttributes = some fallback := by
  cases overrides with
  | none => exact ⟨_, rfl⟩
  | some overrides =>
      cases set : overrides.returnAttributes <;>
        simp [build, LabelDeclaration.overlay, set, LabelDeclaration.builtin]

/-! ## Returned attributes -/

/-- The attributes that the declarations of a line list, nearest first. -/
def listedAlong (lineage : List LabelDeclaration) : List Attribute :=
  lineage.flatMap fun declaration => declaration.returnAttributes.getD []

/-- What a label inherits from the default: the identity only if the label is not
registered. -/
def inherited (registered : Bool) (fallback : List Attribute) : List Attribute :=
  fallback.filter fun candidate => !registered || candidate ≠ .internalId

theorem returned_eq
    (lineage : List LabelDeclaration)
    (default : LabelDeclaration)
    (constraint : Attribute) :
    returned lineage default constraint =
      (listedAlong lineage ++
        inherited (!lineage.isEmpty) (default.returnAttributes.getD []) ++
          [constraint]).eraseDups := by
  have same : (fun candidate : Attribute => lineage.isEmpty || !candidate.isInternalId) =
      fun candidate => !(!lineage.isEmpty) || decide (candidate ≠ .internalId) := by
    funext candidate
    cases candidate <;> simp [Attribute.isInternalId]
  rw [returned, foldl_pushAttribute, listedAlong, inherited, same]

/-- The constraint attribute of a label is among the returned ones. -/
theorem constraintAttribute_mem
    (registry : LabelRegistry)
    (label : String) :
    (registry.resolve label).constraintAttribute ∈ (registry.resolve label).returnAttributes := by
  rw [resolve, returned_eq, List.mem_eraseDups]
  exact List.mem_append_right _ List.mem_cons_self

/-- No attribute is returned twice. -/
theorem nodup_returnAttributes
    (registry : LabelRegistry)
    (label : String) :
    (registry.resolve label).returnAttributes.Nodup := by
  rw [resolve, returned_eq]
  exact nodup_eraseDups _

theorem internalId_mem_listedAlong :
    Attribute.internalId ∈ listedAlong lineage ↔
      ∃ declaration ∈ lineage, ∃ attributes,
        declaration.returnAttributes = some attributes ∧ Attribute.internalId ∈ attributes := by
  rw [listedAlong, List.mem_flatMap]
  refine exists_congr fun declaration => and_congr_right fun _ => ?_
  cases declaration.returnAttributes <;> simp

theorem internalId_mem_inherited
    {registered : Bool}
    {fallback : List Attribute} :
    Attribute.internalId ∈ inherited registered fallback ↔
      registered = false ∧ Attribute.internalId ∈ fallback := by
  cases registered <;> simp [inherited]

end LabelRegistry

namespace LabelResolver

open LabelRegistry

/-- Whatever a resolver was asked before, it answers a label with the first
occurrences in the attributes that are listed along the line of the label, then
those of the default, without the identity if the label is registered, and then
its constraint attribute.  So none is returned twice, the constraint attribute is
always returned, and the identity only if it is listed along the line, constrains
the label, or is inherited from the default by a label that is not registered. -/
theorem answer_returnAttributes
    (declared : List (String × LabelDeclaration))
    (overrides : Option LabelDeclaration)
    (relationFilter : Option (Relationship → Bool))
    (before : List String)
    (label : String) :
    let registry := LabelRegistry.build declared overrides relationFilter
    let answer := (LabelResolver.resolve label (LabelResolver.resolveAll { registry } before).2).1
    ∃ lineage fallback,
      LineOf registry.declarations [] label lineage ∧
        (overrides.toList ++ [LabelDeclaration.builtin]).findSome?
            LabelDeclaration.returnAttributes = some fallback ∧
        (lineage ++ overrides.toList ++ [LabelDeclaration.builtin]).findSome?
            LabelDeclaration.constraintAttribute = some answer.constraintAttribute ∧
        answer.returnAttributes =
          (listedAlong lineage ++ inherited (registry.isRegistered label) fallback ++
            [answer.constraintAttribute]).eraseDups ∧
        answer.returnAttributes.Nodup ∧
        answer.returnAttributes ≠ [] ∧
        answer.constraintAttribute ∈ answer.returnAttributes ∧
        (Attribute.internalId ∈ answer.returnAttributes ↔
          (∃ declaration ∈ lineage, ∃ attributes,
              declaration.returnAttributes = some attributes ∧ .internalId ∈ attributes) ∨
            registry.isRegistered label = false ∧ .internalId ∈ fallback ∨
            answer.constraintAttribute = .internalId) := by
  intro registry answer
  have isLine := ancestry_lineOf registry.declarations label []
  have answers : answer = registry.resolve label := by
    obtain ⟨sameRegistry, faithful⟩ := (faithful_new registry).resolveAll before
    exact (faithful.resolve label).1.trans (congrArg (LabelRegistry.resolve · label) sameRegistry)
  obtain ⟨fallback, standard⟩ :=
    exists_default_returnAttributes declared overrides relationFilter
  have collected : answer.returnAttributes =
      (listedAlong (registry.chain label) ++ inherited (registry.isRegistered label) fallback ++
        [answer.constraintAttribute]).eraseDups := by
    rw [answers, isRegistered_eq_isEmpty_chain]
    show returned _ _ _ = _
    rw [returned_eq, standard]
    rfl
  have constrained : answer.constraintAttribute ∈ answer.returnAttributes :=
    answers ▸ constraintAttribute_mem registry label
  refine ⟨registry.chain label, fallback, isLine, ?_, ?_, collected,
    collected ▸ nodup_eraseDups _, List.ne_nil_of_mem constrained, constrained, ?_⟩
  · have layered : Layered LabelDeclaration.returnAttributes := ⟨rfl, fun _ _ => rfl⟩
    rw [← layered.default_build declared overrides relationFilter]
    exact standard
  · rw [answers]
    exact (resolve_setByFirst declared overrides relationFilter label).constraintAttribute
  · rw [collected, List.mem_eraseDups, List.append_assoc, List.mem_append, List.mem_append,
      internalId_mem_listedAlong, internalId_mem_inherited, List.mem_singleton,
      eq_comm (a := Attribute.internalId)]

/-- A label that lists a name of its own after one of its parent's: the attributes
of the nearer declaration come first, and the identity of the default is left
out. -/
example :
    (LabelResolver.resolve "Contact" {
      registry := .build
        [("Account",
            { returnAttributes := some [.property "name", .property "industry"],
              children := ["Contact"] }),
          ("Contact",
            { returnAttributes := some [.property "born", .property "name"],
              constraintAttribute := some (.property "email") })]
        none none }).1.returnAttributes =
      [.property "born", .property "name", .property "industry", .property "email"] := by
  decide +kernel

end LabelResolver
end VisualQuery
