import VisualQuery.Metadata.Declaration
import VisualQuery.Unvisited

/-!
# The registry of labels

The registry holds the declarations by label and resolves a label by walking
from it to its parent, its grandparent and so on.  The walk ends at a label
without declaration or just before a label it has seen, so cycles of parents
do no harm.  The nearest declaration that sets a field wins; only the returned
attributes are collected from the whole walk.  A resolver remembers what it has
answered.
-/

namespace VisualQuery

/-- Full metadata of a label. -/
structure ResolvedLabel where
  label : String
  parent : Option String
  constraintAttribute : Attribute
  returnAttributes : List Attribute
  predefinedConstraints : List String
  valueOrderBy : Option String
  valueOrderAscending : Bool
  resultOrderBy : Option String
  resultOrderAscending : Bool
  searchable : Bool
  autoExpandRelations : Bool
  group : Bool
  hooks : QueryHooks

/-- What the compiler and the session ask about labels. -/
structure LabelMetadata where
  resolve : String → ResolvedLabel
  /-- Whether a relationship found below a node is kept. -/
  acceptRelation : Relationship → Bool

/-- Declarations by label. -/
structure LabelRegistry where
  declarations : KeyedList LabelDeclaration
  default : LabelDeclaration
  relationFilter : Option (Relationship → Bool)

namespace LabelRegistry

/-! ## Building -/

/-- Make a label a child of another one unless it has a parent already. -/
def adopt (parent : String) (declarations : KeyedList LabelDeclaration) (child : String) :
    KeyedList LabelDeclaration :=
  if child = parent then declarations
  else
    match KeyedList.lookup? child declarations with
    | some declaration =>
      match declaration.parent with
      | some _ => declarations
      | none => KeyedList.insert child { declaration with parent := some parent } declarations
    | none => KeyedList.insert child { parent := some parent } declarations

/-- Make every child named in a declaration a child of its label, the labels
taken in order. -/
def adoptChildren (declarations : KeyedList LabelDeclaration) : KeyedList LabelDeclaration :=
  declarations.foldl
    (fun known entry => entry.2.children.foldl (adopt entry.1) known) declarations

/-- The registry of some declarations; of several for one label the last
counts.  Overrides go on top of the builtin default. -/
def build
    (declared : List (String × LabelDeclaration))
    (overrides : Option LabelDeclaration)
    (relationFilter : Option (Relationship → Bool)) : LabelRegistry where
  declarations := adoptChildren (KeyedList.ofList declared)
  default :=
    match overrides with
    | some overrides => overrides.overlay .builtin
    | none => .builtin
  relationFilter := relationFilter

/-- The registry without declarations. -/
def empty : LabelRegistry := build [] none none

/-! ## Asking -/

/-- Registered labels in order. -/
def labels (registry : LabelRegistry) : List String := KeyedList.keys registry.declarations

/-- Whether a label has a declaration. -/
def isRegistered (label : String) (registry : LabelRegistry) : Bool :=
  KeyedList.contains label registry.declarations

theorem mem_keys_of_lookup?
    {α : Type}
    {key : String}
    {entries : KeyedList α}
    {value : α}
    (found : KeyedList.lookup? key entries = some value) :
    key ∈ KeyedList.keys entries := by
  induction entries with
  | nil => simp at found
  | cons entry rest inductionHypothesis =>
      obtain ⟨candidate, other⟩ := entry
      by_cases same : candidate = key
      · simp [KeyedList.keys, same]
      · simp only [KeyedList.lookup?, same, if_false] at found
        have later := inductionHypothesis found
        simp only [KeyedList.keys, List.map_cons, List.mem_cons] at later ⊢
        exact Or.inr later

/-- Declarations from a label up its parents, past the labels seen. -/
def ancestry (declarations : KeyedList LabelDeclaration) (label : String)
    (seen : List String) : List LabelDeclaration :=
  if _fresh : label ∈ seen then []
  else
    match _found : KeyedList.lookup? label declarations with
    | none => []
    | some declaration =>
      match declaration.parent with
      | some parent => declaration :: ancestry declarations parent (label :: seen)
      | none => [declaration]
termination_by unvisited seen (KeyedList.keys declarations)
decreasing_by exact unvisited_cons_lt (mem_keys_of_lookup? _found) _fresh

/-- Declarations from a label up its parents. -/
def chain (label : String) (registry : LabelRegistry) : List LabelDeclaration :=
  ancestry registry.declarations label []

/-- Append an attribute that is not there yet. -/
def pushAttribute (attributes : List Attribute) (new : Attribute) : List Attribute :=
  if new ∈ attributes then attributes else attributes ++ [new]

/-- Attributes returned for a label: those of its chain, nearest first, those
of the default, and the constraint attribute.  The identity of the default is
for labels without declaration only. -/
def returned
    (chain : List LabelDeclaration)
    (default : LabelDeclaration)
    (constraint : Attribute) : List Attribute :=
  let declared := chain.flatMap fun declaration => declaration.returnAttributes.getD []
  let fallback := (default.returnAttributes.getD []).filter fun candidate =>
    chain.isEmpty || !candidate.isInternalId
  (declared ++ fallback ++ [constraint]).foldl pushAttribute []

/-- The ordering key, unless it is empty. -/
def orderingKey (key : Option String) : Option String :=
  key.filter fun text => !text.isEmpty

/-- The metadata of a label. -/
def resolve (registry : LabelRegistry) (label : String) : ResolvedLabel :=
  let chain := registry.chain label
  let merged :=
    (chain.foldl LabelDeclaration.overlay {}).overlay registry.default
  let constraint := merged.constraintAttribute.getD .internalId
  { label
    parent := chain.head?.bind LabelDeclaration.parent
    constraintAttribute := constraint
    returnAttributes := returned chain registry.default constraint
    predefinedConstraints := merged.predefinedConstraints.getD []
    valueOrderBy := orderingKey merged.valueOrderBy
    valueOrderAscending := merged.valueOrderAscending.getD false
    resultOrderBy := orderingKey merged.resultOrderBy
    resultOrderAscending := merged.resultOrderAscending.getD true
    searchable := merged.searchable.getD true
    autoExpandRelations := merged.autoExpandRelations.getD false
    group := merged.group.getD false
    hooks := merged.hooks }

/-- The registry as metadata; without a filter every relationship is kept. -/
def metadata (registry : LabelRegistry) : LabelMetadata where
  resolve := registry.resolve
  acceptRelation relationship :=
    match registry.relationFilter with
    | some keep => keep relationship
    | none => true

end LabelRegistry

/-! ## Remembering answers -/

/-- A registry with the answers it has given so far. -/
structure LabelResolver where
  registry : LabelRegistry
  /-- Metadata of the labels asked for before. -/
  known : KeyedList ResolvedLabel := []

namespace LabelResolver

/-- The metadata of a label: the answer given before, or else a new one, which
is remembered. -/
def resolve (label : String) (resolver : LabelResolver) : ResolvedLabel × LabelResolver :=
  match KeyedList.lookup? label resolver.known with
  | some resolved => (resolved, resolver)
  | none =>
    let resolved := resolver.registry.resolve label
    (resolved, { resolver with known := KeyedList.insert label resolved resolver.known })

/-- The metadata of some labels, asked for one after the other. -/
def resolveAll (resolver : LabelResolver) : List String → List ResolvedLabel × LabelResolver
  | [] => ([], resolver)
  | label :: rest =>
    let (first, resolver) := resolver.resolve label
    let (others, resolver) := resolveAll resolver rest
    (first :: others, resolver)

end LabelResolver
end VisualQuery
