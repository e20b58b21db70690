import VisualQuery.Cypher.Structure
import VisualQuery.Graph.Node
import VisualQuery.Metadata.Attribute

/-!
# Declared metadata of labels

A declaration says how nodes of a label are constrained, returned and ordered.
It is partial: what it leaves out comes from the parent label and in the end
from the default declaration.
-/

namespace VisualQuery

/-- Changes a statement built for a node before it is handed out. -/
abbrev QueryHook := Node → QueryStructure → QueryStructure

/-- The hooks of a declaration, one for each kind of statement. -/
structure QueryHooks where
  result : Option QueryHook := none
  values : Option QueryHook := none
  count : Option QueryHook := none
  relations : Option QueryHook := none

/-- Let a hook change a statement, if there is one. -/
def QueryHook.apply (hook : Option QueryHook) (node : Node) (query : QueryStructure) :
    QueryStructure :=
  match hook with
  | some change => change node query
  | none => query

/-- Hooks of the first set, filled up from the second. -/
def QueryHooks.overlay (hooks base : QueryHooks) : QueryHooks where
  result := hooks.result <|> base.result
  values := hooks.values <|> base.values
  count := hooks.count <|> base.count
  relations := hooks.relations <|> base.relations

/-- Partial metadata of a label. -/
structure LabelDeclaration where
  /-- Label to inherit from. -/
  parent : Option String := none
  /-- Labels that inherit from this one unless they say otherwise. -/
  children : List String := []
  returnAttributes : Option (List Attribute) := none
  constraintAttribute : Option Attribute := none
  /-- Predicates of every statement, with `$identifier` for the variable. -/
  predefinedConstraints : Option (List String) := none
  /-- Ordering key of value listings; an empty key means no ordering. -/
  valueOrderBy : Option String := none
  valueOrderAscending : Option Bool := none
  /-- Ordering key of results; an empty key means no ordering. -/
  resultOrderBy : Option String := none
  resultOrderAscending : Option Bool := none
  /-- The label may be the root of a query. -/
  searchable : Option Bool := none
  autoExpandRelations : Option Bool := none
  /-- Nodes of the label are groups. -/
  group : Option Bool := none
  hooks : QueryHooks := {}

namespace LabelDeclaration

/-- The declaration behind all others: the database identity constrains and is
returned, values are ordered by falling count. -/
def builtin : LabelDeclaration where
  returnAttributes := some [.internalId]
  constraintAttribute := some .internalId
  predefinedConstraints := some []
  valueOrderBy := some "count"
  valueOrderAscending := some false
  resultOrderBy := some ""
  resultOrderAscending := some true
  searchable := some true
  autoExpandRelations := some false
  group := some false

/-- What the first declaration sets, filled up from the second. -/
def overlay (declaration base : LabelDeclaration) : LabelDeclaration where
  parent := declaration.parent <|> base.parent
  children := if declaration.children.isEmpty then base.children else declaration.children
  returnAttributes := declaration.returnAttributes <|> base.returnAttributes
  constraintAttribute := declaration.constraintAttribute <|> base.constraintAttribute
  predefinedConstraints := declaration.predefinedConstraints <|> base.predefinedConstraints
  valueOrderBy := declaration.valueOrderBy <|> base.valueOrderBy
  valueOrderAscending := declaration.valueOrderAscending <|> base.valueOrderAscending
  resultOrderBy := declaration.resultOrderBy <|> base.resultOrderBy
  resultOrderAscending := declaration.resultOrderAscending <|> base.resultOrderAscending
  searchable := declaration.searchable <|> base.searchable
  autoExpandRelations := declaration.autoExpandRelations <|> base.autoExpandRelations
  group := declaration.group <|> base.group
  hooks := declaration.hooks.overlay base.hooks

/-- Fields of a written declaration. -/
def fieldNames : List String :=
  ["parent", "children", "return_attributes", "constraint_attribute",
    "predefined_constraints", "value_order_by", "value_order_ascending", "result_order_by",
    "result_order_ascending", "searchable", "auto_expand_relations", "group"]

/-- Read a declaration; unknown members are refused. -/
def ofJson? (value : Json) : Option LabelDeclaration := do
  let members ← Json.fields? fieldNames value
  guard (Json.isClosed fieldNames members)
  let texts := Json.list? Json.str?
  pure {
    parent := ← Json.optional? Json.str? "parent" members
    children := ← Json.defaulted? [] texts "children" members
    returnAttributes :=
      ← Json.optional? (Json.list? Attribute.ofJson?) "return_attributes" members
    constraintAttribute := ← Json.optional? Attribute.ofJson? "constraint_attribute" members
    predefinedConstraints := ← Json.optional? texts "predefined_constraints" members
    valueOrderBy := ← Json.optional? Json.str? "value_order_by" members
    valueOrderAscending := ← Json.optional? Json.bool? "value_order_ascending" members
    resultOrderBy := ← Json.optional? Json.str? "result_order_by" members
    resultOrderAscending := ← Json.optional? Json.bool? "result_order_ascending" members
    searchable := ← Json.optional? Json.bool? "searchable" members
    autoExpandRelations := ← Json.optional? Json.bool? "auto_expand_relations" members
    group := ← Json.optional? Json.bool? "group" members }

end LabelDeclaration
end VisualQuery
