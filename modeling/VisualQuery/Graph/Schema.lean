import VisualQuery.Graph.Binding
import VisualQuery.Graph.Step
import VisualQuery.Json.Record

/-!
# Graph schemas

A schema describes a whole query: a root label, the values to bind, and the
relationships that lead to further nodes.  Building it is one pass from the
root outwards.  A value on a group node is refused, and what was built before
stays in the graph.
-/

namespace VisualQuery

/-- Description of a node with everything below it. -/
structure NodeSchema where
  label : String
  /-- Attributes of the value to bind. -/
  value : Option Row := none
  immutable : Bool := false
  group : Bool := false
  /-- Relationship types with the nodes they lead to. -/
  rel : List (String × NodeSchema) := []

namespace NodeSchema

/-! ## JSON form -/

mutual

/-- The JSON form of a schema. -/
def toJson : NodeSchema → Json
  | ⟨label, value, immutable, group, rel⟩ =>
    .obj [("label", .str label), ("value", Json.orNull Row.toJson value),
      ("immutable", .bool immutable), ("group", .bool group),
      ("rel", .arr (relationsToJson rel))]

/-- JSON forms of relationships. -/
def relationsToJson : List (String × NodeSchema) → List Json
  | [] => []
  | (label, node) :: rest =>
    .obj [("label", .str label), ("node", toJson node)] :: relationsToJson rest

end

/-- Fields of a written node. -/
def fieldNames : List String := ["label", "value", "immutable", "group", "rel"]

/-- Fields of a written relationship. -/
def relationFieldNames : List String := ["label", "node"]

mutual

/-- Read a schema. -/
def ofJson? (value : Json) : Option NodeSchema :=
  match _read : Json.fields? fieldNames value with
  | none => none
  | some members => do
    let label ← Json.required? Json.str? "label" members
    let attributes ← Json.optional? PropertyValue.row? "value" members
    let immutable ← Json.defaulted? false Json.bool? "immutable" members
    let group ← Json.defaulted? false Json.bool? "group" members
    let rel ←
      match _found : Json.member? "rel" members with
      | none => none
      | some none => some []
      | some (some (.arr items)) => relations? items
      | some (some _) => none
    pure { label, value := attributes, immutable, group, rel }
termination_by value.weight
decreasing_by
  have outer := Json.membersWeight_lt_of_fields? _read
  have inner := Json.weight_le_of_member? _found
  simp only [Json.weight] at inner
  omega

/-- Read the relationships of a schema. -/
def relations? : List Json → Option (List (String × NodeSchema))
  | [] => some []
  | item :: rest =>
    match _read : Json.fields? relationFieldNames item with
    | none => none
    | some members => do
      let label ← Json.required? Json.str? "label" members
      let node ←
        match _found : Json.member? "node" members with
        | some (some node) => ofJson? node
        | _ => none
      let others ← relations? rest
      pure ((label, node) :: others)
termination_by items => Json.itemsWeight items
decreasing_by
  · simp only [Json.itemsWeight]
    have positive := Json.weight_pos item
    omega
  · have outer := Json.membersWeight_lt_of_fields? _read
    have inner := Json.weight_le_of_member? _found
    simp only [Json.itemsWeight]
    omega

end

end NodeSchema

namespace QueryGraph

mutual

/-- Give a node the value, the pin and the relationships of its schema. -/
def applySchema (id : NodeId) : NodeSchema → Step QueryGraph Unit
  | ⟨_, value, immutable, _, rel⟩ => do
    match value with
    | some attributes =>
      let value ← Step.atomic (addValue id attributes)
      Step.atomicUnit (bindValue id value)
    | none => pure ()
    Step.atomicUnit (setImmutable id immutable)
    applyRelations id rel

/-- Add the relationships of a schema below a node. -/
def applyRelations (id : NodeId) : List (String × NodeSchema) → Step QueryGraph Unit
  | [] => pure ()
  | (relationship, node) :: rest => do
    let child ← Step.atomic (addRelationship id relationship node.label node.group)
    applySchema child node
    applyRelations id rest

end

/-- Build a whole graph from a schema; the graph must be empty. -/
def addSchema (schema : NodeSchema) : Step QueryGraph NodeId := do
  let root ← Step.atomic (addRoot schema.label)
  applySchema root schema
  pure root

end QueryGraph
end VisualQuery
