import VisualQuery.Graph.Identifier
import VisualQuery.PropertyValue

/-!
# Nodes

The terms of a visual query: the root whose matches are returned, entity terms
that may be bound to a value, candidate values, and group nodes that only fan
out relationships.
-/

namespace VisualQuery

/-- Role of a node in the query. -/
inductive NodeKind where
  | root
  | choose
  | value
  | group
deriving DecidableEq, Repr

namespace NodeKind

/-- The word for a role. -/
def word : NodeKind → String
  | .root => "root"
  | .choose => "choose"
  | .value => "value"
  | .group => "group"

/-- Roots and entity terms list values. -/
def listsValues : NodeKind → Bool
  | .root | .choose => true
  | .value | .group => false

end NodeKind

/-- A relationship found below a node. -/
structure Relationship where
  /-- Type of the relationship. -/
  name : String
  /-- Label of the node at the far end. -/
  label : String
  /-- Number of matches. -/
  count : Nat
deriving DecidableEq, Repr

namespace Relationship

/-- The JSON form. -/
def toJson (relationship : Relationship) : Json :=
  .obj [("relationship", .str relationship.name), ("label", .str relationship.label),
    ("count", .nat relationship.count)]

/-- Read the JSON form; every member is required. -/
def ofJson? (value : Json) : Option Relationship := do
  let members ← value.members?
  let name ← Json.required? Json.str? "relationship" members
  let label ← Json.required? Json.str? "label" members
  let count ← Json.required? Json.nat? "count" members
  pure ⟨name, label, count⟩

/-- The relationship described by a row of a discovery; the count may be
missing, the names may not. -/
def ofRow? (row : Row) : Option Relationship := do
  let name ← (← KeyedList.lookup? "relationship" row).asString?
  let label ← (← KeyedList.lookup? "label" row).asString?
  let count := ((KeyedList.lookup? "count" row).bind PropertyValue.asCount?).getD 0
  pure ⟨name, label, count⟩

end Relationship

/-- One term of the query. -/
structure Node where
  id : NodeId
  kind : NodeKind
  label : String
  /-- Query variable, empty for values. -/
  var : String
  /-- Bound value. -/
  value : Option NodeId := none
  /-- Node this one was expanded from, missing for the root only. -/
  parent : Option NodeId
  /-- The bound value is kept and always applied. -/
  immutable : Bool := false
  /-- Attributes of a value. -/
  attributes : Row := []
  /-- Database identity of a value. -/
  internalId : Option Int64 := none
  count : Nat := 0
  /-- Rows listed for the node. -/
  data : List Row := []
  /-- Page of `data` on display, counted from 1; 0 before any listing. -/
  page : Nat := 0
  /-- Listed values hang below the node. -/
  valueExpanded : Bool := false
  /-- Relationships found and not yet expanded. -/
  relationships : List Relationship := []
deriving DecidableEq

namespace Node

/-- Whether a value is bound. -/
def isBound (node : Node) : Bool := node.value.isSome

/-- Whether the node is the root. -/
def isRoot (node : Node) : Bool := node.kind = .root

/-- Whether the node is a candidate value. -/
def isValue (node : Node) : Bool := node.kind = .value

/-- An attribute of a value. -/
def attribute? (name : String) (node : Node) : Option PropertyValue :=
  KeyedList.lookup? name node.attributes

end Node

/-- Kind of a link. -/
inductive LinkKind where
  /-- A relationship between two terms. -/
  | relation
  /-- From a term to one of its candidate values. -/
  | value
deriving DecidableEq, Repr

namespace LinkKind

/-- The word for a kind of link. -/
def word : LinkKind → String
  | .relation => "relation"
  | .value => "value"

end LinkKind

/-- A directed link between two nodes. -/
structure Link where
  id : LinkId
  kind : LinkKind
  source : NodeId
  target : NodeId
  /-- Relationship type. -/
  label : Option String
deriving DecidableEq, Repr

namespace Link

/-- Whether the link is a relationship. -/
def isRelation (link : Link) : Bool := link.kind = .relation

end Link
end VisualQuery
