import VisualQuery.Cypher.Basic

/-!
# What patterns and predicates mean

A property graph has labelled nodes and named relationships between them.  An
assignment lets every variable stand for a node or a relationship; it satisfies
a statement if all patterns match and all predicates hold.  Predicates given as
text are left to a judge, who is told the text and the nodes that the variables
of the node patterns stand for.
-/

namespace VisualQuery
namespace Cypher

/-- A property graph. -/
structure Database where
  Node : Type
  Relation : Type
  hasLabel : Node → String → Prop
  /-- The value of a property, `null` where there is none. -/
  property : Node → String → PropertyValue
  identity : Node → Int64
  name : Relation → String
  source : Relation → Node
  target : Relation → Node

/-- What a variable may stand for. -/
inductive Entity (database : Database) where
  | node (node : database.Node)
  | relation (relation : database.Relation)

/-- What every variable stands for. -/
abbrev Assignment (database : Database) := String → Entity database

/-- A judge of texts, told which variable stands for which node. -/
abbrev Judge (database : Database) := String → (String → database.Node → Prop) → Prop

/-- A relationship runs between two nodes, from the first to the second or
either way. -/
def Database.Joins
    (database : Database)
    (relation : database.Relation)
    (first second : database.Node) : Direction → Prop
  | .out => database.source relation = first ∧ database.target relation = second
  | .both =>
    (database.source relation = first ∧ database.target relation = second) ∨
      (database.source relation = second ∧ database.target relation = first)

/-- Some relationship of a type, or of any type, runs between two nodes. -/
def Database.Related
    (database : Database)
    (name : Option String)
    (direction : Direction)
    (first second : database.Node)
    (relation : database.Relation) : Prop :=
  (∀ required, name = some required → database.name relation = required) ∧
    database.Joins relation first second direction

section

variable {database : Database} (parameters : Parameters) (assignment : Assignment database)

/-- A node pattern matches a node.  A parameter that is missing or `null`
matches no property. -/
structure NodePattern.Matches (pattern : NodePattern) (node : database.Node) : Prop where
  var : assignment pattern.var = .node node
  label : ∀ label, pattern.label = some label → database.hasLabel node label
  constraint :
    ∀ constraint, pattern.constraint = some constraint →
      ∃ value, KeyedList.lookup? constraint.parameter parameters = some value ∧
        value ≠ .null ∧ database.property node constraint.property = value

/-- A relationship pattern matches between two nodes. -/
def RelationPattern.Matches
    (pattern : RelationPattern)
    (first second : database.Node) : Prop :=
  ∃ relation, assignment pattern.var = .relation relation ∧
    database.Related pattern.name pattern.direction first second relation

/-- An element of the match clause holds. -/
def MatchElement.Holds : MatchElement → Prop
  | .node pattern => ∃ node, pattern.Matches parameters assignment node
  | .path source relation target =>
    ∃ first second, source.Matches parameters assignment first ∧
      relation.Matches assignment first second ∧ target.Matches parameters assignment second

/-- An element of the where clause holds.  A missing identity is no node's. -/
def Predicate.Holds
    (judge : Judge database)
    (stands : String → database.Node → Prop) : Predicate → Prop
  | .internalId var id =>
    ∃ node, assignment var = .node node ∧ id = some (database.identity node)
  | .raw text => judge text stands

end

/-- Variables of the node patterns of an element. -/
def MatchElement.nodeVariables : MatchElement → List String
  | .node pattern => [pattern.var]
  | .path source _ target => [source.var, target.var]

/-- Which variable of a node pattern stands for which node. -/
def standsFor
    {database : Database}
    (matched : List MatchElement)
    (assignment : Assignment database)
    (name : String)
    (node : database.Node) : Prop :=
  (∃ element ∈ matched, name ∈ element.nodeVariables) ∧ assignment name = .node node

/-- An assignment satisfies all elements of a statement. -/
structure Query.Satisfied
    {database : Database}
    (judge : Judge database)
    (assignment : Assignment database)
    (query : Query) : Prop where
  matched : ∀ element ∈ query.matched, element.Holds query.parameters assignment
  predicates :
    ∀ predicate ∈ query.predicates,
      predicate.Holds assignment judge (standsFor query.matched assignment)

end Cypher
end VisualQuery
