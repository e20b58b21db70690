import VisualQuery.Cypher.Render

/-!
# Statements with their rendered parts

What the statement builders return: the text of a statement next to the texts
of its elements and its parameters.  Whoever edits the elements calls
`rebuild` to bring the statement in line with them.
-/

namespace VisualQuery

/-- A statement and its parameters, as sent to the database. -/
structure Statement where
  text : String
  parameters : Parameters
deriving DecidableEq

/-- A rendered statement with the elements it was joined from. -/
structure QueryStructure where
  statement : String
  matchElements : List String
  whereElements : List String
  returnElements : List String
  endElements : List String
  parameters : Parameters
  distinct : Bool
deriving DecidableEq

namespace QueryStructure

/-- Join the statement from the elements again. -/
def rebuild (structured : QueryStructure) : QueryStructure :=
  { structured with
    statement := Cypher.assemble structured.matchElements structured.whereElements
      structured.returnElements structured.endElements structured.distinct }

/-- What is sent to the database. -/
def toStatement (structured : QueryStructure) : Statement :=
  ⟨structured.statement, structured.parameters⟩

/-- The JSON form. -/
def toJson (structured : QueryStructure) : Json :=
  .obj [("statement", .str structured.statement),
    ("match_elements", .strings structured.matchElements),
    ("where_elements", .strings structured.whereElements),
    ("return_elements", .strings structured.returnElements),
    ("end_elements", .strings structured.endElements),
    ("parameters", Row.toJson structured.parameters),
    ("distinct", .bool structured.distinct)]

/-- Read the JSON form; every member is required. -/
def ofJson? (value : Json) : Option QueryStructure := do
  let members ← value.members?
  let texts := Json.list? Json.str?
  pure {
    statement := ← Json.required? Json.str? "statement" members
    matchElements := ← Json.required? texts "match_elements" members
    whereElements := ← Json.required? texts "where_elements" members
    returnElements := ← Json.required? texts "return_elements" members
    endElements := ← Json.required? texts "end_elements" members
    parameters := ← Json.required? PropertyValue.row? "parameters" members
    distinct := ← Json.required? Json.bool? "distinct" members }

end QueryStructure

namespace Statement

/-- The JSON form. -/
def toJson (statement : Statement) : Json :=
  .obj [("statement", .str statement.text), ("parameters", Row.toJson statement.parameters)]

end Statement

namespace Cypher
namespace Query

/-- Render every element and the whole statement. -/
def toStructure (query : Query) : QueryStructure :=
  let matchElements := query.matched.map MatchElement.render
  let whereElements := query.predicates.map Predicate.render
  let returnElements := query.projections.map Projection.render
  let endElements := query.ending.map EndElement.render
  { statement :=
      assemble matchElements whereElements returnElements endElements query.distinct
    matchElements, whereElements, returnElements, endElements
    parameters := query.parameters
    distinct := query.distinct }

/-- The text of the whole statement. -/
def render (query : Query) : String := query.toStructure.statement

end Query
end Cypher
end VisualQuery
