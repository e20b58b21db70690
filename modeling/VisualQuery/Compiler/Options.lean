import VisualQuery.Json.Record

/-!
# Options of the statement builders
-/

namespace VisualQuery

/-- Limits and directions shared by all statements. -/
structure QueryOptions where
  /-- Limit of result statements. -/
  resultsPageSize : Nat := 100
  /-- Limit of value listings. -/
  valueQueryLimit : Nat := 100
  /-- Values shown on one page of a listing. -/
  valuePageSize : Nat := 10
  /-- Match relationships in their direction only. -/
  useRelationDirection : Bool := true
  /-- Report the first label of a far end instead of the last. -/
  useParentRelation : Bool := false
deriving DecidableEq, Repr

namespace QueryOptions

/-- Fields of written options. -/
def fieldNames : List String :=
  ["results_page_size", "value_query_limit", "value_page_size", "use_relation_direction",
    "use_parent_relation"]

/-- Read options; unknown members are refused. -/
def ofJson? (value : Json) : Option QueryOptions := do
  let members ← Json.fields? fieldNames value
  guard (Json.isClosed fieldNames members)
  let standard : QueryOptions := {}
  pure {
    resultsPageSize :=
      ← Json.defaulted? standard.resultsPageSize Json.nat? "results_page_size" members
    valueQueryLimit :=
      ← Json.defaulted? standard.valueQueryLimit Json.nat? "value_query_limit" members
    valuePageSize :=
      ← Json.defaulted? standard.valuePageSize Json.nat? "value_page_size" members
    useRelationDirection :=
      ← Json.defaulted? standard.useRelationDirection Json.bool? "use_relation_direction" members
    useParentRelation :=
      ← Json.defaulted? standard.useParentRelation Json.bool? "use_parent_relation" members }

/-- The JSON form. -/
def toJson (options : QueryOptions) : Json :=
  .obj [("results_page_size", .nat options.resultsPageSize),
    ("value_query_limit", .nat options.valueQueryLimit),
    ("value_page_size", .nat options.valuePageSize),
    ("use_relation_direction", .bool options.useRelationDirection),
    ("use_parent_relation", .bool options.useParentRelation)]

end QueryOptions
end VisualQuery
