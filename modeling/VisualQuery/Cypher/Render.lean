import VisualQuery.Cypher.Basic

/-!
# Text of statements

Labels, relationship types, attributes and parameters stand between backquotes;
variables, columns and raw predicates stand as they are.
-/

namespace VisualQuery
namespace Cypher

/-- A name between backquotes. -/
def quoted (name : String) : String := "`" ++ name ++ "`"

namespace PropertyConstraint

/-- The text of an inline constraint. -/
def render (constraint : PropertyConstraint) : String :=
  "\x7b" ++ quoted constraint.property ++ ":\x7b" ++ quoted constraint.parameter ++ "\x7d\x7d"

end PropertyConstraint

namespace NodePattern

/-- The text of a node pattern. -/
def render (pattern : NodePattern) : String :=
  let label := match pattern.label with
    | some label => ":" ++ quoted label
    | none => ""
  let constraint := match pattern.constraint with
    | some constraint => constraint.render
    | none => ""
  "(" ++ pattern.var ++ label ++ constraint ++ ")"

end NodePattern

namespace RelationPattern

/-- The text of a relationship pattern with its arrow. -/
def render (pattern : RelationPattern) : String :=
  let name := match pattern.name with
    | some name => ":" ++ quoted name
    | none => ""
  let arrow := match pattern.direction with
    | .out => "]->"
    | .both => "]-"
  "-[" ++ pattern.var ++ name ++ arrow

end RelationPattern

namespace MatchElement

/-- The text of an element of the match clause. -/
def render : MatchElement → String
  | .node pattern => pattern.render
  | .path source relation target => source.render ++ relation.render ++ target.render

end MatchElement

namespace Predicate

/-- The text of an element of the where clause. -/
def render : Predicate → String
  | .internalId var (some id) => "ID(" ++ var ++ ") = " ++ toString id.toInt
  | .internalId var none => "ID(" ++ var ++ ") = null"
  | .raw text => text

end Predicate

namespace Operand

/-- The text of an operand. -/
def render : Operand → String
  | .property var name => var ++ "." ++ name
  | .identity var => "ID(" ++ var ++ ")"

end Operand

namespace Projection

/-- The text of an element of the return clause. -/
def render : Projection → String
  | .field operand column => operand.render ++ " AS " ++ column
  | .collect operand column => "COLLECT(DISTINCT " ++ operand.render ++ ") AS " ++ column
  | .countDistinct operand column => "count(DISTINCT " ++ operand.render ++ ") AS " ++ column
  | .var name => name
  | .expression text column => text ++ " AS " ++ column

end Projection

namespace EndElement

/-- The text of a clause behind the return clause. -/
def render : EndElement → String
  | .orderBy key ascending => "ORDER BY " ++ key ++ if ascending then " ASC" else " DESC"
  | .limit count => "LIMIT " ++ Nat.repr count

end EndElement

/-- Join the texts of all elements into one statement. -/
def assemble
    (matched predicates projections ending : List String)
    (distinct : Bool) : String :=
  let filter := if predicates.isEmpty then "" else " WHERE " ++ " AND ".intercalate predicates
  let returning := if distinct then " RETURN DISTINCT " else " RETURN "
  let tail := if ending.isEmpty then "" else " " ++ " ".intercalate ending
  "MATCH " ++ ", ".intercalate matched ++ filter ++ returning
    ++ ", ".intercalate projections ++ tail

end Cypher
end VisualQuery
