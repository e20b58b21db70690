import VisualQuery.PropertyValue

/-!
# Statements by their parts

A statement matches patterns, filters by predicates, returns projections and
ends with an ordering and a limit.  Each part is a value of its own; text is
made from them in one place only.
-/

namespace VisualQuery
namespace Cypher

/-- Shape of the arrow of a relationship pattern. -/
inductive Direction where
  /-- `-[..]->` -/
  | out
  /-- `-[..]-` -/
  | both
deriving DecidableEq, Repr

/-- The arrow for directed or undirected matching. -/
def Direction.ofDirected (directed : Bool) : Direction :=
  if directed then .out else .both

/-- An inline constraint: a property equals a parameter. -/
structure PropertyConstraint where
  property : String
  parameter : String
deriving DecidableEq, Repr

/-- Pattern of a node; the label is left out for anonymous far ends. -/
structure NodePattern where
  var : String
  label : Option String := none
  constraint : Option PropertyConstraint := none
deriving DecidableEq, Repr

/-- Pattern of a relationship; without a name it matches every type. -/
structure RelationPattern where
  var : String
  name : Option String
  direction : Direction
deriving DecidableEq, Repr

/-- One element of the match clause. -/
inductive MatchElement where
  | node (pattern : NodePattern)
  | path (source : NodePattern) (relation : RelationPattern) (target : NodePattern)
deriving DecidableEq, Repr

/-- One element of the where clause. -/
inductive Predicate where
  /-- The database identity of a variable; a missing identity reads `null`. -/
  | internalId (var : String) (id : Option Int64)
  /-- A predicate given as text. -/
  | raw (text : String)
deriving DecidableEq

/-- What a projection reads. -/
inductive Operand where
  | property (var name : String)
  | identity (var : String)
deriving DecidableEq, Repr

/-- One element of the return clause. -/
inductive Projection where
  | field (operand : Operand) (column : String)
  | collect (operand : Operand) (column : String)
  | countDistinct (operand : Operand) (column : String)
  | var (name : String)
  | expression (text column : String)
deriving DecidableEq, Repr

/-- A clause behind the return clause. -/
inductive EndElement where
  | orderBy (key : String) (ascending : Bool)
  | limit (count : Nat)
deriving DecidableEq, Repr

/-- A whole statement by its parts. -/
structure Query where
  matched : List MatchElement := []
  predicates : List Predicate := []
  distinct : Bool := false
  projections : List Projection := []
  ending : List EndElement := []
  parameters : Parameters := []
deriving DecidableEq

end Cypher
end VisualQuery
