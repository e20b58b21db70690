import VisualQuery.Metadata.Declaration
import VisualQuery.Text.Substitution

/-!
# Scripted hooks

Hooks and relation filters written as data: a list of edits of a rendered
statement, and lists of what a relation filter rejects.  Texts of edits may
name the variable and the label of the node at hand.
-/

namespace VisualQuery

/-- A list of elements of a rendered statement. -/
inductive StatementPart where
  | matched
  | predicates
  | projections
  | ending
deriving DecidableEq, Repr

/-- One edit of a rendered statement. -/
inductive QueryEdit where
  /-- Append an element. -/
  | append (part : StatementPart) (text : String)
  /-- Drop all elements of a part. -/
  | clear (part : StatementPart)
  /-- Drop all parameters. -/
  | clearParameters
  | setDistinct (distinct : Bool)
  | bindParameter (name : String) (value : PropertyValue)
  /-- Overwrite the statement and leave its elements. -/
  | setStatement (text : String)
  /-- Join the statement from its elements. -/
  | rebuild
deriving DecidableEq

namespace QueryEdit

/-- Replace `$var` by the variable of a node, then `$label` by its label. -/
def fill (node : Node) (text : String) : String :=
  substitute "$label" node.label (substitute "$var" node.var text)

/-- Change the elements of a part. -/
def changePart (part : StatementPart) (change : List String → List String)
    (query : QueryStructure) : QueryStructure :=
  match part with
  | .matched => { query with matchElements := change query.matchElements }
  | .predicates => { query with whereElements := change query.whereElements }
  | .projections => { query with returnElements := change query.returnElements }
  | .ending => { query with endElements := change query.endElements }

/-- Carry out one edit. -/
def apply (node : Node) (query : QueryStructure) : QueryEdit → QueryStructure
  | .append part text => changePart part (fun elements => elements ++ [fill node text]) query
  | .clear part => changePart part (fun _ => []) query
  | .clearParameters => { query with parameters := [] }
  | .setDistinct distinct => { query with distinct }
  | .bindParameter name value =>
    { query with
      parameters := KeyedList.insert (substitute "$var" node.var name) value query.parameters }
  | .setStatement text => { query with statement := fill node text }
  | .rebuild => query.rebuild

/-- The hook that carries out edits in order. -/
def hook (edits : List QueryEdit) : QueryHook :=
  fun node query => edits.foldl (apply node) query

end QueryEdit

/-- What a relation filter rejects. -/
structure RelationFilter where
  denyRelationships : List String := []
  denyLabels : List String := []
  minCount : Nat := 0
deriving DecidableEq, Repr

/-- A relationship is kept when nothing denies it and it is frequent enough. -/
def RelationFilter.keeps (filter : RelationFilter) (relationship : Relationship) : Bool :=
  !filter.denyRelationships.contains relationship.name
    && !filter.denyLabels.contains relationship.label
    && filter.minCount ≤ relationship.count

end VisualQuery
