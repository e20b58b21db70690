import VisualQuery.Compiler.Relevance
import VisualQuery.Metadata.Registry
import VisualQuery.Text.Substitution

/-!
# From links to match and where elements

The root contributes a node pattern and every link a path.  A bound node is
constrained where its pattern stands as the root or as the target of a path:
by a predicate when its label is constrained by the database identity, else
inline by a parameter named after its variable and the attribute.
-/

namespace VisualQuery
namespace Compiler

open Cypher

/-- What one pattern contributes to a statement. -/
structure Fragment where
  element : MatchElement
  predicates : List Predicate
  /-- Parameters bound by the pattern. -/
  bindings : List (String × PropertyValue)

/-- Match and where elements of a set of links. -/
structure QueryElements where
  matched : List MatchElement
  predicates : List Predicate
  /-- Variables of the paths. -/
  relationVariables : List String
  parameters : Parameters

/-- The predefined constraints of the label of a node, about its variable. -/
def predefined (metadata : LabelMetadata) (node : Node) : List Predicate :=
  (metadata.resolve node.label).predefinedConstraints.map fun template =>
    .raw (substitute "$identifier" node.var template)

/-- The unconstrained pattern of a node. -/
def labeled (node : Node) : NodePattern := { var := node.var, label := some node.label }

/-- The parameter that holds the value of an attribute of a node. -/
def parameterName (node : Node) (property : String) : String :=
  node.var ++ "_" ++ property

/-- The pattern of a node constrained to a value, with what it adds to the
where clause and to the parameters. -/
def constrainedPattern (metadata : LabelMetadata) (node value : Node) :
    NodePattern × List Predicate × List (String × PropertyValue) :=
  match (metadata.resolve node.label).constraintAttribute with
  | .internalId => (labeled node, [.internalId node.var value.internalId], [])
  | .property name =>
    let parameter := parameterName node name
    ({ labeled node with constraint := some ⟨name, parameter⟩ }, [],
      [(parameter, (value.attribute? name).getD .null)])

/-- The pattern of a node, constrained to its bound value if asked for. -/
def nodePattern (metadata : LabelMetadata) (graph : QueryGraph) (node : Node)
    (constrain : Bool) : NodePattern × List Predicate × List (String × PropertyValue) :=
  match graph.boundValue? node with
  | some value => if constrain then constrainedPattern metadata node value
    else (labeled node, [], [])
  | none => (labeled node, [], [])

/-- What the root contributes. -/
def rootFragment (metadata : LabelMetadata) (graph : QueryGraph) (root : Node)
    (constrain : Bool) : Fragment :=
  let (pattern, predicates, bindings) := nodePattern metadata graph root constrain
  ⟨.node pattern, predefined metadata root ++ predicates, bindings⟩

/-- The variable of the path at a position. -/
def relationVariable (index : Nat) : String := "r" ++ Nat.repr index

/-- What a link contributes. -/
def linkFragment
    (metadata : LabelMetadata)
    (graph : QueryGraph)
    (direction : Direction)
    (index : Nat)
    (link : Link)
    (source target : Node)
    (constrain : Bool) : Fragment :=
  let (pattern, predicates, bindings) := nodePattern metadata graph target constrain
  ⟨.path (labeled source) ⟨relationVariable index, link.label, direction⟩ pattern,
    predefined metadata target ++ predicates, bindings⟩

/-- Join what all patterns contribute; a parameter bound again takes the later
value. -/
def QueryElements.ofFragments (root : Fragment) (paths : List Fragment) : QueryElements where
  matched := root.element :: paths.map Fragment.element
  predicates := root.predicates ++ paths.flatMap Fragment.predicates
  relationVariables := (List.range paths.length).map relationVariable
  parameters := KeyedList.ofList (root.bindings ++ paths.flatMap Fragment.bindings)

/-- Compile the root and a list of links.  Values constrain when asked for or
when the root is immutable, except that of the selected node as the target of
a link, and that of the root when it is excluded. -/
def compileElements
    (metadata : LabelMetadata)
    (graph : QueryGraph)
    (direction : Direction)
    (root selected : NodeId)
    (links : List LinkId)
    (constraintNeeded excludeRoot : Bool) : Except QueryError QueryElements := do
  let rootNode ← graph.node root
  let constrain := constraintNeeded || rootNode.immutable
  let paths ← links.zipIdx.mapM fun (id, index) => do
    let link ← graph.link id
    let source ← graph.node link.source
    let target ← graph.node link.target
    pure (linkFragment metadata graph direction index link source target
      (constrain && target.id ≠ selected))
  pure (.ofFragments (rootFragment metadata graph rootNode (constrain && !excludeRoot)) paths)

/-- Compile the root and a list of links, the root's own value included. -/
def compile
    (metadata : LabelMetadata)
    (graph : QueryGraph)
    (direction : Direction)
    (root selected : NodeId)
    (links : List LinkId)
    (constraintNeeded : Bool) : Except QueryError QueryElements :=
  compileElements metadata graph direction root selected links constraintNeeded false

end Compiler
end VisualQuery
