import VisualQuery.Proofs.Compiler.OwnValue
import VisualQuery.Proofs.Compiler.Parameters

/-!
# Where values constrain

A statement has a place for the root and one for the target of every link.  There
a bound node is constrained to its value if that is required, by a predicate on
its identity or inside its pattern.  The flags of the statement, the mutability
of the root and the selected node decide what is required; the sources of links
are never constrained.
-/

namespace VisualQuery
namespace Compiler

open Cypher

variable {metadata : LabelMetadata} {graph : QueryGraph}

/-- A place of a statement: its node, the pattern written there and the
predicates on the identity of the node. -/
structure Placement where
  node : Node
  pattern : NodePattern
  identities : List Predicate

/-- What stands at the place of a node held to a value.  A label constrained by
identity brings one predicate and no parameter, any other label a parameter and
no predicate. -/
inductive Constrained (metadata : LabelMetadata) (value : Node) : Placement → Prop where
  | byIdentity
      {node : Node}
      (sought : (metadata.resolve node.label).constraintAttribute = .internalId) :
      Constrained metadata value
        ⟨node, ⟨node.var, some node.label, none⟩, [.internalId node.var value.internalId]⟩
  | byProperty
      {node : Node}
      {name : String}
      (sought : (metadata.resolve node.label).constraintAttribute = .property name) :
      Constrained metadata value
        ⟨node, ⟨node.var, some node.label, some ⟨name, node.var ++ "_" ++ name⟩⟩, []⟩

/-- A node is held to its value at a place exactly if that is required and the
node is bound; else the place names variable and label alone. -/
structure Placed
    (metadata : LabelMetadata)
    (graph : QueryGraph)
    (required : Prop)
    (place : Placement) : Prop where
  constrained :
    ∀ value, required → graph.boundValue? place.node = some value →
      Constrained metadata value place
  free :
    (required → graph.boundValue? place.node = none) →
      place.pattern = ⟨place.node.var, some place.node.label, none⟩ ∧ place.identities = []

/-- The place of a node, constrained if asked for. -/
def placement
    (metadata : LabelMetadata)
    (graph : QueryGraph)
    (constrain : Bool)
    (node : Node) : Placement where
  node := node
  pattern := (nodePattern metadata graph node constrain).1
  identities := (nodePattern metadata graph node constrain).2.1

theorem placed_placement
    {required : Prop}
    {constrain : Bool}
    (asked : constrain = true ↔ required)
    (node : Node) :
    Placed metadata graph required (placement metadata graph constrain node) := by
  constructor
  · intro value isRequired bound
    have bound : graph.boundValue? node = some value := bound
    simp only [placement, nodePattern, bound, asked.2 isRequired, if_true, constrainedPattern]
    cases sought : (metadata.resolve node.label).constraintAttribute with
    | internalId => exact .byIdentity sought
    | property name => exact .byProperty sought
  · intro unbound
    cases constrain with
    | false =>
        simp [placement, nodePattern_unconstrained, labeled]
    | true =>
        have unbound : graph.boundValue? node = none := unbound (asked.1 rfl)
        simp [placement, nodePattern, unbound, labeled]

/-- The paths of the hops, with the places of their targets. -/
theorem map_element_hops
    (direction : Direction)
    (selected : NodeId)
    (constrain : Bool)
    (hops : List Hop)
    (start : Nat) :
    ((hops.zipIdx start).map (hopFragment metadata graph direction selected constrain)).map
        Fragment.element =
      ((hops.zip (hops.map fun hop =>
          placement metadata graph (constrain && hop.target.id ≠ selected) hop.target)).zipIdx
            start).map
        fun ((hop, place), index) =>
          .path ⟨hop.source.var, some hop.source.label, none⟩
            ⟨"r" ++ Nat.repr index, hop.link.label, direction⟩ place.pattern := by
  induction hops generalizing start with
  | nil => rfl
  | cons hop rest inductionHypothesis =>
      rw [List.zipIdx_cons, List.map_cons, List.map_cons, inductionHypothesis]
      rfl

/-- The predicates of the hops, whatever their positions. -/
theorem flatMap_predicates_hops
    (direction : Direction)
    (selected : NodeId)
    (constrain : Bool)
    (hops : List Hop)
    (start : Nat) :
    ((hops.zipIdx start).map
        (hopFragment metadata graph direction selected constrain)).flatMap Fragment.predicates =
      (hops.map fun hop =>
          placement metadata graph (constrain && hop.target.id ≠ selected) hop.target).flatMap
        fun place =>
          ((metadata.resolve place.node.label).predefinedConstraints.map fun template =>
              .raw (substitute "$identifier" place.node.var template)) ++
            place.identities := by
  refine (flatMap_hops Fragment.predicates _ ?_ hops start).trans (List.flatMap_map ..).symm
  intro hop index
  rfl

/-- Whatever the graph, the links and the flags, compiling a root and links with
their ends gives the root's pattern and one path per link, in the order of the
links, whose variables are `r0`, `r1` and so on.  The root is constrained exactly if it
is bound, not excluded, and constraints are asked for or the root is immutable; the
target of a link exactly if it is bound, not selected, and the same holds; sources
never.  The predicates are, place by place, those predefined for the label, about the
variable of the node, and those on the identity, and the parameters are those that the
patterns name. -/
theorem compileElements_places
    (metadata : LabelMetadata)
    {root : Node}
    (isRoot : graph.node root.id = .ok root)
    {links : List LinkId}
    {hops : List Hop}
    (found : links.mapM graph.hop = .ok hops)
    (direction : Direction)
    (selected : NodeId)
    (constraintNeeded excludeRoot : Bool) :
    ∃ (elements : QueryElements) (atRoot : Placement) (atTargets : List Placement),
      compileElements metadata graph direction root.id selected links constraintNeeded
          excludeRoot = .ok elements ∧
      atRoot.node = root ∧
      atTargets.map Placement.node = hops.map Hop.target ∧
      elements.matched =
        (.node atRoot.pattern ::
          (hops.zip atTargets).zipIdx.map fun ((hop, place), index) =>
            .path ⟨hop.source.var, some hop.source.label, none⟩
              ⟨"r" ++ Nat.repr index, hop.link.label, direction⟩ place.pattern) ∧
      Placed metadata graph
        ((constraintNeeded = true ∨ root.immutable = true) ∧ excludeRoot = false) atRoot ∧
      (∀ place ∈ atTargets,
        Placed metadata graph
          ((constraintNeeded = true ∨ root.immutable = true) ∧ place.node.id ≠ selected) place) ∧
      elements.predicates =
        (atRoot :: atTargets).flatMap (fun place =>
          ((metadata.resolve place.node.label).predefinedConstraints.map fun template =>
              .raw (substitute "$identifier" place.node.var template)) ++
            place.identities) ∧
      ∀ key,
        key ∈ KeyedList.keys elements.parameters ↔
          ∃ pattern ∈ nodePatterns elements.matched, ∃ constraint,
            pattern.constraint = some constraint ∧ constraint.parameter = key := by
  let constrain := constraintNeeded || root.immutable
  refine ⟨_, placement metadata graph (constrain && !excludeRoot) root,
    hops.map fun hop => placement metadata graph (constrain && hop.target.id ≠ selected) hop.target,
    compileElements_ok metadata isRoot found direction selected constraintNeeded excludeRoot, rfl,
    ?_, ?_, ?_, ?_, ?_, ?_⟩
  · rw [List.map_map]
    rfl
  · exact congrArg (MatchElement.node _ :: ·) (map_element_hops direction selected constrain hops 0)
  · exact placed_placement (by simp [constrain]) root
  · intro place member
    obtain ⟨hop, _, rfl⟩ := List.mem_map.1 member
    exact placed_placement (by simp [constrain, placement]) hop.target
  · rw [List.flatMap_cons, ← flatMap_predicates_hops direction]
    rfl
  · intro key
    rw [parameters_ofFragments, KeyedList.mem_keys_ofList, nodePatterns_ofFragments]
    simp only [List.mem_map, List.mem_filterMap, binding?, Option.map_eq_some_iff]
    constructor
    · rintro ⟨_, ⟨written, member, constraint, constrained, rfl⟩, rfl⟩
      exact ⟨_, ⟨written, member, rfl⟩, constraint, constrained, rfl⟩
    · rintro ⟨_, ⟨written, member, rfl⟩, constraint, constrained, rfl⟩
      exact ⟨_, ⟨written, member, constraint, constrained, rfl⟩, rfl⟩

/-- An account with two relationships to one contact, which is bound to the
identity 7. -/
def parallel : List GraphEdit :=
  [.addRoot "Account",
    .addRelationship ⟨0⟩ "OWNS" "Contact" false,
    .addValue ⟨1⟩ [("NEO4JID", .int 7)],
    .bindValue ⟨1⟩ ⟨3⟩,
    .addLink ⟨0⟩ ⟨1⟩ .relation (some "HOLDS")]

theorem compileElements_places_parallel :
    ∃ (elements : QueryElements) (atRoot : Placement) (atTargets : List Placement),
      compileElements LabelRegistry.empty.metadata (GraphEdit.run parallel .empty) .out ⟨0⟩ ⟨0⟩
          [⟨2⟩, ⟨5⟩] true false = .ok elements ∧
      atTargets.length = 2 ∧
      (∀ place ∈ atTargets, place.identities = [.internalId "contact" (some 7)]) ∧
      elements.predicates =
        (atRoot :: atTargets).flatMap (fun place =>
          ((LabelRegistry.empty.metadata.resolve place.node.label).predefinedConstraints.map
              fun template => .raw (substitute "$identifier" place.node.var template)) ++
            place.identities) := by
  have coherent := (GraphEdit.run_wellFormed parallel).toCoherent
  obtain ⟨root, member, named⟩ :
      ∃ root ∈ (GraphEdit.run parallel .empty).nodes, root.id = ⟨0⟩ := by decide +kernel
  have leads : ∀ link ∈ (GraphEdit.run parallel .empty).links,
      link.id ∈ [(⟨2⟩ : LinkId), ⟨5⟩] → link.target = ⟨1⟩ := by
    decide +kernel
  have contact : ∀ node ∈ (GraphEdit.run parallel .empty).nodes, node.id = ⟨1⟩ →
      node.var = "contact" ∧ node.label = "Contact" ∧
        ∃ value, (GraphEdit.run parallel .empty).boundValue? node = some value ∧
          value.internalId = some 7 := by
    decide +kernel
  have byIdentity :
      (LabelRegistry.empty.metadata.resolve "Contact").constraintAttribute = .internalId := by
    decide +kernel
  have known : ∀ id ∈ [(⟨2⟩ : LinkId), ⟨5⟩],
      ∃ link ∈ (GraphEdit.run parallel .empty).links, link.id = id := by
    decide +kernel
  obtain ⟨hops, found⟩ := coherent.exists_hops known
  obtain ⟨elements, atRoot, atTargets, compiled, _, targets, _, _, placed, predicates, _⟩ :=
    compileElements_places LabelRegistry.empty.metadata (coherent.node_of_mem member) found .out
      ⟨0⟩ true false
  rw [named] at compiled
  refine ⟨elements, atRoot, atTargets, compiled, ?_, ?_, predicates⟩
  · have atHops := congrArg List.length targets
    rw [List.length_map, List.length_map] at atHops
    exact atHops.trans (mapM_eq_ok_iff.1 found).length_eq.symm
  · intro place placeMember
    obtain ⟨hop, hopMember, isTarget⟩ : ∃ hop ∈ hops, hop.target = place.node :=
      List.mem_map.1 (targets ▸ List.mem_map_of_mem placeMember)
    obtain ⟨index, position⟩ := List.mem_iff_getElem?.1 hopMember
    obtain ⟨linkAt, linkMember, _, contactMember, _, linkTarget⟩ := QueryGraph.hop_at found position
    rw [leads hop.link linkMember (List.mem_of_getElem? linkAt)] at linkTarget
    obtain ⟨var, label, value, bound, identity⟩ := contact hop.target contactMember linkTarget
    rw [isTarget] at linkTarget var label bound
    have required : place.node.id ≠ ⟨0⟩ := by
      rw [linkTarget]
      decide
    have constrained :=
      (placed place placeMember).constrained value ⟨Or.inl rfl, required⟩ bound
    cases constrained with
    | byIdentity => rw [var, identity]
    | byProperty sought =>
        rw [label, byIdentity] at sought
        cases sought

end Compiler
end VisualQuery
