import VisualQuery.Compiler.Statements
import VisualQuery.Proofs.Compiler.Elements
import VisualQuery.Proofs.Compiler.Relevance

/-!
# What the result statement is made of

In a drawn graph the pictured nodes are the root and the targets of the links
that the result statement matches.  So the statement has one node pattern for
the root, one path for each relationship that leads to a pictured node, and the
predicates and parameters of the pictured nodes.
-/

namespace VisualQuery
namespace QueryGraph

variable {graph : QueryGraph}

theorem mem_of_root
    {root : Node}
    (isRoot : graph.root = .ok root) :
    root ∈ graph.nodes ∧ root.kind = .root := by
  unfold QueryGraph.root at isRoot
  split at isRoot
  · rename_i first rest nodes_eq
    split at isRoot
    · rename_i kind
      injection isRoot with same
      subst same
      rw [nodes_eq]
      exact ⟨List.mem_cons_self, by simpa [Node.isRoot] using kind⟩
    · cases isRoot
  · cases isRoot

theorem Coherent.eq_root
    (coherent : graph.Coherent)
    {root : Node}
    (isRoot : graph.root = .ok root)
    {node : Node}
    (member : node ∈ graph.nodes)
    (named : node.id = ⟨0⟩) :
    node = root := by
  obtain ⟨rootMember, kind⟩ := mem_of_root isRoot
  have rootNamed := (coherent.id_eq_of_isRoot rootMember kind).1
  exact coherent.eq_of_id_eq member rootMember (named.trans rootNamed.symm)

/-- The value found for a node is the one whose number it is bound to. -/
theorem Coherent.boundValue?_eq_some_iff
    (coherent : graph.Coherent)
    {node value : Node} :
    graph.boundValue? node = some value ↔
      value ∈ graph.nodes ∧ node.value = some value.id := by
  unfold boundValue?
  rw [Option.bind_eq_some_iff]
  constructor
  · rintro ⟨id, bound, found⟩
    obtain ⟨member, rfl⟩ := mem_of_node? found
    exact ⟨member, bound⟩
  · rintro ⟨member, bound⟩
    exact ⟨value.id, bound, coherent.node?_of_mem member⟩

/-- What is below a node is below its parent. -/
theorem Beneath.below_parent
    {node : Node}
    {parent last : NodeId}
    (beneath : graph.Beneath node.id last)
    (member : node ∈ graph.nodes)
    (isParent : node.parent = some parent) :
    graph.Beneath parent last := by
  induction beneath with
  | self => exact Beneath.child member isParent Beneath.self
  | child lower lowerParent _ inductionHypothesis =>
      exact Beneath.child lower lowerParent inductionHypothesis

namespace Tree

/-- The result statement matches the relationships that lead to pictured
nodes. -/
theorem mem_resultLinks_iff
    (tree : graph.Tree)
    {link : Link}
    (member : link ∈ graph.links) :
    link.id ∈ graph.relevantLinks ⟨0⟩ ⟨0⟩ ↔
      link.isRelation = true ∧ ∃ node, graph.Pictured node ∧ node.id = link.target := by
  rw [tree.mem_relevantLinks]
  constructor
  · rintro ⟨other, relation, same, below, belowMember, holds, ascends⟩
    have equal := tree.toCoherent.eq_of_link_id_eq (mem_relations.1 relation).1 member same
    subst equal
    have isRelation := (mem_relations.1 relation).2
    obtain ⟨target, targetMember, named, notValue, _⟩ := tree.target other member isRelation
    refine ⟨isRelation, target, ⟨targetMember, notValue, Or.inr ?_⟩, named⟩
    rcases holds with isRoot | bound
    · rw [isRoot] at ascends
      exact absurd (tree.enters.eq_of_ascends ascends) (tree.enters.notRoot other relation)
    · have belowTerm := tree.toCoherent.ne_value_of_isBound belowMember bound
      have beneath :=
        (tree.ascends_iff_beneath ⟨below, belowMember, rfl, belowTerm⟩).1 ascends
      exact ⟨below, belowMember, bound, named ▸ beneath⟩
  · rintro ⟨isRelation, node, pictured, named⟩
    have relation := mem_relations.2 ⟨member, isRelation⟩
    rcases pictured.needed with isRoot | ⟨below, belowMember, bound, beneath⟩
    · have rootNamed := (tree.toCoherent.id_eq_of_isRoot pictured.member isRoot).1
      exact absurd (named.symm.trans rootNamed) (tree.enters.notRoot link relation)
    · have belowTerm := tree.toCoherent.ne_value_of_isBound belowMember bound
      have ascends :=
        (tree.ascends_iff_beneath ⟨below, belowMember, rfl, belowTerm⟩).2 beneath
      exact ⟨link, relation, rfl, below, belowMember, Or.inr bound, named ▸ ascends⟩

/-- The source of a relationship to a pictured node is pictured. -/
theorem pictured_source
    (tree : graph.Tree)
    {link : Link}
    (member : link ∈ graph.links)
    (isRelation : link.isRelation = true)
    {source target : Node}
    (sourceMember : source ∈ graph.nodes)
    (sourceNamed : source.id = link.source)
    (pictured : graph.Pictured target)
    (targetNamed : target.id = link.target) :
    graph.Pictured source := by
  obtain ⟨term, termMember, termNamed, notValue⟩ := tree.source link member isRelation
  have same := tree.toCoherent.eq_of_id_eq termMember sourceMember
    (termNamed.trans sourceNamed.symm)
  subst same
  obtain ⟨entered, enteredMember, enteredNamed, _, isParent⟩ :=
    tree.target link member isRelation
  have same := tree.toCoherent.eq_of_id_eq enteredMember pictured.member
    (enteredNamed.trans targetNamed.symm)
  subst same
  refine ⟨termMember, notValue, Or.inr ?_⟩
  rcases pictured.needed with isRoot | ⟨below, belowMember, bound, beneath⟩
  · rw [(tree.toCoherent.id_eq_of_isRoot enteredMember isRoot).2] at isParent
    cases isParent
  · refine ⟨below, belowMember, bound, ?_⟩
    rw [termNamed]
    exact beneath.below_parent enteredMember isParent

end Tree
end QueryGraph

namespace Compiler

open Cypher

/-- A relationship that the result statement matches, with its ends. -/
abbrev Matched
    (graph : QueryGraph)
    (index : Nat)
    (link : Link)
    (source target : Node) : Prop :=
  StandsAt graph (graph.relevantLinks ⟨0⟩ ⟨0⟩) index link source target

namespace StandsAt

variable
  {graph : QueryGraph}
  {index : Nat}
  {link : Link}
  {source target : Node}

theorem relation_and_pictured
    (stands : Matched graph index link source target)
    (tree : graph.Tree) :
    link.isRelation = true ∧ graph.Pictured target := by
  have relevant := List.mem_of_getElem? stands.position
  obtain ⟨isRelation, node, pictured, named⟩ :=
    (tree.mem_resultLinks_iff stands.linkMember).1 relevant
  have same := tree.toCoherent.eq_of_id_eq pictured.member stands.targetMember
    (named.trans stands.targetNamed.symm)
  exact ⟨isRelation, same ▸ pictured⟩

theorem pictured_source
    (stands : Matched graph index link source target)
    (tree : graph.Tree) :
    graph.Pictured source := by
  obtain ⟨isRelation, pictured⟩ := stands.relation_and_pictured tree
  exact tree.pictured_source stands.linkMember isRelation stands.sourceMember
    stands.sourceNamed pictured stands.targetNamed

/-- The position determines the link. -/
theorem link_unique
    {links : List LinkId}
    (stands : StandsAt graph links index link source target)
    (coherent : graph.Coherent)
    {other : Link}
    {otherSource otherTarget : Node}
    (otherStands : StandsAt graph links index other otherSource otherTarget) :
    other = link := by
  have positions := otherStands.position.symm.trans stands.position
  injection positions with same
  exact coherent.eq_of_link_id_eq otherStands.linkMember stands.linkMember same

end StandsAt

variable {graph : QueryGraph}

/-- Every relationship to a pictured node is matched somewhere. -/
theorem exists_matched
    (tree : graph.Tree)
    {link : Link}
    (member : link ∈ graph.links)
    (isRelation : link.isRelation = true)
    {target : Node}
    (pictured : graph.Pictured target)
    (named : target.id = link.target) :
    ∃ index source, Matched graph index link source target := by
  have relevant :=
    (tree.mem_resultLinks_iff member).2 ⟨isRelation, target, pictured, named⟩
  obtain ⟨index, position⟩ := List.mem_iff_getElem?.1 relevant
  obtain ⟨source, sourceMember, sourceNamed, _⟩ := tree.source link member isRelation
  exact ⟨index, source, member, sourceMember, pictured.member, sourceNamed, named, position⟩

/-- The pictured nodes are the root and the targets of matched relationships. -/
theorem pictured_iff
    (tree : graph.Tree)
    {root : Node}
    (isRoot : graph.root = .ok root)
    {node : Node} :
    graph.Pictured node ↔
      node = root ∨ ∃ index link source, Matched graph index link source node := by
  constructor
  · intro pictured
    by_cases first : node.id = ⟨0⟩
    · exact Or.inl (tree.toCoherent.eq_root isRoot pictured.member first)
    · obtain ⟨link, relation, target, _, _⟩ :=
        tree.exists_relation pictured.member pictured.isTerm first
      obtain ⟨member, isRelation⟩ := QueryGraph.mem_relations.1 relation
      obtain ⟨index, source, matched⟩ :=
        exists_matched tree member isRelation pictured target.symm
      exact Or.inr ⟨index, link, source, matched⟩
  · rintro (rfl | ⟨index, link, source, matched⟩)
    · obtain ⟨member, kind⟩ := QueryGraph.mem_of_root isRoot
      exact ⟨member, by simp [kind], Or.inl kind⟩
    · exact (matched.relation_and_pictured tree).2

/-! ## The elements of the statement -/

/-- A statement consists of the patterns, predicates and parameters of the
pictured nodes and of the relationships that lead to them. -/
structure Describes
    (metadata : LabelMetadata)
    (direction : Direction)
    (graph : QueryGraph)
    (root : Node)
    (query : Query) : Prop where
  matched :
    ∀ element, element ∈ query.matched ↔
      element = .node (nodePattern metadata graph root true).1 ∨
        ∃ index link source target,
          Matched graph index link source target ∧
            element = .path (labeled source) ⟨relationVariable index, link.label, direction⟩
              (nodePattern metadata graph target true).1
  predicates :
    ∀ predicate, predicate ∈ query.predicates ↔
      ∃ node, graph.Pictured node ∧
        (predicate ∈ predefined metadata node ∨
          predicate ∈ (nodePattern metadata graph node true).2.1)
  parameters :
    ∀ node, graph.Pictured node → ∀ binding ∈ (nodePattern metadata graph node true).2.2,
      KeyedList.lookup? binding.1 query.parameters = some binding.2

variable
  {metadata : LabelMetadata}
  {direction : Direction}
  {root : Node}

/-- A pictured node is compiled with its value: the root at once, any other as
the target of a relationship. -/
theorem linkFragment_of_matched
    {index : Nat}
    {link : Link}
    {source target : Node}
    (matched : Matched graph index link source target)
    (tree : graph.Tree) :
    linkFragment metadata graph direction index link source target (target.id ≠ (⟨0⟩ : NodeId)) =
      linkFragment metadata graph direction index link source target true := by
  have notRoot : target.id ≠ (⟨0⟩ : NodeId) := by
    obtain ⟨isRelation, _⟩ := matched.relation_and_pictured tree
    rw [matched.targetNamed]
    exact tree.enters.notRoot link (QueryGraph.mem_relations.2 ⟨matched.linkMember, isRelation⟩)
  rw [decide_eq_true notRoot]

/-- Parameters of different pictured nodes have different names, so each is
found with its own value. -/
theorem lookup?_parameters
    (coherent : graph.Coherent)
    (distinct : DistinctNames metadata graph)
    {pairs : List (String × PropertyValue)}
    (contributed :
      ∀ pair, pair ∈ pairs ↔
        ∃ node, graph.Pictured node ∧ pair ∈ (nodePattern metadata graph node true).2.2)
    {node : Node}
    (pictured : graph.Pictured node)
    {binding : String × PropertyValue}
    (member : binding ∈ (nodePattern metadata graph node true).2.2) :
    KeyedList.lookup? binding.1 (KeyedList.ofList pairs) = some binding.2 := by
  apply KeyedList.lookup?_ofList_of_mem
  · exact (contributed binding).2 ⟨node, pictured, member⟩
  · intro pair pairMember sameName
    obtain ⟨other, otherPictured, otherMember⟩ := (contributed pair).1 pairMember
    obtain ⟨value, name, bound, constraint, rfl⟩ := exists_of_mem_bindings member
    obtain ⟨otherValue, otherName, otherBound, otherConstraint, rfl⟩ :=
      exists_of_mem_bindings otherMember
    have isBound := (coherent.boundValue?_eq_some_iff.1 bound).2
    have otherIsBound := (coherent.boundValue?_eq_some_iff.1 otherBound).2
    have same := distinct.parameters other otherPictured.member node pictured.member
      (by simp [Node.isBound, otherIsBound]) (by simp [Node.isBound, isBound])
      otherName name otherConstraint constraint sameName
    subst same
    rw [bound] at otherBound
    rw [constraint] at otherConstraint
    injection otherBound with sameValue
    injection otherConstraint with sameAttribute
    rw [sameValue, sameAttribute]

/-- The paths are those of the matched relationships, all with their values. -/
def ArePaths
    (metadata : LabelMetadata)
    (direction : Direction)
    (graph : QueryGraph)
    (paths : List Fragment) : Prop :=
  ∀ fragment, fragment ∈ paths ↔
    ∃ index link source target,
      Matched graph index link source target ∧
        fragment = linkFragment metadata graph direction index link source target true

/-- What the root and the paths contribute to a part of the statement is what
the pictured nodes contribute, if every fragment contributes for its node. -/
theorem ArePaths.mem_contributions
    {α : Type}
    {paths : List Fragment}
    (arePaths : ArePaths metadata direction graph paths)
    (tree : graph.Tree)
    (isRoot : graph.root = .ok root)
    (part : Fragment → List α)
    (ofNode : Node → List α)
    (ofRoot : part (rootFragment metadata graph root true) = ofNode root)
    (ofPath : ∀ index link source target,
      part (linkFragment metadata graph direction index link source target true) =
        ofNode target)
    (item : α) :
    item ∈ part (rootFragment metadata graph root true) ++ paths.flatMap part ↔
      ∃ node, graph.Pictured node ∧ item ∈ ofNode node := by
  rw [List.mem_append, List.mem_flatMap, ofRoot]
  simp only [pictured_iff tree isRoot]
  constructor
  · rintro (contributed | ⟨fragment, member, contributed⟩)
    · exact ⟨root, Or.inl rfl, contributed⟩
    · obtain ⟨index, link, source, target, stands, rfl⟩ := (arePaths fragment).1 member
      rw [ofPath] at contributed
      exact ⟨target, Or.inr ⟨index, link, source, stands⟩, contributed⟩
  · rintro ⟨node, rfl | ⟨index, link, source, stands⟩, contributed⟩
    · exact Or.inl contributed
    · rw [← ofPath index link source node] at contributed
      exact Or.inr ⟨_, (arePaths _).2 ⟨index, link, source, node, stands, rfl⟩, contributed⟩

/-- The root and the paths describe the picture. -/
theorem ArePaths.describes
    {paths : List Fragment}
    (arePaths : ArePaths metadata direction graph paths)
    (tree : graph.Tree)
    (isRoot : graph.root = .ok root)
    (distinct : DistinctNames metadata graph)
    {query : Query}
    (matched :
      query.matched = (rootFragment metadata graph root true).element :: paths.map Fragment.element)
    (predicates :
      query.predicates =
        (rootFragment metadata graph root true).predicates ++ paths.flatMap Fragment.predicates)
    (parameters :
      query.parameters =
        KeyedList.ofList
          ((rootFragment metadata graph root true).bindings ++ paths.flatMap Fragment.bindings)) :
    Describes metadata direction graph root query where
  matched := by
    intro element
    rw [matched, List.mem_cons, List.mem_map]
    refine or_congr Iff.rfl ?_
    constructor
    · rintro ⟨fragment, member, rfl⟩
      obtain ⟨index, link, source, target, stands, rfl⟩ := (arePaths fragment).1 member
      exact ⟨index, link, source, target, stands, rfl⟩
    · rintro ⟨index, link, source, target, stands, rfl⟩
      exact ⟨_, (arePaths _).2 ⟨index, link, source, target, stands, rfl⟩, rfl⟩
  predicates := by
    have contributed := arePaths.mem_contributions tree isRoot Fragment.predicates
      (fun node => predefined metadata node ++ (nodePattern metadata graph node true).2.1)
      rfl (fun _ _ _ _ => rfl)
    intro predicate
    rw [predicates, contributed]
    simp only [List.mem_append]
  parameters := by
    have contributed := arePaths.mem_contributions tree isRoot Fragment.bindings
      (fun node => (nodePattern metadata graph node true).2.2) rfl (fun _ _ _ _ => rfl)
    intro node pictured binding member
    rw [parameters]
    exact lookup?_parameters tree.toCoherent distinct contributed pictured member

/-- The result statement of a drawn graph exists, and is joined from the root and
the paths. -/
theorem exists_resultParts
    {context : QueryContext}
    (tree : context.graph.Tree)
    (isRoot : context.graph.root = .ok root) :
    ∃ paths, ArePaths context.metadata context.direction context.graph paths ∧
      context.resultParts =
        .ok (root,
          { QueryContext.base
              (.ofFragments (rootFragment context.metadata context.graph root true) paths) true with
            projections := context.attributeProjections root
            ending := context.resultEnding root }) := by
  obtain ⟨rootMember, kind⟩ := QueryGraph.mem_of_root isRoot
  have rootNamed := (tree.toCoherent.id_eq_of_isRoot rootMember kind).1
  have known : ∀ id ∈ context.graph.relevantLinks root.id root.id,
      ∃ link ∈ context.graph.links, link.id = id :=
    fun _ => QueryGraph.exists_link_of_mem_relevantLinks
  obtain ⟨paths, compiled, fragments⟩ :=
    compile_ok context.metadata tree.toCoherent rootMember context.direction root.id known
  refine ⟨paths, ?_, ?_⟩
  · intro fragment
    rw [fragments, rootNamed]
    constructor
    · rintro ⟨index, link, source, target, stands, rfl⟩
      exact ⟨index, link, source, target, stands, linkFragment_of_matched stands tree⟩
    · rintro ⟨index, link, source, target, stands, rfl⟩
      exact ⟨index, link, source, target, stands, (linkFragment_of_matched stands tree).symm⟩
  · simp only [QueryContext.resultParts, QueryContext.rootElements, isRoot, compiled, bind,
      Except.bind, pure, Except.pure]

/-- The result statement of a drawn graph describes its picture. -/
theorem resultParts_describes
    {context : QueryContext}
    (tree : context.graph.Tree)
    (isRoot : context.graph.root = .ok root)
    (distinct : DistinctNames context.metadata context.graph) :
    ∃ query,
      context.resultParts = .ok (root, query) ∧
        Describes context.metadata context.direction context.graph root query := by
  obtain ⟨paths, arePaths, built⟩ := exists_resultParts tree isRoot
  exact ⟨_, built, arePaths.describes tree isRoot distinct rfl rfl rfl⟩

end Compiler
end VisualQuery
