import VisualQuery.Proofs.Compiler.Results
import VisualQuery.Proofs.Graph.InPlace

/-!
# A listing does not look at the node's own value

The values listed for a node are those it could be bound to, so the value it is
bound to must not narrow the listing.  That value could come in by three ways:
the choice of the relevant links, the constraint of a link that leads to the
node, and the constraint of the root.  None of them is open to a value listing,
and only the last to a count, that of the root.  Nothing is assumed of the
graph: several links may lead to the node, and some to the root.
-/

namespace VisualQuery

/-- Bind a node to something else, or to nothing, if it has the number. -/
def Node.rebind (id : NodeId) (value : Option NodeId) (node : Node) : Node :=
  if node.id = id then { node with value } else node

namespace Node

variable {id : NodeId} {value : Option NodeId} {node : Node}

/-- What does not look at the value of a node stays. -/
theorem rebind_keeps
    {α : Type}
    (look : Node → α)
    (blind : ∀ node : Node, look { node with value } = look node) :
    look (node.rebind id value) = look node := by
  unfold rebind
  split
  · exact blind node
  · rfl

@[simp] theorem rebind_id : (node.rebind id value).id = node.id :=
  rebind_keeps Node.id fun _ => rfl

@[simp] theorem rebind_isRoot : (node.rebind id value).isRoot = node.isRoot :=
  rebind_keeps Node.isRoot fun _ => rfl

@[simp] theorem rebind_label : (node.rebind id value).label = node.label :=
  rebind_keeps Node.label fun _ => rfl

@[simp] theorem rebind_immutable : (node.rebind id value).immutable = node.immutable :=
  rebind_keeps Node.immutable fun _ => rfl

theorem rebind_of_ne (other : node.id ≠ id) : node.rebind id value = node :=
  if_neg other

end Node

namespace QueryGraph

/-- The graph with another value bound to a node. -/
def withValue (id : NodeId) (value : Option NodeId) (graph : QueryGraph) : QueryGraph :=
  graph.modifyNode id fun node => { node with value }

/-- Two graphs that differ in nothing but the value bound to a node. -/
def AgreeOffValue (id : NodeId) (left right : QueryGraph) : Prop :=
  left.withValue id none = right.withValue id none

variable {graph : QueryGraph} {id : NodeId} {value : Option NodeId}

theorem nodes_withValue :
    (graph.withValue id value).nodes = graph.nodes.map (Node.rebind id value) := rfl

@[simp] theorem links_withValue : (graph.withValue id value).links = graph.links := rfl

/-- Graphs agree in everything else, however the value is changed. -/
theorem agreeOffValue_withValue : graph.AgreeOffValue id (graph.withValue id value) := by
  have rebinds : Node.rebind id none ∘ Node.rebind id value = Node.rebind id none := by
    funext node
    by_cases own : node.id = id
    · simp [Node.rebind, own]
    · simp [Node.rebind, own]
  have sameNodes : (graph.nodes.map (Node.rebind id value)).map (Node.rebind id none) =
      graph.nodes.map (Node.rebind id none) := by
    rw [List.map_map, rebinds]
  exact (congrArg (fun nodes => { graph with nodes }) sameNodes).symm

/-! ## Looking things up -/

@[simp] theorem node?_withValue (sought : NodeId) :
    (graph.withValue id value).node? sought = (graph.node? sought).map (Node.rebind id value) := by
  have sameTest :
      (fun node : Node => decide (node.id = sought)) ∘ Node.rebind id value =
        fun node => decide (node.id = sought) := by
    funext node
    simp
  rw [node?, nodes_withValue, List.find?_map, sameTest]
  rfl

theorem node_withValue (sought : NodeId) :
    (graph.withValue id value).node sought = (graph.node sought).map (Node.rebind id value) := by
  unfold QueryGraph.node
  rw [node?_withValue]
  cases graph.node? sought <;> rfl

@[simp] theorem link_withValue (sought : LinkId) :
    (graph.withValue id value).link sought = graph.link sought := rfl

theorem root_withValue :
    (graph.withValue id value).root = graph.root.map (Node.rebind id value) := by
  unfold QueryGraph.root
  rw [nodes_withValue]
  cases graph.nodes with
  | nil => rfl
  | cons first rest =>
      by_cases isRoot : first.isRoot
      · simp [isRoot, Except.map]
      · simp [isRoot, Except.map]

/-- The two graphs have roots with the same number, or none. -/
theorem AgreeOffValue.root_ok
    {left right : QueryGraph}
    (agree : left.AgreeOffValue id right)
    {root : Node}
    (isRoot : right.root = .ok root) :
    ∃ other, left.root = .ok other ∧ other.id = root.id := by
  have same := congrArg QueryGraph.root agree
  rw [root_withValue, root_withValue, isRoot] at same
  cases leftRoot : left.root with
  | error failure =>
      rw [leftRoot] at same
      contradiction
  | ok other =>
      rw [leftRoot, Except.map, Except.map, Except.ok.injEq] at same
      have sameId := congrArg Node.id same
      rw [Node.rebind_id, Node.rebind_id] at sameId
      exact ⟨other, rfl, sameId⟩

/-- The value of a node is found, changed if it is itself the node with the
number. -/
theorem boundValue?_withValue (node : Node) :
    (graph.withValue id value).boundValue? node =
      (graph.boundValue? node).map (Node.rebind id value) := by
  unfold boundValue?
  cases node.value with
  | none => rfl
  | some bound => exact node?_withValue bound

/-! ## Relevant links -/

/-- A link that leads to the target is an anchor whether or not the target is
bound. -/
theorem isAnchor_withValue :
    (graph.withValue id value).isAnchor id = graph.isAnchor id := by
  funext link
  unfold isAnchor
  by_cases leads : link.target = id
  · simp [leads]
  · rw [node?_withValue]
    cases found : graph.node? link.target with
    | none => rfl
    | some node =>
        have other : node.id ≠ id := by
          rw [(mem_of_node? found).2]
          exact leads
        rw [Option.map_some, Node.rebind_of_ne other]

theorem relevantLinks_withValue (root : NodeId) :
    (graph.withValue id value).relevantLinks root id = graph.relevantLinks root id := by
  unfold relevantLinks relations
  rw [isAnchor_withValue, links_withValue]

end QueryGraph

namespace Compiler

open Cypher

variable {metadata : LabelMetadata} {graph : QueryGraph} {id : NodeId} {value : Option NodeId}

/-! ## Patterns -/

@[simp] theorem labeled_rebind (node : Node) : labeled (node.rebind id value) = labeled node :=
  Node.rebind_keeps labeled fun _ => rfl

@[simp] theorem predefined_rebind (node : Node) :
    predefined metadata (node.rebind id value) = predefined metadata node :=
  Node.rebind_keeps (predefined metadata) fun _ => rfl

/-- A constraint reads the identity and the attributes of a value only. -/
theorem constrainedPattern_rebind (node bound : Node) :
    constrainedPattern metadata node (bound.rebind id value) =
      constrainedPattern metadata node bound :=
  Node.rebind_keeps (constrainedPattern metadata node) fun _ => rfl

theorem nodePattern_unconstrained (node : Node) :
    nodePattern metadata graph node false = (labeled node, [], []) := by
  unfold nodePattern
  split <;> rfl

/-- The pattern of a node stays if the node whose value changes is not to be
constrained. -/
theorem nodePattern_withValue
    {node : Node}
    {constrain : Bool}
    (free : node.id = id → constrain = false) :
    nodePattern metadata (graph.withValue id value) (node.rebind id value) constrain =
      nodePattern metadata graph node constrain := by
  cases constrain with
  | false => rw [nodePattern_unconstrained, nodePattern_unconstrained, labeled_rebind]
  | true =>
      have other : node.id ≠ id := by
        intro own
        exact absurd (free own) (by decide)
      rw [Node.rebind_of_ne other]
      unfold nodePattern
      rw [QueryGraph.boundValue?_withValue]
      cases graph.boundValue? node with
      | none => rfl
      | some bound =>
          simp only [Option.map_some, if_true]
          exact constrainedPattern_rebind node bound

theorem rootFragment_withValue
    {root : Node}
    {constrain : Bool}
    (free : root.id = id → constrain = false) :
    rootFragment metadata (graph.withValue id value) (root.rebind id value) constrain =
      rootFragment metadata graph root constrain := by
  unfold rootFragment
  rw [nodePattern_withValue free, predefined_rebind]

theorem linkFragment_withValue
    {source target : Node}
    {constrain : Bool}
    (free : target.id = id → constrain = false)
    (direction : Direction)
    (index : Nat)
    (link : Link) :
    linkFragment metadata (graph.withValue id value) direction index link
        (source.rebind id value) (target.rebind id value) constrain =
      linkFragment metadata graph direction index link source target constrain := by
  unfold linkFragment
  rw [nodePattern_withValue free, predefined_rebind, labeled_rebind]

/-! ## Elements -/

/-- However many links lead to the selected node, none constrains it. -/
theorem fragmentAt_withValue (direction : Direction) (constrain : Bool) :
    fragmentAt metadata (graph.withValue id value) direction id constrain =
      fragmentAt metadata graph direction id constrain := by
  funext entry
  unfold fragmentAt
  rw [QueryGraph.link_withValue]
  cases graph.link entry.1 with
  | error failure => rfl
  | ok link =>
      simp only [bind, Except.bind, QueryGraph.node_withValue]
      cases graph.node link.source with
      | error failure => rfl
      | ok source =>
          cases graph.node link.target with
          | error failure => rfl
          | ok target =>
              have free : target.id = id → (constrain && decide (target.id ≠ id)) = false := by
                intro own
                simp [own]
              simp only [Except.map, Node.rebind_id]
              rw [linkFragment_withValue free]

/-- The elements stay if the root is not selected, or is excluded. -/
theorem compileElements_withValue
    {root : NodeId}
    {excludeRoot : Bool}
    (free : root = id → excludeRoot = true)
    (direction : Direction)
    (links : List LinkId)
    (constraintNeeded : Bool) :
    compileElements metadata (graph.withValue id value) direction root id links
        constraintNeeded excludeRoot =
      compileElements metadata graph direction root id links constraintNeeded excludeRoot := by
  rw [compileElements_eq, compileElements_eq, QueryGraph.node_withValue]
  cases found : graph.node root with
  | error failure => rfl
  | ok rootNode =>
      have rootFree : rootNode.id = id →
          ((constraintNeeded || rootNode.immutable) && !excludeRoot) = false := by
        intro own
        rw [(QueryGraph.mem_of_node found).2] at own
        simp [free own]
      simp only [Except.map, bind, Except.bind, Node.rebind_immutable]
      rw [fragmentAt_withValue, rootFragment_withValue rootFree]

namespace QueryContext

/-! ## Statements -/

variable {options : QueryOptions}

theorem attributeProjections_rebind (node : Node) :
    attributeProjections ⟨graph.withValue id value, metadata, options⟩ (node.rebind id value) =
      attributeProjections ⟨graph, metadata, options⟩ node :=
  Node.rebind_keeps (attributeProjections ⟨graph, metadata, options⟩) fun _ => rfl

theorem constraintOperand_rebind (node : Node) :
    constraintOperand ⟨graph.withValue id value, metadata, options⟩ (node.rebind id value) =
      constraintOperand ⟨graph, metadata, options⟩ node :=
  Node.rebind_keeps (constraintOperand ⟨graph, metadata, options⟩) fun _ => rfl

/-- The listed node constrains neither as the end of a link nor as the root. -/
theorem valueParts_withValue :
    valueParts ⟨graph.withValue id value, metadata, options⟩ id =
      (valueParts ⟨graph, metadata, options⟩ id).map fun parts =>
        (parts.1.rebind id value, parts.2) := by
  have sameDirection : direction ⟨graph.withValue id value, metadata, options⟩ =
      direction ⟨graph, metadata, options⟩ := rfl
  unfold valueParts
  simp only [QueryGraph.root_withValue, QueryGraph.node_withValue]
  cases graph.root with
  | error failure => rfl
  | ok root =>
      cases found : graph.node id with
      | error failure => rfl
      | ok target =>
          have own : target.id = id := (QueryGraph.mem_of_node found).2
          have excluded : root.id = id → decide (id = root.id) = true := by
            intro isRoot
            exact decide_eq_true isRoot.symm
          simp only [Except.map, bind, Except.bind, Node.rebind_id, own]
          rw [QueryGraph.relevantLinks_withValue, compileElements_withValue excluded,
            sameDirection, attributeProjections_rebind, constraintOperand_rebind,
            Node.rebind_label]
          cases compileElements metadata graph (direction ⟨graph, metadata, options⟩) root.id id
              (graph.relevantLinks root.id id) true (decide (id = root.id)) with
          | error failure => rfl
          | ok elements => rfl

/-- Below the root, the counted node does not constrain its count either. -/
theorem countParts_withValue
    (below : ∀ root, graph.root = .ok root → root.id ≠ id) :
    countParts ⟨graph.withValue id value, metadata, options⟩ id =
      (countParts ⟨graph, metadata, options⟩ id).map fun parts =>
        (parts.1.rebind id value, parts.2) := by
  have sameDirection : direction ⟨graph.withValue id value, metadata, options⟩ =
      direction ⟨graph, metadata, options⟩ := rfl
  unfold countParts compile
  simp only [QueryGraph.root_withValue, QueryGraph.node_withValue]
  cases isRoot : graph.root with
  | error failure => rfl
  | ok root =>
      cases found : graph.node id with
      | error failure => rfl
      | ok counted =>
          have own : counted.id = id := (QueryGraph.mem_of_node found).2
          have otherRoot : root.id = id → false = true := by
            intro same
            exact absurd same (below root isRoot)
          simp only [Except.map, bind, Except.bind, Node.rebind_id, own]
          rw [QueryGraph.relevantLinks_withValue, compileElements_withValue otherRoot,
            sameDirection, constraintOperand_rebind]
          cases compileElements metadata graph (direction ⟨graph, metadata, options⟩) root.id id
              (graph.relevantLinks root.id id) true false with
          | error failure => rfl
          | ok elements => rfl

theorem valueQuery_withValue
    (unfiltered : ∀ label, (metadata.resolve label).hooks.values = none) :
    valueQuery ⟨graph.withValue id value, metadata, options⟩ id =
      valueQuery ⟨graph, metadata, options⟩ id := by
  unfold valueQuery
  rw [valueParts_withValue]
  cases valueParts ⟨graph, metadata, options⟩ id with
  | error failure => rfl
  | ok parts => simp [Except.map, finish, unfiltered, QueryHook.apply]

theorem countQuery_withValue
    (unfiltered : ∀ label, (metadata.resolve label).hooks.count = none)
    (below : ∀ root, graph.root = .ok root → root.id ≠ id) :
    countQuery ⟨graph.withValue id value, metadata, options⟩ id =
      countQuery ⟨graph, metadata, options⟩ id := by
  unfold countQuery
  rw [countParts_withValue below]
  cases countParts ⟨graph, metadata, options⟩ id with
  | error failure => rfl
  | ok parts => simp [Except.map, finish, unfiltered, QueryHook.apply]

/-- Graphs that differ in the value of a node only list the same values for it,
by the same statement with the same fragments and parameters.  They count it
alike too, unless it is the root. -/
theorem listing_eq_of_agreeOffValue
    {left right : QueryGraph}
    (agree : left.AgreeOffValue id right)
    (valuesUnfiltered : ∀ label, (metadata.resolve label).hooks.values = none)
    (countsUnfiltered : ∀ label, (metadata.resolve label).hooks.count = none)
    (options : QueryOptions) :
    valueQuery ⟨left, metadata, options⟩ id = valueQuery ⟨right, metadata, options⟩ id ∧
      ((∀ root, left.root = .ok root → root.id ≠ id) →
        countQuery ⟨left, metadata, options⟩ id = countQuery ⟨right, metadata, options⟩ id) := by
  constructor
  · calc
      valueQuery ⟨left, metadata, options⟩ id
          = valueQuery ⟨left.withValue id none, metadata, options⟩ id :=
        (valueQuery_withValue valuesUnfiltered).symm
      _ = valueQuery ⟨right.withValue id none, metadata, options⟩ id := by rw [agree]
      _ = valueQuery ⟨right, metadata, options⟩ id := valueQuery_withValue valuesUnfiltered
  · intro leftBelow
    have rightBelow : ∀ root, right.root = .ok root → root.id ≠ id := by
      intro root isRoot
      obtain ⟨other, otherIsRoot, sameId⟩ := agree.root_ok isRoot
      rw [← sameId]
      exact leftBelow other otherIsRoot
    calc
      countQuery ⟨left, metadata, options⟩ id
          = countQuery ⟨left.withValue id none, metadata, options⟩ id :=
        (countQuery_withValue countsUnfiltered leftBelow).symm
      _ = countQuery ⟨right.withValue id none, metadata, options⟩ id := by rw [agree]
      _ = countQuery ⟨right, metadata, options⟩ id :=
        countQuery_withValue countsUnfiltered rightBelow

/-- The two branches, their bound term listed and counted as if it were free,
although the results show its value. -/
theorem listing_twoBranches_free :
    let bound := GraphEdit.run GraphEdit.twoBranches .empty
    let free := bound.withValue ⟨1⟩ none
    bound.AgreeOffValue ⟨1⟩ free ∧ bound ≠ free ∧
      resultQuery ⟨bound, namedLabels, {}⟩ ≠ resultQuery ⟨free, namedLabels, {}⟩ ∧
      valueQuery ⟨bound, namedLabels, {}⟩ ⟨1⟩ = valueQuery ⟨free, namedLabels, {}⟩ ⟨1⟩ ∧
      countQuery ⟨bound, namedLabels, {}⟩ ⟨1⟩ = countQuery ⟨free, namedLabels, {}⟩ ⟨1⟩ := by
  intro bound free
  have agree : bound.AgreeOffValue ⟨1⟩ free := QueryGraph.agreeOffValue_withValue
  have below : ∀ root, bound.root = .ok root → root.id ≠ ⟨1⟩ := by
    intro root isRoot
    have rootId : bound.root.map Node.id = .ok ⟨0⟩ := by decide +kernel
    rw [isRoot, Except.map, Except.ok.injEq] at rootId
    rw [rootId]
    decide
  have noHooks : ∀ label, (namedLabels.resolve label).hooks = {} := fun _ => rfl
  obtain ⟨values, counts⟩ := listing_eq_of_agreeOffValue agree
    (fun label => by rw [noHooks]) (fun label => by rw [noHooks]) {}
  exact ⟨agree, by decide +kernel, by decide +kernel, values, counts below⟩

end QueryContext
end Compiler
end VisualQuery
