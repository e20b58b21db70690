import VisualQuery.Graph.Removal

/-!
# Coherent graphs

A coherent graph has its nodes and links in the order of their numbers, the
root in front, every other node below an earlier one, and no reference to a
node that is missing.  Adding to a graph, and changing nodes in place, keep it
coherent.
-/

namespace VisualQuery
namespace QueryGraph

/-- Numbers, root, parents, link ends and value references fit together. -/
structure Coherent (graph : QueryGraph) : Prop where
  /-- Nodes stand in the order of their numbers. -/
  nodesOrdered :
    graph.nodes.Pairwise fun earlier later => earlier.id.value < later.id.value
  /-- Links stand in the order of their numbers. -/
  linksOrdered :
    graph.links.Pairwise fun earlier later => earlier.id.value < later.id.value
  nodesBelow : ∀ node ∈ graph.nodes, node.id.value < graph.nextId
  linksBelow : ∀ link ∈ graph.links, link.id.value < graph.nextId
  /-- No number names both a node and a link. -/
  numbersDisjoint :
    ∀ node ∈ graph.nodes, ∀ link ∈ graph.links, node.id.value ≠ link.id.value
  /-- Without nodes the counter is at its start. -/
  freshWhenEmpty : graph.nodes = [] → graph.nextId = 0
  /-- The first node is the only root, has number 0 and no parent. -/
  rootFirst :
    ∀ first rest, graph.nodes = first :: rest →
      first.kind = .root ∧ first.id = ⟨0⟩ ∧ first.parent = none ∧
        ∀ node ∈ rest, node.kind ≠ .root
  /-- Every other node has a parent with a smaller number. -/
  parentEarlier :
    ∀ node ∈ graph.nodes, node.kind ≠ .root →
      ∃ parent ∈ graph.nodes,
        node.parent = some parent.id ∧ parent.id.value < node.id.value
  linkEnds :
    ∀ link ∈ graph.links, link.source ∈ graph.nodeIds ∧ link.target ∈ graph.nodeIds
  /-- A bound value is a value below the node it is bound to. -/
  boundBelow :
    ∀ node ∈ graph.nodes, ∀ id, node.value = some id →
      ∃ value ∈ graph.nodes,
        value.id = id ∧ value.kind = .value ∧ value.parent = some node.id
  /-- Values hang below roots and entity terms. -/
  valueOwner :
    ∀ value ∈ graph.nodes, value.kind = .value →
      ∃ owner ∈ graph.nodes,
        value.parent = some owner.id ∧ owner.kind.listsValues = true

theorem coherent_empty : Coherent empty := by
  constructor <;> simp [empty]

/-! ## Looking things up -/

@[simp] theorem mem_nodeIds
    {graph : QueryGraph}
    {id : NodeId} :
    id ∈ graph.nodeIds ↔ ∃ node ∈ graph.nodes, node.id = id := by
  simp [nodeIds]

theorem mem_of_node?
    {graph : QueryGraph}
    {id : NodeId}
    {node : Node}
    (found : graph.node? id = some node) :
    node ∈ graph.nodes ∧ node.id = id := by
  constructor
  · exact List.mem_of_find?_eq_some found
  · simpa using List.find?_some found

theorem mem_of_node
    {graph : QueryGraph}
    {id : NodeId}
    {node : Node}
    (found : graph.node id = .ok node) :
    node ∈ graph.nodes ∧ node.id = id := by
  unfold QueryGraph.node at found
  split at found
  · rename_i stored lookup
    cases found
    exact mem_of_node? lookup
  · cases found

theorem ne_of_node_error
    {graph : QueryGraph}
    {id : NodeId}
    {error : QueryError}
    (missing : graph.node id = .error error)
    {node : Node}
    (member : node ∈ graph.nodes) :
    node.id ≠ id := by
  unfold QueryGraph.node at missing
  split at missing
  · cases missing
  · rename_i lookup
    simpa using List.find?_eq_none.1 lookup node member

/-- A number that no node bears is unknown. -/
theorem node_of_not_mem
    {graph : QueryGraph}
    {id : NodeId}
    (missing : id ∉ graph.nodeIds) :
    graph.node id = .error (.unknownNode id) := by
  cases found : graph.node? id with
  | none => rw [node, found]
  | some node =>
      obtain ⟨member, named⟩ := mem_of_node? found
      exact absurd (mem_nodeIds.2 ⟨node, member, named⟩) missing

/-- A number that no link bears is unknown. -/
theorem link_of_not_mem
    {graph : QueryGraph}
    {id : LinkId}
    (missing : ∀ link ∈ graph.links, link.id ≠ id) :
    graph.link id = .error (.unknownLink id) := by
  cases found : graph.link? id with
  | none => rw [link, found]
  | some link =>
      have named : link.id = id := by simpa using List.find?_some found
      exact absurd named (missing link (List.mem_of_find?_eq_some found))

theorem mem_of_link
    {graph : QueryGraph}
    {id : LinkId}
    {link : Link}
    (found : graph.link id = .ok link) :
    link ∈ graph.links ∧ link.id = id := by
  unfold QueryGraph.link at found
  split at found
  · rename_i stored lookup
    cases found
    constructor
    · exact List.mem_of_find?_eq_some lookup
    · simpa using List.find?_some lookup
  · cases found

/-- In a list ordered by a key, the key determines the item. -/
theorem eq_of_key_eq_of_ordered
    {α : Type}
    {key : α → Nat}
    {items : List α}
    (ordered : items.Pairwise fun earlier later => key earlier < key later)
    {left right : α}
    (leftMember : left ∈ items)
    (rightMember : right ∈ items)
    (same : key left = key right) :
    left = right := by
  induction ordered with
  | nil => simp at leftMember
  | cons before ordered inductionHypothesis =>
      rcases List.mem_cons.1 leftMember with rfl | leftLater <;>
        rcases List.mem_cons.1 rightMember with rfl | rightLater
      · rfl
      · have smaller := before right rightLater
        omega
      · have smaller := before left leftLater
        omega
      · exact inductionHypothesis leftLater rightLater

theorem nodup_of_ordered
    {α : Type}
    {key : α → Nat}
    {items : List α}
    (ordered : items.Pairwise fun earlier later => key earlier < key later) :
    items.Nodup := by
  apply ordered.imp
  intro earlier later smaller same
  rw [same] at smaller
  exact Nat.lt_irrefl _ smaller

/-- In a list ordered by a key, the members determine the list. -/
theorem eq_of_mem_iff_of_ordered
    {α : Type}
    {key : α → Nat}
    {left right : List α}
    (leftOrdered : left.Pairwise fun earlier later => key earlier < key later)
    (rightOrdered : right.Pairwise fun earlier later => key earlier < key later)
    (same : ∀ item, item ∈ left ↔ item ∈ right) :
    left = right := by
  refine List.Perm.eq_of_pairwise ?_ leftOrdered rightOrdered ((List.perm_ext_iff_of_nodup
    (nodup_of_ordered leftOrdered) (nodup_of_ordered rightOrdered)).2 same)
  intro _ _ _ _ before behind
  exact absurd (Nat.lt_trans before behind) (Nat.lt_irrefl _)

namespace Coherent

variable {graph : QueryGraph}

/-- Every number is the number of one node at most. -/
theorem nodup_nodeIds
    (coherent : graph.Coherent) :
    graph.nodeIds.Nodup :=
  @nodup_of_ordered _ NodeId.value _ (List.pairwise_map.2 coherent.nodesOrdered)

theorem eq_of_id_eq
    (coherent : graph.Coherent)
    {left right : Node}
    (leftMember : left ∈ graph.nodes)
    (rightMember : right ∈ graph.nodes)
    (same : left.id = right.id) :
    left = right :=
  eq_of_key_eq_of_ordered coherent.nodesOrdered leftMember rightMember
    (congrArg NodeId.value same)

theorem eq_of_link_id_eq
    (coherent : graph.Coherent)
    {left right : Link}
    (leftMember : left ∈ graph.links)
    (rightMember : right ∈ graph.links)
    (same : left.id = right.id) :
    left = right :=
  eq_of_key_eq_of_ordered coherent.linksOrdered leftMember rightMember
    (congrArg LinkId.value same)

/-- A root has number 0 and no parent. -/
theorem id_eq_of_isRoot
    (coherent : graph.Coherent)
    {node : Node}
    (member : node ∈ graph.nodes)
    (isRoot : node.kind = .root) :
    node.id = ⟨0⟩ ∧ node.parent = none := by
  cases nodes_eq : graph.nodes with
  | nil => rw [nodes_eq] at member; simp at member
  | cons first rest =>
      obtain ⟨_, id, parent, others⟩ := coherent.rootFirst first rest nodes_eq
      rw [nodes_eq] at member
      rcases List.mem_cons.1 member with rfl | later
      · exact ⟨id, parent⟩
      · exact absurd isRoot (others node later)

/-- A parent has a smaller number. -/
theorem parent_lt
    (coherent : graph.Coherent)
    {node : Node}
    (member : node ∈ graph.nodes)
    {parent : NodeId}
    (isParent : node.parent = some parent) :
    parent.value < node.id.value := by
  have notRoot : node.kind ≠ .root := by
    intro isRoot
    rw [(coherent.id_eq_of_isRoot member isRoot).2] at isParent
    cases isParent
  obtain ⟨above, _, aboveParent, smaller⟩ := coherent.parentEarlier node member notRoot
  rw [isParent] at aboveParent
  injection aboveParent with same
  rw [same]
  exact smaller

/-- A node with a parent is not the root, and its parent is there. -/
theorem exists_parent
    (coherent : graph.Coherent)
    {node : Node}
    (member : node ∈ graph.nodes)
    {parent : NodeId}
    (isParent : node.parent = some parent) :
    node.kind ≠ .root ∧ ∃ owner ∈ graph.nodes, owner.id = parent := by
  have notRoot : node.kind ≠ .root := by
    intro isRoot
    rw [(coherent.id_eq_of_isRoot member isRoot).2] at isParent
    cases isParent
  obtain ⟨owner, ownerMember, isOwner, _⟩ := coherent.parentEarlier node member notRoot
  rw [isParent] at isOwner
  injection isOwner with same
  exact ⟨notRoot, owner, ownerMember, same.symm⟩

/-- A node is below one node at most. -/
theorem eq_of_parent
    (coherent : graph.Coherent)
    {node left right : Node}
    (leftMember : left ∈ graph.nodes)
    (rightMember : right ∈ graph.nodes)
    (leftParent : node.parent = some left.id)
    (rightParent : node.parent = some right.id) :
    left = right := by
  rw [leftParent] at rightParent
  injection rightParent with same
  exact coherent.eq_of_id_eq leftMember rightMember same

/-- A value is below the node that is bound to it. -/
theorem below_of_bound
    (coherent : graph.Coherent)
    {node value : Node}
    (member : node ∈ graph.nodes)
    (valueMember : value ∈ graph.nodes)
    (bound : node.value = some value.id) :
    value.kind = .value ∧ value.parent = some node.id := by
  obtain ⟨below, belowMember, named, holds⟩ := coherent.boundBelow node member value.id bound
  rwa [coherent.eq_of_id_eq belowMember valueMember named] at holds

/-- A node with a value below it lists values. -/
theorem lists_of_value
    (coherent : graph.Coherent)
    {owner value : Node}
    (member : owner ∈ graph.nodes)
    (valueMember : value ∈ graph.nodes)
    (isValue : value.kind = .value)
    (parent : value.parent = some owner.id) :
    owner.kind.listsValues = true := by
  obtain ⟨holder, holderMember, isHolder, lists⟩ := coherent.valueOwner value valueMember isValue
  rwa [coherent.eq_of_parent holderMember member isHolder parent] at lists

/-- Looking up the number of a node finds the node. -/
theorem node?_of_mem
    (coherent : graph.Coherent)
    {node : Node}
    (member : node ∈ graph.nodes) :
    graph.node? node.id = some node := by
  cases found : graph.node? node.id with
  | none =>
      have missing := List.find?_eq_none.1 found node member
      simp at missing
  | some stored =>
      obtain ⟨storedMember, same⟩ := mem_of_node? found
      rw [coherent.eq_of_id_eq storedMember member same]

theorem node_of_mem
    (coherent : graph.Coherent)
    {node : Node}
    (member : node ∈ graph.nodes) :
    graph.node node.id = .ok node := by
  unfold QueryGraph.node
  rw [coherent.node?_of_mem member]

theorem link_of_mem
    (coherent : graph.Coherent)
    {link : Link}
    (member : link ∈ graph.links) :
    graph.link link.id = .ok link := by
  unfold QueryGraph.link
  cases found : graph.link? link.id with
  | none =>
      have missing := List.find?_eq_none.1 found link member
      simp at missing
  | some stored =>
      have storedMember := List.mem_of_find?_eq_some found
      have same : stored.id = link.id := by simpa using List.find?_some found
      rw [coherent.eq_of_link_id_eq storedMember member same]

/-- The removable nodes are those other than the root. -/
theorem isRemovable_iff
    (coherent : graph.Coherent)
    {node : Node}
    (member : node ∈ graph.nodes) :
    graph.isRemovable node.id = true ↔ node.kind ≠ .root := by
  unfold isRemovable
  rw [coherent.node?_of_mem member]
  simp [Node.isRoot]

/-- Without nodes there are no links. -/
theorem links_eq_nil
    (coherent : graph.Coherent)
    (empty : graph.nodes = []) :
    graph.links = [] := by
  rw [List.eq_nil_iff_forall_not_mem]
  intro link member
  have ends := (coherent.linkEnds link member).1
  rw [mem_nodeIds, empty] at ends
  simp at ends

/-- Only nodes, links and the counter matter. -/
theorem congr
    (coherent : graph.Coherent)
    {other : QueryGraph}
    (nodes : other.nodes = graph.nodes)
    (links : other.links = graph.links)
    (nextId : other.nextId = graph.nextId) :
    other.Coherent := by
  obtain ⟨_, _, _, names⟩ := other
  subst nodes links nextId
  exact ⟨coherent.nodesOrdered, coherent.linksOrdered, coherent.nodesBelow,
    coherent.linksBelow, coherent.numbersDisjoint, coherent.freshWhenEmpty,
    coherent.rootFirst, coherent.parentEarlier, coherent.linkEnds, coherent.boundBelow,
    coherent.valueOwner⟩

end Coherent

/-! ## Lines of descent -/

/-- Going up from parent to parent leads from a node to the top. -/
inductive Beneath (graph : QueryGraph) (top : NodeId) : NodeId → Prop
  | self : Beneath graph top top
  | child
      {node : Node}
      {parent : NodeId}
      (member : node ∈ graph.nodes)
      (isParent : node.parent = some parent)
      (above : Beneath graph top parent) :
      Beneath graph top node.id

/-- Every line of descent starts at the root. -/
theorem Coherent.beneath_root
    {graph : QueryGraph}
    (coherent : graph.Coherent)
    {node : Node}
    (member : node ∈ graph.nodes) :
    graph.Beneath ⟨0⟩ node.id := by
  induction number : node.id.value using Nat.strongRecOn generalizing node with
  | _ bound inductionHypothesis =>
      by_cases isRoot : node.kind = .root
      · rw [(coherent.id_eq_of_isRoot member isRoot).1]
        exact Beneath.self
      · obtain ⟨parent, parentMember, isParent, smaller⟩ :=
          coherent.parentEarlier node member isRoot
        have above := inductionHypothesis parent.id.value (number ▸ smaller) parentMember rfl
        exact Beneath.child member isParent above

end QueryGraph
end VisualQuery
