import Mathlib.Tactic.ByContra
import VisualQuery.Proofs.Graph.InPlace

/-!
# Removals that cascade

The nodes a removal reaches are closed: whatever hangs from one of them is
among them too, the root apart.  Taking a closed set of nodes out of a coherent
graph therefore leaves a coherent graph.
-/

namespace VisualQuery
namespace QueryGraph

/-! ## The nodes a removal reaches -/

/-- Nodes other than the root that are closed under what hangs from them. -/
structure Closed (graph : QueryGraph) (removed : List NodeId) : Prop where
  removable : ∀ id ∈ removed, graph.isRemovable id = true
  successors :
    ∀ id ∈ removed, ∀ next ∈ graph.successors id,
      graph.isRemovable next = true → next ∈ removed

/-- What was seen stays seen. -/
theorem mem_reached_of_mem_seen
    {graph : QueryGraph}
    {stack seen : List NodeId}
    {id : NodeId}
    (member : id ∈ seen) :
    id ∈ graph.reached stack seen := by
  fun_induction reached graph stack seen with
  | case1 seen => exact member
  | case2 head stack seen step inductionHypothesis =>
      exact inductionHypothesis (List.mem_cons_of_mem _ member)
  | case3 head stack seen step inductionHypothesis => exact inductionHypothesis member

/-- Every removable node of the stack is reached. -/
theorem mem_reached_of_mem_stack
    {graph : QueryGraph}
    {stack seen : List NodeId}
    {id : NodeId}
    (member : id ∈ stack)
    (removable : graph.isRemovable id = true) :
    id ∈ graph.reached stack seen := by
  fun_induction reached graph stack seen with
  | case1 seen => simp at member
  | case2 head stack seen step inductionHypothesis =>
      rcases List.mem_cons.1 member with rfl | later
      · exact mem_reached_of_mem_seen (by simp)
      · exact inductionHypothesis (by simp [later])
  | case3 head stack seen step inductionHypothesis =>
      rcases List.mem_cons.1 member with rfl | later
      · have seenBefore : id ∈ seen := by
          by_contra fresh
          exact step ⟨removable, fresh⟩
        exact mem_reached_of_mem_seen seenBefore
      · exact inductionHypothesis later

/-- A walk reaches a closed set of nodes if what hangs from the nodes seen so
far is seen or still on the stack. -/
theorem reached_closed_of_frontier
    {graph : QueryGraph}
    {stack seen : List NodeId}
    (removable : ∀ id ∈ seen, graph.isRemovable id = true)
    (frontier :
      ∀ id ∈ seen, ∀ next ∈ graph.successors id,
        graph.isRemovable next = true → next ∈ seen ∨ next ∈ stack) :
    graph.Closed (graph.reached stack seen) := by
  fun_induction reached graph stack seen with
  | case1 seen =>
      refine ⟨removable, ?_⟩
      intro id member next isNext nextRemovable
      simpa using frontier id member next isNext nextRemovable
  | case2 head stack seen step inductionHypothesis =>
      apply inductionHypothesis
      · intro id member
        rcases List.mem_cons.1 member with rfl | old
        · exact step.1
        · exact removable id old
      · intro id member next isNext nextRemovable
        rcases List.mem_cons.1 member with rfl | old
        · exact Or.inr (List.mem_append_left _ isNext)
        · rcases frontier id old next isNext nextRemovable with seenBefore | onStack
          · exact Or.inl (List.mem_cons_of_mem _ seenBefore)
          · rcases List.mem_cons.1 onStack with rfl | later
            · exact Or.inl List.mem_cons_self
            · exact Or.inr (List.mem_append_right _ later)
  | case3 head stack seen step inductionHypothesis =>
      apply inductionHypothesis removable
      intro id member next isNext nextRemovable
      rcases frontier id member next isNext nextRemovable with seenBefore | onStack
      · exact Or.inl seenBefore
      · rcases List.mem_cons.1 onStack with rfl | later
        · refine Or.inl ?_
          by_contra fresh
          exact step ⟨nextRemovable, fresh⟩
        · exact Or.inr later

/-- What holds of the stack, and passes from a node that may go to what hangs
from it, holds of every node that is reached. -/
theorem reached_keeps
    {graph : QueryGraph}
    {property : NodeId → Prop}
    (passes :
      ∀ id, graph.isRemovable id = true → property id →
        ∀ next ∈ graph.successors id, property next)
    {stack seen : List NodeId}
    (onStack : ∀ id ∈ stack, property id)
    (onSeen : ∀ id ∈ seen, property id) :
    ∀ id ∈ graph.reached stack seen, property id := by
  fun_induction reached graph stack seen with
  | case1 seen => exact onSeen
  | case2 head stack seen step inductionHypothesis =>
      have headHolds := onStack head List.mem_cons_self
      apply inductionHypothesis
      · intro next member
        rcases List.mem_append.1 member with isNext | later
        · exact passes head step.1 headHolds next isNext
        · exact onStack next (List.mem_cons_of_mem _ later)
      · intro other member
        rcases List.mem_cons.1 member with rfl | old
        · exact headHolds
        · exact onSeen other old
  | case3 head stack seen step inductionHypothesis =>
      exact inductionHypothesis (fun next member => onStack next (List.mem_cons_of_mem _ member))
        onSeen

theorem reached_closed
    (graph : QueryGraph)
    (id : NodeId) :
    graph.Closed (graph.reached [id] []) :=
  reached_closed_of_frontier (by simp) (by simp)

/-- A node that is reached takes its link targets and its children along. -/
theorem mem_successors
    {graph : QueryGraph}
    {id next : NodeId} :
    next ∈ graph.successors id ↔
      (∃ link ∈ graph.links, link.source = id ∧ link.target = next) ∨
        ∃ node ∈ graph.nodes, node.parent = some id ∧ node.id = next := by
  simp [successors, and_assoc]

end QueryGraph

/-! ## Unbinding from removed values -/

/-- Unbind a node from a removed value. -/
def Node.release (removed : List NodeId) (node : Node) : Node :=
  match node.value with
  | some value => if value ∈ removed then { node with value := none } else node
  | none => node

namespace Node

theorem release_eq
    (removed : List NodeId)
    (node : Node) :
    node.release removed = { node with value := node.value.filter (· ∉ removed) } := by
  unfold release
  cases bound : node.value with
  | none => simp [Option.filter, ← bound]
  | some value =>
      by_cases gone : value ∈ removed
      · simp [Option.filter, gone]
      · simp [Option.filter, gone, ← bound]

theorem release_inPlace (removed : List NodeId) :
    InPlace (release removed) := by
  constructor <;> intro node <;> rw [release_eq]

/-- A node keeps exactly the values that stay. -/
theorem release_value_eq_some_iff
    {removed : List NodeId}
    {node : Node}
    {id : NodeId} :
    (node.release removed).value = some id ↔ node.value = some id ∧ id ∉ removed := by
  rw [release_eq]
  simp [Option.filter_eq_some_iff]

/-- A node that is bound to nothing that goes is left alone. -/
theorem release_eq_self
    {removed : List NodeId}
    {node : Node}
    (free : ∀ id ∈ removed, node.value ≠ some id) :
    node.release removed = node := by
  unfold release
  split
  · rename_i value bound
    rw [if_neg]
    intro gone
    exact free value gone bound
  · rfl

end Node

namespace QueryGraph

/-- Leave out nodes with the links that touch them. -/
def leaveOut (removed : List NodeId) (graph : QueryGraph) : QueryGraph :=
  { graph with
    nodes := graph.nodes.filter fun node => node.id ∉ removed
    links := graph.links.filter fun link => link.source ∉ removed && link.target ∉ removed }

/-- Dropping nodes unbinds the others from them and leaves them out. -/
theorem dropNodes_eq
    (removed : List NodeId)
    (graph : QueryGraph) :
    graph.dropNodes removed = (graph.mapNodes (Node.release removed)).leaveOut removed := by
  have nodes_eq :
      (graph.nodes.filter fun node => node.id ∉ removed).map (Node.release removed) =
        (graph.nodes.map (Node.release removed)).filter fun node => node.id ∉ removed := by
    rw [List.filter_map]
    simp [Function.comp_def, (Node.release_inPlace removed).id]
  simp only [leaveOut, mapNodes, ← nodes_eq]
  rfl

theorem mem_dropNodes
    {removed : List NodeId}
    {graph : QueryGraph}
    {node : Node} :
    node ∈ (graph.dropNodes removed).nodes ↔
      ∃ old ∈ graph.nodes, old.id ∉ removed ∧ old.release removed = node := by
  simp only [dropNodes_eq, leaveOut, List.mem_filter, mem_mapNodes, decide_eq_true_eq]
  constructor
  · rintro ⟨⟨old, member, rfl⟩, kept⟩
    rw [(Node.release_inPlace removed).id] at kept
    exact ⟨old, member, kept, rfl⟩
  · rintro ⟨old, member, kept, rfl⟩
    exact ⟨⟨old, member, rfl⟩, by rwa [(Node.release_inPlace removed).id]⟩

theorem mem_dropNodes_links
    {removed : List NodeId}
    {graph : QueryGraph}
    {link : Link} :
    link ∈ (graph.dropNodes removed).links ↔
      link ∈ graph.links ∧ link.source ∉ removed ∧ link.target ∉ removed := by
  simp [dropNodes]

variable {graph : QueryGraph}

namespace Coherent

/-- The parent of a kept node is kept. -/
theorem parent_kept
    (coherent : graph.Coherent)
    {removed : List NodeId}
    (closed : graph.Closed removed)
    {node : Node}
    (member : node ∈ graph.nodes)
    (kept : node.id ∉ removed)
    {parent : NodeId}
    (isParent : node.parent = some parent)
    (notRoot : node.kind ≠ .root) :
    parent ∉ removed := by
  intro gone
  apply kept
  apply closed.successors parent gone
  · exact mem_successors.2 (Or.inr ⟨node, member, isParent, rfl⟩)
  · exact (coherent.isRemovable_iff member).2 notRoot

/-- A link that leads to a kept node other than the root is kept. -/
theorem link_kept
    (coherent : graph.Coherent)
    {removed : List NodeId}
    (closed : graph.Closed removed)
    {node : Node}
    (member : node ∈ graph.nodes)
    (kept : node.id ∉ removed)
    {link : Link}
    (linkMember : link ∈ graph.links)
    (target : link.target = node.id)
    (notRoot : node.kind ≠ .root) :
    link ∈ (graph.dropNodes removed).links := by
  refine mem_dropNodes_links.2 ⟨linkMember, ?_, target ▸ kept⟩
  intro gone
  apply kept
  apply closed.successors link.source gone
  · exact mem_successors.2 (Or.inl ⟨link, linkMember, rfl, target⟩)
  · exact (coherent.isRemovable_iff member).2 notRoot

/-- The root is in no closed set. -/
theorem root_kept
    (coherent : graph.Coherent)
    {removed : List NodeId}
    (closed : graph.Closed removed)
    {node : Node}
    (member : node ∈ graph.nodes)
    (isRoot : node.kind = .root) :
    node.id ∉ removed := by
  intro gone
  exact (coherent.isRemovable_iff member).1 (closed.removable _ gone) isRoot

/-- Leaving out a closed set of nodes that nothing is bound to. -/
theorem leaveOut
    (coherent : graph.Coherent)
    {removed : List NodeId}
    (closed : graph.Closed removed)
    (unbound : ∀ node ∈ graph.nodes, ∀ id, node.value = some id → id ∉ removed) :
    (graph.leaveOut removed).Coherent where
  nodesOrdered := coherent.nodesOrdered.sublist List.filter_sublist
  linksOrdered := coherent.linksOrdered.sublist List.filter_sublist
  nodesBelow := by
    intro node member
    exact coherent.nodesBelow node (List.mem_filter.1 member |>.1)
  linksBelow := by
    intro link member
    exact coherent.linksBelow link (List.mem_filter.1 member |>.1)
  numbersDisjoint := by
    intro node member link linkMember
    exact coherent.numbersDisjoint node (List.mem_filter.1 member |>.1) link
      (List.mem_filter.1 linkMember |>.1)
  freshWhenEmpty := by
    intro empty
    cases nodes_eq : graph.nodes with
    | nil => exact coherent.freshWhenEmpty nodes_eq
    | cons head tail =>
        have member : head ∈ graph.nodes := by simp [nodes_eq]
        have kept := coherent.root_kept closed member
          (coherent.rootFirst head tail nodes_eq).1
        have stays : head ∈ (graph.leaveOut removed).nodes :=
          List.mem_filter.2 ⟨member, by simpa using kept⟩
        rw [empty] at stays
        simp at stays
  rootFirst := by
    intro first rest split
    cases nodes_eq : graph.nodes with
    | nil =>
        simp [QueryGraph.leaveOut, nodes_eq] at split
    | cons head tail =>
        obtain ⟨kind, id, parent, others⟩ := coherent.rootFirst head tail nodes_eq
        have member : head ∈ graph.nodes := by simp [nodes_eq]
        have kept := coherent.root_kept closed member kind
        simp only [QueryGraph.leaveOut, nodes_eq] at split
        rw [List.filter_cons_of_pos (by simpa using kept)] at split
        injection split with first_eq rest_eq
        subst first_eq rest_eq
        refine ⟨kind, id, parent, ?_⟩
        intro node nodeMember
        exact others node (List.mem_filter.1 nodeMember |>.1)
  parentEarlier := by
    intro node member notRoot
    obtain ⟨old, kept⟩ := List.mem_filter.1 member
    obtain ⟨above, aboveMember, isParent, smaller⟩ :=
      coherent.parentEarlier node old notRoot
    have aboveKept :=
      coherent.parent_kept closed old (by simpa using kept) isParent notRoot
    exact ⟨above, List.mem_filter.2 ⟨aboveMember, by simpa using aboveKept⟩, isParent, smaller⟩
  linkEnds := by
    intro link member
    obtain ⟨old, kept⟩ := List.mem_filter.1 member
    simp only [Bool.and_eq_true, decide_eq_true_eq] at kept
    obtain ⟨source, target⟩ := coherent.linkEnds link old
    obtain ⟨sourceNode, sourceMember, sourceNamed⟩ := mem_nodeIds.1 source
    obtain ⟨targetNode, targetMember, targetNamed⟩ := mem_nodeIds.1 target
    constructor
    · refine mem_nodeIds.2 ⟨sourceNode, List.mem_filter.2 ⟨sourceMember, ?_⟩, sourceNamed⟩
      simpa [sourceNamed] using kept.1
    · refine mem_nodeIds.2 ⟨targetNode, List.mem_filter.2 ⟨targetMember, ?_⟩, targetNamed⟩
      simpa [targetNamed] using kept.2
  boundBelow := by
    intro node member id bound
    have old := List.mem_filter.1 member |>.1
    obtain ⟨value, valueMember, named, holds⟩ := coherent.boundBelow node old id bound
    have kept := unbound node old id bound
    refine ⟨value, List.mem_filter.2 ⟨valueMember, ?_⟩, named, holds⟩
    simpa [named] using kept
  valueOwner := by
    intro value member isValue
    obtain ⟨old, kept⟩ := List.mem_filter.1 member
    obtain ⟨owner, ownerMember, isParent, lists⟩ := coherent.valueOwner value old isValue
    have ownerKept :=
      coherent.parent_kept closed old (by simpa using kept) isParent (by simp [isValue])
    exact ⟨owner, List.mem_filter.2 ⟨ownerMember, by simpa using ownerKept⟩, isParent, lists⟩

/-- Releasing nodes from removed values. -/
theorem release
    (coherent : graph.Coherent)
    (removed : List NodeId) :
    (graph.mapNodes (Node.release removed)).Coherent := by
  apply coherent.mapNodes (Node.release_inPlace removed)
  intro node member id bound
  exact coherent.boundBelow node member id (Node.release_value_eq_some_iff.1 bound).1

end Coherent

/-- A change in place moves no node and no link, so it closes the same sets. -/
theorem Closed.mapNodes
    {removed : List NodeId}
    (closed : graph.Closed removed)
    {change : Node → Node}
    (inPlace : Node.InPlace change) :
    (graph.mapNodes change).Closed removed := by
  have lookup (id : NodeId) :
      (graph.mapNodes change).node? id = (graph.node? id).map change := by
    simp only [QueryGraph.node?, QueryGraph.mapNodes, List.find?_map, Function.comp_def,
      inPlace.id]
  have removable (id : NodeId) :
      (graph.mapNodes change).isRemovable id = graph.isRemovable id := by
    simp only [isRemovable, lookup]
    cases graph.node? id with
    | none => rfl
    | some node => simp [Node.isRoot, inPlace.kind]
  have successors (id : NodeId) :
      (graph.mapNodes change).successors id = graph.successors id := by
    simp [QueryGraph.successors, QueryGraph.mapNodes, List.filter_map, Function.comp_def,
      inPlace.id, inPlace.parent]
  constructor
  · intro id member
    rw [removable]
    exact closed.removable id member
  · intro id member next isNext nextRemovable
    rw [successors] at isNext
    rw [removable] at nextRemovable
    exact closed.successors id member next isNext nextRemovable

/-- Dropping a closed set of nodes keeps a graph coherent. -/
theorem Coherent.dropNodes
    (coherent : graph.Coherent)
    {removed : List NodeId}
    (closed : graph.Closed removed) :
    (graph.dropNodes removed).Coherent := by
  rw [dropNodes_eq]
  apply (coherent.release removed).leaveOut (closed.mapNodes (Node.release_inPlace removed))
  intro node member id bound
  obtain ⟨old, _, rfl⟩ := mem_mapNodes.1 member
  exact (Node.release_value_eq_some_iff.1 bound).2

theorem Coherent.removeSubtree
    (coherent : graph.Coherent)
    (id : NodeId) :
    (graph.removeSubtree id).Coherent :=
  coherent.dropNodes (reached_closed graph id)

end QueryGraph
end VisualQuery
