import Mathlib.Logic.Relation
import VisualQuery.Proofs.Graph.Invariance

/-!
# How far a removal goes

A step down leads from a node other than the root along a link of either kind,
or to a node expanded from it.  Links of every shape are allowed: cycles,
diamonds, parallel links, links back to the root.  A removal takes exactly the
nodes other than the root that steps down lead to.  With them go the links that
touch them, and whatever was bound to one of them becomes unbound; nothing else
changes.
-/

namespace VisualQuery
namespace QueryGraph

variable {graph : QueryGraph} {top id : NodeId}

/-! ## Steps down -/

/-- A node of the graph other than the root. -/
def Inner (graph : QueryGraph) (id : NodeId) : Prop :=
  ∃ node ∈ graph.nodes, node.id = id ∧ node.kind ≠ .root

/-- One step down. -/
inductive StepsDown (graph : QueryGraph) : NodeId → NodeId → Prop
  | along
      {link : Link}
      (member : link ∈ graph.links)
      (leaves : graph.Inner link.source) :
      StepsDown graph link.source link.target
  | below
      {child : Node}
      {parent : NodeId}
      (member : child ∈ graph.nodes)
      (isParent : child.parent = some parent)
      (leaves : graph.Inner parent) :
      StepsDown graph parent child.id

/-- The nodes other than the root that steps down lead to. -/
def HangsFrom (graph : QueryGraph) (top id : NodeId) : Prop :=
  graph.Inner id ∧ Relation.ReflTransGen graph.StepsDown top id

theorem Coherent.isRemovable_iff_inner
    (coherent : graph.Coherent) :
    graph.isRemovable id = true ↔ graph.Inner id := by
  constructor
  · intro removable
    obtain ⟨node, member, rfl⟩ := mem_nodeIds.1 (mem_nodeIds_of_isRemovable removable)
    exact ⟨node, member, rfl, (coherent.isRemovable_iff member).1 removable⟩
  · rintro ⟨node, member, rfl, notRoot⟩
    exact (coherent.isRemovable_iff member).2 notRoot

/-- The walk takes steps down and no others. -/
theorem Coherent.stepsDown_iff
    (coherent : graph.Coherent)
    {next : NodeId} :
    graph.StepsDown id next ↔ graph.isRemovable id = true ∧ next ∈ graph.successors id := by
  rw [coherent.isRemovable_iff_inner, mem_successors]
  constructor
  · rintro (⟨member, leaves⟩ | ⟨member, isParent, leaves⟩)
    · exact ⟨leaves, Or.inl ⟨_, member, rfl, rfl⟩⟩
    · exact ⟨leaves, Or.inr ⟨_, member, isParent, rfl⟩⟩
  · rintro ⟨leaves, ⟨link, member, rfl, rfl⟩ | ⟨child, member, isParent, rfl⟩⟩
    · exact StepsDown.along member leaves
    · exact StepsDown.below member isParent leaves

/-- The walk from a node visits exactly what hangs from it, whatever the shape
of the graph. -/
theorem Coherent.mem_reached_iff_hangsFrom
    (coherent : graph.Coherent) :
    id ∈ graph.reached [top] [] ↔ graph.HangsFrom top id := by
  have closed := reached_closed graph top
  constructor
  · intro isReached
    refine ⟨coherent.isRemovable_iff_inner.1 (closed.removable id isReached), ?_⟩
    refine reached_keeps ?_ ?_ (by simp) id isReached
    · intro above removable path next isNext
      exact path.tail (coherent.stepsDown_iff.2 ⟨removable, isNext⟩)
    · intro start isTop
      rw [List.mem_singleton.1 isTop]
  · rintro ⟨inner, path⟩
    induction path with
    | refl =>
        exact mem_reached_of_mem_stack List.mem_cons_self (coherent.isRemovable_iff_inner.2 inner)
    | @tail middle last path step inductionHypothesis =>
        obtain ⟨removable, isNext⟩ := coherent.stepsDown_iff.1 step
        have before := inductionHypothesis (coherent.isRemovable_iff_inner.1 removable)
        exact closed.successors middle before last isNext (coherent.isRemovable_iff_inner.2 inner)

/-! ## What is left -/

/-- The graph without some nodes: their links are gone too, and no other node is
bound to one of them. -/
def without (gone : List NodeId) (graph : QueryGraph) : QueryGraph where
  nodes :=
    (graph.nodes.filter fun node => node.id ∉ gone).map fun node =>
      { node with value := node.value.filter fun value => value ∉ gone }
  links := graph.links.filter fun link => link.source ∉ gone ∧ link.target ∉ gone
  nextId := graph.nextId
  names := graph.names

/-- The graph without a link. -/
def withoutLink (gone : LinkId) (graph : QueryGraph) : QueryGraph where
  nodes := graph.nodes
  links := graph.links.filter fun link => link.id ≠ gone
  nextId := graph.nextId
  names := graph.names

theorem dropLink_eq_withoutLink (gone : LinkId) (graph : QueryGraph) :
    graph.dropLink gone = graph.withoutLink gone :=
  rfl

theorem dropNodes_eq_without
    (gone : List NodeId)
    (graph : QueryGraph) :
    graph.dropNodes gone = graph.without gone := by
  have released : Node.release gone = fun node =>
      { node with value := node.value.filter fun value => value ∉ gone } :=
    funext (Node.release_eq gone)
  simp only [without, ← released, Bool.decide_and]
  rfl

theorem without_nil (graph : QueryGraph) : graph.without [] = graph := by
  have unchanged : Node.release [] = id := funext fun node => Node.release_eq_self (by simp)
  have all {α : Type} (items : List α) : items.filter (fun _ => true) = items := by simp
  rw [← dropNodes_eq_without, dropNodes_eq, unchanged]
  simp [leaveOut, mapNodes, all]

/-- It does not matter whether a link goes first or last. -/
theorem without_withoutLink
    (gone : List NodeId)
    (link : LinkId)
    (graph : QueryGraph) :
    (graph.withoutLink link).without gone = (graph.without gone).withoutLink link := by
  simp only [without, withoutLink, List.filter_filter, Bool.and_comm]

/-! ## Steps down without a link -/

/-- Without a link, the same hangs from its target as with it: the link only
leads back there. -/
theorem hangsFrom_dropLink
    (coherent : graph.Coherent)
    {link : Link}
    (member : link ∈ graph.links) :
    (graph.dropLink link.id).HangsFrom link.target id ↔ graph.HangsFrom link.target id := by
  constructor
  · rintro ⟨inner, path⟩
    refine ⟨inner, Relation.ReflTransGen.mono ?_ _ _ path⟩
    rintro above next (⟨other, leaves⟩ | ⟨child, isParent, leaves⟩)
    · exact StepsDown.along (mem_dropLink.1 other).1 leaves
    · exact StepsDown.below child isParent leaves
  · rintro ⟨inner, path⟩
    refine ⟨inner, ?_⟩
    clear inner
    induction path with
    | refl => exact Relation.ReflTransGen.refl
    | tail _ step inductionHypothesis =>
        cases step with
        | @along other otherMember leaves =>
            by_cases same : other.id = link.id
            · rw [coherent.eq_of_link_id_eq otherMember member same]
            · exact inductionHypothesis.tail
                (StepsDown.along (mem_dropLink.2 ⟨otherMember, same⟩) leaves)
        | below child isParent leaves =>
            exact inductionHypothesis.tail (StepsDown.below child isParent leaves)

/-- From the root no step leads down. -/
theorem Coherent.not_hangsFrom_root
    (coherent : graph.Coherent)
    {root : Node}
    (member : root ∈ graph.nodes)
    (isRoot : root.kind = .root) :
    ¬ graph.HangsFrom root.id id := by
  have notInner : ¬ graph.Inner root.id := by
    rintro ⟨node, nodeMember, same, notRoot⟩
    rw [coherent.eq_of_id_eq nodeMember member same] at notRoot
    exact notRoot isRoot
  rintro ⟨inner, path⟩
  rcases Relation.ReflTransGen.cases_head path with rfl | ⟨next, step, _⟩
  · exact notInner inner
  · exact notInner (coherent.isRemovable_iff_inner.1 (coherent.stepsDown_iff.1 step).1)

/-! ## Removals -/

/-- Removing a node other than the root is accepted, and takes what hangs from
it. -/
theorem Coherent.removeNode_extent
    (coherent : graph.Coherent)
    {node : Node}
    (member : node ∈ graph.nodes)
    (notRoot : node.kind ≠ .root) :
    ∃ gone, (∀ id, id ∈ gone ↔ graph.HangsFrom node.id id) ∧
      graph.removeNode node.id = .ok (graph.without gone) := by
  refine ⟨graph.reached [node.id] [], fun id => coherent.mem_reached_iff_hangsFrom, ?_⟩
  have inner : node.isRoot = false := by simpa [Node.isRoot] using notRoot
  unfold removeNode
  rw [coherent.node_of_mem member]
  simp only [bind, Except.bind, inner, Bool.false_eq_true, if_false, pure, Except.pure,
    QueryGraph.removeSubtree, dropNodes_eq_without]

/-- Removing a link is accepted, and takes what hangs from its target. -/
theorem Coherent.removeLink_extent
    (coherent : graph.Coherent)
    {link : Link}
    (member : link ∈ graph.links) :
    ∃ gone, (∀ id, id ∈ gone ↔ graph.HangsFrom link.target id) ∧
      graph.removeLink link.id = .ok ((graph.without gone).withoutLink link.id) := by
  have dropped := coherent.dropLink link.id
  refine ⟨(graph.dropLink link.id).reached [link.target] [], ?_, ?_⟩
  · intro id
    rw [dropped.mem_reached_iff_hangsFrom, hangsFrom_dropLink coherent member]
  · unfold removeLink
    rw [coherent.link_of_mem member]
    simp only [bind, Except.bind, pure, Except.pure, QueryGraph.removeSubtree,
      dropNodes_eq_without, dropLink_eq_withoutLink, without_withoutLink]

/-- A link to the root goes alone. -/
theorem Coherent.removeLink_to_root
    (coherent : graph.Coherent)
    {link : Link}
    (member : link ∈ graph.links)
    {root : Node}
    (rootMember : root ∈ graph.nodes)
    (isRoot : root.kind = .root)
    (target : link.target = root.id) :
    graph.removeLink link.id = .ok (graph.withoutLink link.id) := by
  obtain ⟨gone, extent, removed⟩ := coherent.removeLink_extent member
  have none_gone : gone = [] := by
    rw [List.eq_nil_iff_forall_not_mem]
    intro id isGone
    rw [extent, target] at isGone
    exact coherent.not_hangsFrom_root rootMember isRoot isGone
  rw [removed, none_gone, without_nil]

end QueryGraph

namespace GraphEdit

/-- Whatever edits built a graph: removing a node other than the root takes
exactly what hangs from it, and removing a link takes the link and exactly what
hangs from its target, which is nothing if the target is the root. -/
theorem removals_exact (edits : List GraphEdit) :
    let graph := run edits .empty
    (∀ node ∈ graph.nodes, node.kind ≠ .root →
      ∃ gone, (∀ id, id ∈ gone ↔ graph.HangsFrom node.id id) ∧
        graph.removeNode node.id = .ok (graph.without gone)) ∧
    (∀ link ∈ graph.links,
      ∃ gone, (∀ id, id ∈ gone ↔ graph.HangsFrom link.target id) ∧
        graph.removeLink link.id = .ok ((graph.without gone).withoutLink link.id)) ∧
    ∀ link ∈ graph.links, ∀ root ∈ graph.nodes, root.kind = .root → link.target = root.id →
      graph.removeLink link.id = .ok (graph.withoutLink link.id) := by
  have coherent := (run_wellFormed edits).toCoherent
  refine ⟨?_, ?_, ?_⟩
  · intro node member notRoot
    exact coherent.removeNode_extent member notRoot
  · intro link member
    exact coherent.removeLink_extent member
  · intro link member root rootMember isRoot target
    exact coherent.removeLink_to_root member rootMember isRoot target

/-- A graph with a diamond, parallel links, a cycle, a link back to the root and
a value of the root that hangs from a term too. -/
def tangled : List GraphEdit :=
  [.addRoot "Person",
    .addRelationship ⟨0⟩ "KNOWS" "Person" false,
    .addRelationship ⟨0⟩ "OWNS" "Account" false,
    .addRelationship ⟨1⟩ "PAID" "Invoice" false,
    .addLink ⟨3⟩ ⟨5⟩ .relation (some "PAID"),
    .addLink ⟨5⟩ ⟨1⟩ .relation (some "SENT"),
    .addLink ⟨5⟩ ⟨1⟩ .relation (some "SENT"),
    .addLink ⟨5⟩ ⟨0⟩ .relation (some "NAMES"),
    .addValue ⟨0⟩ [],
    .addLink ⟨5⟩ ⟨11⟩ .value none,
    .bindValue ⟨0⟩ ⟨11⟩]

theorem removals_tangled :
    let graph := run tangled .empty
    (∃ gone, (∀ id, id ∈ gone ↔ graph.HangsFrom ⟨1⟩ id) ∧
        graph.removeNode ⟨1⟩ = .ok (graph.without gone)) ∧
      (∃ gone, (∀ id, id ∈ gone ↔ graph.HangsFrom ⟨3⟩ id) ∧
        graph.removeLink ⟨4⟩ = .ok ((graph.without gone).withoutLink ⟨4⟩)) ∧
      graph.removeLink ⟨10⟩ = .ok (graph.withoutLink ⟨10⟩) := by
  intro graph
  obtain ⟨nodesGo, linksGo, linkToRootGoes⟩ := removals_exact tangled
  obtain ⟨person, personMember, personId, notRoot⟩ :
      ∃ node ∈ graph.nodes, node.id = ⟨1⟩ ∧ node.kind ≠ .root := by decide
  obtain ⟨owns, ownsMember, ownsId, ownsTarget⟩ :
      ∃ link ∈ graph.links, link.id = ⟨4⟩ ∧ link.target = ⟨3⟩ := by decide
  obtain ⟨names, namesMember, namesId, namesTarget⟩ :
      ∃ link ∈ graph.links, link.id = ⟨10⟩ ∧ link.target = ⟨0⟩ := by decide
  obtain ⟨root, rootMember, rootId, isRoot⟩ :
      ∃ node ∈ graph.nodes, node.id = ⟨0⟩ ∧ node.kind = .root := by decide
  refine ⟨?_, ?_, ?_⟩
  · rw [← personId]
    exact nodesGo person personMember notRoot
  · rw [← ownsId, ← ownsTarget]
    exact linksGo owns ownsMember
  · rw [← namesId]
    exact linkToRootGoes names namesMember root rootMember isRoot (namesTarget.trans rootId.symm)

end GraphEdit
end VisualQuery
