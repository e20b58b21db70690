import VisualQuery.Proofs.Graph.Cutting
import VisualQuery.Proofs.Graph.Handling

/-!
# Growth below one node

Numbers are never used again, so a bound tells the nodes that were there before
from the new ones.  As long as the new nodes hang by terms below one old node,
what is done to them reaches no old node: removals go down, values stay below
the node they are listed for, and everything that is added gets a new number.
-/

namespace VisualQuery
namespace QueryGraph

variable
  {first : Nat}
  {owner id : NodeId}
  {old : Link → Prop}
  {base before after graph : QueryGraph}
  {change : Node → Node}
  {gone : NodeId → Prop}
  {dropped : Link → Prop}

/-! ## What is retained -/

/-- Nodes with numbers below a bound, and some links, are those of another
graph. -/
structure Retains (first : Nat) (old : Link → Prop) (base graph : QueryGraph) : Prop where
  nodes : ∀ node, node.id.value < first → (node ∈ graph.nodes ↔ node ∈ base.nodes)
  links : ∀ link, old link → (link ∈ graph.links ↔ link ∈ base.links)

/-- A removal retains the nodes and links that it does not reach. -/
theorem Retains.prune
    (retains : Retains first old base before)
    (prunes : Prunes change gone before after)
    (cuts : Cuts dropped before after)
    (still : ∀ node ∈ before.nodes, node.id.value < first → change node = node)
    (apart :
      ∀ node ∈ before.nodes, node.id.value < first →
        ∀ top, gone top → ¬ before.Beneath top node.id)
    (kept :
      ∀ link ∈ before.links, old link →
        ¬ dropped link ∧ link.source ∈ after.nodeIds ∧ link.target ∈ after.nodeIds) :
    Retains first old base after where
  nodes := by
    intro node smaller
    rw [← retains.nodes node smaller, prunes.nodes]
    constructor
    · rintro ⟨former, member, _, rfl⟩
      rw [prunes.inPlace.id] at smaller
      rwa [still former member smaller]
    · intro member
      exact ⟨node, member, apart node member smaller, still node member smaller⟩
  links := by
    intro link isOld
    rw [← retains.links link isOld, cuts.links]
    exact ⟨fun left => left.1, fun member => ⟨member, kept link member isOld⟩⟩

/-- A node that is not beneath what goes is left. -/
theorem Prunes.mem_nodeIds
    (prunes : Prunes change gone before after)
    {node : Node}
    (member : node ∈ before.nodes)
    (apart : ∀ top, gone top → ¬ before.Beneath top node.id) :
    node.id ∈ after.nodeIds :=
  QueryGraph.mem_nodeIds.2 ⟨_, prunes.mem member apart, prunes.inPlace.id node⟩

/-- Links lead down. -/
theorem Grown.source_lt_target
    (grown : graph.Grown)
    {link : Link}
    (member : link ∈ graph.links) :
    link.source.value < link.target.value := by
  obtain ⟨target, targetMember, named, parent, _⟩ := grown.stems link member
  rw [← named]
  exact grown.toCoherent.parent_lt targetMember parent

/-- A relationship that leads to a new node takes no old one. -/
theorem Retains.removeLink
    (retains : Retains first (fun link => link.target.value < first) base before)
    (grown : before.Grown)
    {link : Link}
    (member : link ∈ before.links)
    (isRelation : link.isRelation = true)
    (newer : first ≤ link.target.value)
    (accepted : before.removeLink link.id = .ok after) :
    Retains first (fun link => link.target.value < first) base after := by
  have coherent := grown.toCoherent
  have prunes := grown.prunes_relation member isRelation accepted
  have apart : ∀ node ∈ before.nodes, node.id.value < first →
      ∀ top, top = link.target → ¬ before.Beneath top node.id := by
    rintro node _ smaller _ rfl beneath
    have above := coherent.le_of_beneath beneath
    omega
  have left : ∀ id ∈ before.nodeIds, id.value < first → id ∈ after.nodeIds := by
    intro id known smaller
    obtain ⟨node, nodeMember, rfl⟩ := QueryGraph.mem_nodeIds.1 known
    exact prunes.mem_nodeIds nodeMember (apart node nodeMember smaller)
  refine retains.prune prunes (Cuts.removeLink coherent accepted) (fun _ _ _ => rfl) apart ?_
  intro other otherMember isOld
  obtain ⟨hasSource, hasTarget⟩ := coherent.linkEnds other otherMember
  refine ⟨fun same => ?_,
    left _ hasSource (Nat.lt_trans (grown.source_lt_target otherMember) isOld),
    left _ hasTarget isOld⟩
  rw [coherent.eq_of_link_id_eq otherMember member same] at isOld
  omega

/-! ## Annexes -/

/-- The nodes with numbers from a bound on hang by terms below one of the others.
These, and the links that leave them, are those of another graph. -/
structure Annexed (first : Nat) (owner : NodeId) (base graph : QueryGraph) : Prop
    extends Retains first (fun link => link.source.value < first) base graph where
  fringe :
    ∀ node ∈ graph.nodes, first ≤ node.id.value →
      ∀ parent, node.parent = some parent → parent.value < first →
        parent = owner ∧ node.kind ≠ .value
  later : first ≤ graph.nextId

/-- No node from before bears a number. -/
def IsNew (first : Nat) (base : QueryGraph) (id : NodeId) : Prop :=
  ∀ node ∈ base.nodes, node.id = id → first ≤ id.value

namespace Annexed

theorem le_of_isNew
    (annexed : Annexed first owner base graph)
    {node : Node}
    (member : node ∈ graph.nodes)
    (isNew : IsNew first base node.id) :
    first ≤ node.id.value := by
  by_contra smaller
  exact smaller (isNew node ((annexed.nodes node (Nat.lt_of_not_le smaller)).1 member) rfl)

/-- A removal that only takes nodes below new ones. -/
theorem prune
    (annexed : Annexed first owner base before)
    (grown : before.Grown)
    (prunes : Prunes change gone before after)
    (cuts : Cuts dropped before after)
    (still : ∀ node ∈ before.nodes, node.id.value < first → change node = node)
    (tops :
      ∀ top, gone top →
        ∃ node ∈ before.nodes, node.id = top ∧
          ∃ parent, node.parent = some parent ∧ first ≤ parent.value)
    (drops : ∀ link ∈ before.links, dropped link → first ≤ link.source.value) :
    Annexed first owner base after := by
  have coherent := grown.toCoherent
  -- Neither old nodes nor their children are beneath what goes.
  have apart : ∀ node ∈ before.nodes,
      (∀ parent, node.parent = some parent → parent.value < first) →
        ∀ top, gone top → ¬ before.Beneath top node.id := by
    intro node member oldParent top isGone beneath
    obtain ⟨highest, highestMember, rfl, parent, isParent, newer⟩ := tops top isGone
    have below := coherent.parent_lt highestMember isParent
    rcases (coherent.beneath_node_iff member).1 beneath with named | ⟨above, isAbove, beneathAbove⟩
    · have same := coherent.eq_of_id_eq member highestMember named
      have older := oldParent parent (same ▸ isParent)
      omega
    · have older := oldParent above isAbove
      have higher := coherent.le_of_beneath beneathAbove
      omega
  have oldParent : ∀ node ∈ before.nodes, node.id.value < first →
      ∀ parent, node.parent = some parent → parent.value < first := by
    intro node member smaller parent isParent
    exact Nat.lt_trans (coherent.parent_lt member isParent) smaller
  refine ⟨annexed.toRetains.prune prunes cuts still
    (fun node member smaller => apart node member (oldParent node member smaller)) ?_, ?_, ?_⟩
  · intro link member isOld
    obtain ⟨source, sourceMember, sourceNamed⟩ :=
      QueryGraph.mem_nodeIds.1 (coherent.linkEnds link member).1
    obtain ⟨target, targetMember, targetNamed, isParent, _⟩ := grown.stems link member
    refine ⟨fun isDropped => Nat.not_lt.2 (drops link member isDropped) isOld, ?_, ?_⟩
    · rw [← sourceNamed] at isOld ⊢
      exact prunes.mem_nodeIds sourceMember
        (apart source sourceMember (oldParent source sourceMember isOld))
    · rw [← targetNamed]
      refine prunes.mem_nodeIds targetMember (apart target targetMember ?_)
      intro parent isOther
      rw [isParent] at isOther
      injection isOther with same
      exact same ▸ isOld
  · intro node member newer parent isParent older
    obtain ⟨former, formerMember, _, rfl⟩ := (prunes.nodes node).1 member
    rw [prunes.inPlace.id] at newer
    rw [prunes.inPlace.parent] at isParent
    rw [prunes.inPlace.kind]
    exact annexed.fringe former formerMember newer parent isParent older
  · rw [prunes.nextId]
    exact annexed.later

/-- A new node below a new one, with the link that leads to it. -/
theorem append
    (annexed : Annexed first owner base before)
    {made : Node}
    {link : Link}
    (nodes : after.nodes = before.nodes ++ [made])
    (links : after.links = before.links ++ [link])
    (counted : before.nextId ≤ after.nextId)
    (numbered : made.id.value = before.nextId)
    (parent : made.parent = some link.source)
    (newer : first ≤ link.source.value) :
    Annexed first owner base after := by
  have later := annexed.later
  refine ⟨⟨?_, ?_⟩, ?_, Nat.le_trans later counted⟩
  · intro node smaller
    rw [← annexed.nodes node smaller, nodes, List.mem_append, List.mem_singleton]
    refine or_iff_left ?_
    rintro rfl
    omega
  · intro other isOld
    rw [← annexed.links other isOld, links, List.mem_append, List.mem_singleton]
    refine or_iff_left ?_
    rintro rfl
    omega
  · intro node member isNew above isAbove older
    rw [nodes] at member
    rcases List.mem_append.1 member with was | new
    · exact annexed.fringe node was isNew above isAbove older
    · rw [List.mem_singleton.1 new, parent] at isAbove
      injection isAbove with same
      rw [← same] at older
      omega

/-- The links that lead to old nodes leave old nodes. -/
theorem retains
    (annexed : Annexed first owner base graph)
    (grown : graph.Grown)
    (baseGrown : base.Grown) :
    Retains first (fun link => link.target.value < first) base graph where
  nodes := annexed.nodes
  links := by
    intro link smaller
    constructor
    · intro member
      exact (annexed.links link (Nat.lt_trans (grown.source_lt_target member) smaller)).1 member
    · intro member
      exact (annexed.links link (Nat.lt_trans (baseGrown.source_lt_target member) smaller)).2 member

/-! ## Moves -/

theorem modifyNode
    (annexed : Annexed first owner base graph)
    (grown : graph.Grown)
    (inPlace : Node.InPlace change)
    (isNew : ∀ node ∈ graph.nodes, node.id = id → first ≤ node.id.value) :
    Annexed first owner base (graph.modifyNode id change) := by
  refine annexed.prune grown (prunes_modifyNode inPlace id graph)
    (Cuts.modifyNode grown.toCoherent inPlace id) ?_ (fun _ => False.elim) fun _ _ => False.elim
  intro node member smaller
  refine if_neg fun named => ?_
  have newer := isNew node member named
  omega

theorem removeValues
    (annexed : Annexed first owner base before)
    (grown : before.Grown)
    {lister : Node}
    (member : lister ∈ before.nodes)
    (newer : first ≤ lister.id.value)
    {count : Nat}
    (accepted : before.removeValues lister.id = .ok (count, after)) :
    Annexed first owner base after := by
  refine annexed.prune grown (grown.prunes_removeValues member accepted).1
    (Cuts.removeValues grown.toCoherent member accepted) ?_ ?_ ?_
  · intro node _ smaller
    refine if_neg fun named => ?_
    rw [named] at smaller
    omega
  · rintro top ⟨_, value, valueMember, named, _, parent⟩
    exact ⟨value, valueMember, named, lister.id, parent, newer⟩
  · rintro link _ ⟨listed, _⟩
    obtain ⟨_, leaves⟩ := List.mem_filter.1 listed
    simp only [Bool.and_eq_true, decide_eq_true_eq] at leaves
    rw [leaves.1]
    exact newer

/-- A node that is bound to another value, or to none. -/
theorem rebind
    (annexed : Annexed first owner base before)
    (grown : before.Grown)
    {holder : Node}
    (member : holder ∈ before.nodes)
    (newer : first ≤ holder.id.value)
    {choice : Option NodeId}
    (prunes :
      Prunes (fun node => if node.id = holder.id then { node with value := choice } else node)
        gone before after)
    (bound : ∀ top, gone top → holder.value = some top)
    (cuts : Cuts (fun _ => False) before after) :
    Annexed first owner base after := by
  refine annexed.prune grown prunes cuts ?_ ?_ fun _ _ => False.elim
  · intro node _ smaller
    refine if_neg fun named => ?_
    rw [named] at smaller
    omega
  · intro top isGone
    obtain ⟨value, valueMember, named, _, parent⟩ :=
      grown.toCoherent.boundBelow holder member top (bound top isGone)
    exact ⟨value, valueMember, named, holder.id, parent, newer⟩

theorem bindValue
    (annexed : Annexed first owner base before)
    (grown : before.Grown)
    {holder : Node}
    (member : holder ∈ before.nodes)
    (newer : first ≤ holder.id.value)
    {value : NodeId}
    (accepted : before.bindValue holder.id value = .ok after) :
    Annexed first owner base after :=
  annexed.rebind grown member newer (grown.prunes_bindValue member accepted)
    (fun _ isGone => isGone.1) (Cuts.bindValue grown.toCoherent accepted)

theorem clearValue
    (annexed : Annexed first owner base before)
    (grown : before.Grown)
    (isNew : IsNew first base id)
    {cleared : Bool}
    (accepted : before.clearValue id = .ok (cleared, after)) :
    Annexed first owner base after := by
  have cuts := Cuts.clearValue grown.toCoherent accepted
  rcases grown.toCoherent.clearValue_rebinds accepted with rfl | ⟨holder, member, rfl, _, rfl⟩
  · exact annexed
  · exact annexed.rebind grown member (annexed.le_of_isNew member isNew)
      (grown.prunes_rebind member none (by simp)) (fun _ isGone => isGone.1) cuts

theorem removeLink
    (annexed : Annexed first owner base before)
    (grown : before.Grown)
    {link : Link}
    (member : link ∈ before.links)
    (isRelation : link.isRelation = true)
    (newer : first ≤ link.source.value)
    (accepted : before.removeLink link.id = .ok after) :
    Annexed first owner base after := by
  have coherent := grown.toCoherent
  refine annexed.prune grown (grown.prunes_relation member isRelation accepted)
    (Cuts.removeLink coherent accepted) (fun _ _ _ => rfl) ?_ ?_
  · rintro top rfl
    obtain ⟨target, targetMember, named, parent, _⟩ := grown.exists_term member isRelation
    exact ⟨target, targetMember, named, link.source, parent, newer⟩
  · intro other otherMember same
    rw [coherent.eq_of_link_id_eq otherMember member same]
    exact newer

theorem addRelationship
    (annexed : Annexed first owner base before)
    {parent child : NodeId}
    (isNew : IsNew first base parent)
    {relationship label : String}
    {isGroup : Bool}
    (accepted :
      before.addRelationship parent relationship label isGroup = .ok (child, after)) :
    Annexed first owner base after := by
  obtain ⟨between, link, added, linked⟩ := addRelationship_ok accepted
  obtain ⟨⟨holder, member, rfl⟩, rfl, rfl⟩ := addNode_ok added
  obtain ⟨_, _, rfl⟩ := addLink_ok linked
  exact annexed.append rfl rfl (Nat.le_add_right _ 2) rfl rfl (annexed.le_of_isNew member isNew)

/-- Values listed below a new node. -/
theorem withRows
    (annexed : Annexed first owner base graph)
    {lister : Node}
    (newer : first ≤ lister.id.value)
    (rows : List Row) :
    Annexed first owner base (graph.withRows lister rows) := by
  induction rows generalizing graph with
  | nil => exact annexed
  | cons row rest inductionHypothesis =>
      exact inductionHypothesis
        (annexed.append rfl rfl (Nat.le_add_right _ _) rfl rfl newer)

theorem withShown
    (annexed : Annexed first owner base graph)
    (grown : graph.Grown)
    {lister : Node}
    (member : lister ∈ graph.nodes)
    (newer : first ≤ lister.id.value)
    {rows : List Row}
    (lists : rows = [] ∨ lister.kind.listsValues = true) :
    Annexed first owner base (graph.withShown lister rows) := by
  refine (annexed.withRows newer rows).modifyNode (grown.withRows member rows lists)
    (Node.InPlace.setValueExpanded true) ?_
  intro node _ named
  rwa [named]

end Annexed

end QueryGraph
end VisualQuery
