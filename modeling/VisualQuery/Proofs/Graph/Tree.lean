import VisualQuery.Proofs.Graph.Entrance

/-!
# Trees of relationships

The relationships of a graph form a tree over its terms when each leads from a
term to one expanded from it and every term except the root is entered by
exactly one.  Every edit keeps a tree, apart from bare nodes, bare links and
relationships that start at a value.
-/

namespace VisualQuery
namespace QueryGraph

variable {graph : QueryGraph}

/-- Relationships lead from terms to terms expanded from them, to each at most
one. -/
structure Branching (graph : QueryGraph) : Prop where
  source : ∀ link ∈ graph.links, link.isRelation = true → graph.IsTerm link.source
  target :
    ∀ link ∈ graph.links, link.isRelation = true →
      ∃ node ∈ graph.nodes,
        node.id = link.target ∧ node.kind ≠ .value ∧ node.parent = some link.source
  once :
    ∀ left ∈ graph.links, ∀ right ∈ graph.links,
      left.isRelation = true → right.isRelation = true →
        left.target = right.target → left = right

/-- A coherent graph whose relationships form a tree over its terms. -/
structure Tree (graph : QueryGraph) : Prop extends Coherent graph, Branching graph where
  entered :
    ∀ node ∈ graph.nodes, node.kind ≠ .value → node.kind ≠ .root → graph.Entered node.id

/-- Moves from a tree leave its terms entered. -/
theorem Tree.entered_of_moved
    (tree : graph.Tree)
    {after : QueryGraph}
    (moved : Moved graph after) :
    after.TermsEntered :=
  moved.termsEntered tree.toCoherent tree.entered

theorem tree_empty : Tree empty := by
  refine ⟨coherent_empty, ?_, ?_⟩
  · constructor <;> simp [empty]
  · simp [empty]

/-- Only nodes, links and the counter matter. -/
theorem Tree.congr
    (tree : graph.Tree)
    {other : QueryGraph}
    (nodes : other.nodes = graph.nodes)
    (links : other.links = graph.links)
    (nextId : other.nextId = graph.nextId) :
    other.Tree := by
  obtain ⟨_, _, _, names⟩ := other
  subst nodes links nextId
  exact ⟨tree.toCoherent.congr rfl rfl rfl, ⟨tree.source, tree.target, tree.once⟩,
    tree.entered⟩

/-! ## Adding -/

theorem Tree.addRoot
    {label : String}
    {id : NodeId}
    {after : QueryGraph}
    (wellFormed : after.WellFormed)
    (unlinked : graph.links = [])
    (accepted : graph.addRoot label = .ok (id, after)) :
    after.Tree := by
  obtain ⟨empty, pushed⟩ := addRoot_ok accepted
  rw [pushRoot_eq, empty, unlinked] at pushed
  injection pushed with _ after_eq
  subst after_eq
  refine ⟨wellFormed.toCoherent, ?_, ?_⟩
  · constructor <;> simp
  · intro node member _ notRoot
    rw [List.nil_append, List.mem_singleton] at member
    rw [member] at notRoot
    exact absurd rfl notRoot

/-- A relationship enters the term made for it, and nothing entered it before. -/
theorem Tree.addRelationship
    (tree : graph.Tree)
    {parent child : NodeId}
    {relationship label : String}
    {isGroup : Bool}
    {after : QueryGraph}
    (wellFormed : after.WellFormed)
    (isTerm : graph.IsTerm parent)
    (accepted :
      graph.addRelationship parent relationship label isGroup = .ok (child, after)) :
    after.Tree := by
  have entered := tree.entered_of_moved (Moved.addRelationship wellFormed accepted)
  obtain ⟨between, link, added, linked⟩ := addRelationship_ok accepted
  obtain ⟨_, rfl, rfl⟩ := addNode_ok added
  obtain ⟨_, _, rfl⟩ := addLink_ok linked
  have fresh : ∀ old ∈ graph.links, old.target ≠ ⟨graph.nextId⟩ := by
    intro old member same
    obtain ⟨node, nodeMember, named⟩ := mem_nodeIds.1 (tree.linkEnds old member).2
    have below := tree.nodesBelow node nodeMember
    rw [named, same] at below
    exact absurd below (Nat.lt_irrefl _)
  refine ⟨wellFormed.toCoherent, ⟨?_, ?_, ?_⟩, entered⟩
  · intro edge member isRelation
    rcases List.mem_append.1 member with old | new
    · exact (tree.source edge old isRelation).append rfl
    · rw [List.mem_singleton] at new
      rw [new]
      exact isTerm.append rfl
  · intro edge member isRelation
    rcases List.mem_append.1 member with old | new
    · obtain ⟨node, nodeMember, holds⟩ := tree.target edge old isRelation
      exact ⟨node, List.mem_append_left _ nodeMember, holds⟩
    · rw [List.mem_singleton] at new
      subst new
      exact ⟨_, List.mem_append_right _ (List.mem_singleton_self _), rfl,
        kind_freshTerm_ne_value _ _ _, rfl⟩
  · intro left leftMember right rightMember leftRelation rightRelation same
    rcases List.mem_append.1 leftMember with leftOld | leftNew <;>
      rcases List.mem_append.1 rightMember with rightOld | rightNew
    · exact tree.once left leftOld right rightOld leftRelation rightRelation same
    · rw [List.mem_singleton] at rightNew
      subst rightNew
      exact absurd same (fresh left leftOld)
    · rw [List.mem_singleton] at leftNew
      subst leftNew
      exact absurd same.symm (fresh right rightOld)
    · rw [List.mem_singleton] at leftNew rightNew
      rw [leftNew, rightNew]

theorem Tree.addValue
    (tree : graph.Tree)
    {parent value : NodeId}
    {attributes : Row}
    {after : QueryGraph}
    (wellFormed : after.WellFormed)
    (accepted : graph.addValue parent attributes = .ok (value, after)) :
    after.Tree := by
  have entered := tree.entered_of_moved (Moved.addValue wellFormed accepted)
  obtain ⟨owner, _, link, _, _, _, linked⟩ := addValue_ok accepted
  obtain ⟨_, _, rfl⟩ := addLink_ok linked
  have relation_old {edge : Link} {made : LinkId}
      (member : edge ∈ graph.links ++ [⟨made, .value, parent, value, none⟩])
      (isRelation : edge.isRelation = true) :
      edge ∈ graph.links := by
    rcases List.mem_append.1 member with old | new
    · exact old
    · rw [List.mem_singleton] at new
      rw [new] at isRelation
      simp [Link.isRelation] at isRelation
  refine ⟨wellFormed.toCoherent, ⟨?_, ?_, ?_⟩, entered⟩
  · intro edge member isRelation
    exact (tree.source edge (relation_old member isRelation) isRelation).append rfl
  · intro edge member isRelation
    obtain ⟨node, nodeMember, holds⟩ :=
      tree.target edge (relation_old member isRelation) isRelation
    exact ⟨node, List.mem_append_left _ nodeMember, holds⟩
  · intro left leftMember right rightMember leftRelation rightRelation same
    exact tree.once left (relation_old leftMember leftRelation) right
      (relation_old rightMember rightRelation) leftRelation rightRelation same

/-! ## Changing and removing -/

/-- A change in place moves no link. -/
theorem Tree.mapNodes
    (tree : graph.Tree)
    {change : Node → Node}
    (inPlace : Node.InPlace change)
    (coherent : (graph.mapNodes change).Coherent) :
    (graph.mapNodes change).Tree := by
  have moved : Moved graph (graph.mapNodes change) :=
    Moved.single (.change inPlace rfl rfl) coherent
  refine ⟨coherent, ⟨?_, ?_, tree.once⟩, tree.entered_of_moved moved⟩
  · intro link member isRelation
    obtain ⟨node, nodeMember, named, kind⟩ := tree.source link member isRelation
    refine ⟨change node, mem_mapNodes.2 ⟨node, nodeMember, rfl⟩, ?_⟩
    rw [inPlace.id, inPlace.kind]
    exact ⟨named, kind⟩
  · intro link member isRelation
    obtain ⟨node, nodeMember, holds⟩ := tree.target link member isRelation
    refine ⟨change node, mem_mapNodes.2 ⟨node, nodeMember, rfl⟩, ?_⟩
    rw [inPlace.id, inPlace.kind, inPlace.parent]
    exact holds

theorem Tree.modifyNode
    (tree : graph.Tree)
    {id : NodeId}
    {change : Node → Node}
    (inPlace : Node.InPlace change)
    (coherent : (graph.modifyNode id change).Coherent) :
    (graph.modifyNode id change).Tree := by
  rw [modifyNode_eq_mapNodes] at coherent ⊢
  exact tree.mapNodes (inPlace.ite _) coherent

/-- Dropping nodes keeps the ends of the links that stay. -/
theorem Branching.dropNodes
    (branching : graph.Branching)
    (removed : List NodeId) :
    (graph.dropNodes removed).Branching where
  source := by
    intro link member isRelation
    obtain ⟨linkMember, sourceKept, _⟩ := mem_dropNodes_links.1 member
    obtain ⟨node, nodeMember, named, kind⟩ := branching.source link linkMember isRelation
    refine ⟨node.release removed, mem_dropNodes.2 ⟨node, nodeMember, named ▸ sourceKept, rfl⟩, ?_⟩
    rw [(Node.release_inPlace removed).id, (Node.release_inPlace removed).kind]
    exact ⟨named, kind⟩
  target := by
    intro link member isRelation
    obtain ⟨linkMember, _, targetKept⟩ := mem_dropNodes_links.1 member
    obtain ⟨node, nodeMember, named, holds⟩ := branching.target link linkMember isRelation
    refine ⟨node.release removed, mem_dropNodes.2 ⟨node, nodeMember, named ▸ targetKept, rfl⟩, ?_⟩
    rw [(Node.release_inPlace removed).id, (Node.release_inPlace removed).kind,
      (Node.release_inPlace removed).parent]
    exact ⟨named, holds⟩
  once := by
    intro left leftMember right rightMember
    exact branching.once left (mem_dropNodes_links.1 leftMember).1 right
      (mem_dropNodes_links.1 rightMember).1

theorem Tree.removeSubtree
    (tree : graph.Tree)
    (id : NodeId) :
    (graph.removeSubtree id).Tree :=
  ⟨tree.toCoherent.removeSubtree id, tree.toBranching.dropNodes _,
    tree.entered_of_moved (Moved.removeSubtree tree.toCoherent id)⟩

theorem Tree.dropDetached
    (tree : graph.Tree)
    (id : NodeId) :
    (graph.dropDetached id).Tree := by
  unfold QueryGraph.dropDetached
  split
  · exact tree
  · exact tree.removeSubtree id

theorem Tree.dropPrevious
    (tree : graph.Tree)
    (value : NodeId)
    (previous : Option NodeId) :
    (graph.dropPrevious value previous).Tree := by
  unfold QueryGraph.dropPrevious
  split
  · split
    · exact tree
    · exact tree.dropDetached _
  · exact tree

theorem Branching.dropLink
    (branching : graph.Branching)
    (id : LinkId) :
    (graph.dropLink id).Branching where
  source := by
    intro link member
    exact branching.source link (mem_dropLink.1 member).1
  target := by
    intro link member
    exact branching.target link (mem_dropLink.1 member).1
  once := by
    intro left leftMember right rightMember
    exact branching.once left (mem_dropLink.1 leftMember).1 right (mem_dropLink.1 rightMember).1

theorem Tree.removeLink
    (tree : graph.Tree)
    {id : LinkId}
    {after : QueryGraph}
    (accepted : graph.removeLink id = .ok after) :
    after.Tree := by
  have entered := tree.entered_of_moved (Moved.removeLink tree.toCoherent accepted)
  obtain ⟨link, member, rfl, rfl⟩ := removeLink_ok accepted
  exact ⟨(tree.toCoherent.dropLink link.id).removeSubtree link.target,
    (tree.toBranching.dropLink link.id).dropNodes _, entered⟩

/-- A value that loses its place in a listing leaves the tree alone. -/
theorem Tree.removeListed
    (tree : graph.Tree)
    (bound : Option NodeId)
    {link : Link}
    (isValue : ∀ other ∈ graph.links, other.id = link.id → other.isRelation = false) :
    (graph.removeListed bound link).Tree := by
  unfold QueryGraph.removeListed
  split
  · have unlisted := tree.toCoherent.dropLink link.id
    exact ⟨unlisted, tree.toBranching.dropLink link.id,
      tree.entered_of_moved (Moved.single (.unlist isValue) unlisted)⟩
  · exact tree.removeSubtree link.target

theorem Tree.foldl_removeListed
    (tree : graph.Tree)
    (start : QueryGraph)
    (bound : Option NodeId)
    (listed : List Link)
    (isValue :
      ∀ link ∈ listed, ∀ other ∈ start.links, other.id = link.id → other.isRelation = false)
    (links : ∀ link ∈ graph.links, link ∈ start.links) :
    (listed.foldl (QueryGraph.removeListed bound) graph).Tree := by
  induction listed generalizing graph with
  | nil => exact tree
  | cons link rest inductionHypothesis =>
      apply inductionHypothesis
      · apply tree.removeListed bound
        intro other member same
        exact isValue link List.mem_cons_self other (links other member) same
      · intro later member
        exact isValue later (List.mem_cons_of_mem _ member)
      · intro other member
        exact links other (links_removeListed bound link other member)

theorem Tree.removeValues
    (tree : graph.Tree)
    {id : NodeId}
    {count : Nat}
    {after : QueryGraph}
    (wellFormed : after.WellFormed)
    (accepted : graph.removeValues id = .ok (count, after)) :
    after.Tree := by
  obtain ⟨node, _, _, rfl⟩ := removeValues_ok accepted
  apply Tree.modifyNode ?_ (Node.InPlace.setValueExpanded false) wellFormed.toCoherent
  apply tree.foldl_removeListed graph
  · intro link listed other member same
    exact tree.toCoherent.isRelation_of_mem_valueLinks listed member same
  · intro link member
    exact member

end QueryGraph
end VisualQuery
