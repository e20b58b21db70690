import VisualQuery.Proofs.Graph.Addition
import VisualQuery.Proofs.Graph.Cascade
import VisualQuery.Proofs.Graph.Edit
import VisualQuery.Proofs.Graph.Outcome

/-!
# Well-formed graphs

A well-formed graph is coherent and has no orphaned values: every value is
bound to the node it hangs below, or some link leads to it.  Every edit keeps a
graph well-formed, so every sequence of edits builds well-formed graphs.

Inside an edit one value may be loose for a moment, after its binding or its
link went away; the removal or the test that follows settles it.
-/

namespace VisualQuery
namespace QueryGraph

variable {graph : QueryGraph}

/-- A value is bound to the node it hangs below. -/
def Held (graph : QueryGraph) (value : Node) : Prop :=
  ∃ owner ∈ graph.nodes, value.parent = some owner.id ∧ owner.value = some value.id

/-- A value is bound to the node it hangs below, or a link leads to it. -/
def Anchored (graph : QueryGraph) (value : Node) : Prop :=
  graph.Held value ∨ ∃ link ∈ graph.links, link.target = value.id

/-- A coherent graph without orphaned values. -/
structure WellFormed (graph : QueryGraph) : Prop extends Coherent graph where
  anchored : ∀ value ∈ graph.nodes, value.kind = .value → graph.Anchored value

/-- All values are anchored except perhaps one. -/
def AnchoredBut (graph : QueryGraph) (loose : NodeId) : Prop :=
  ∀ value ∈ graph.nodes, value.kind = .value → value.id = loose ∨ graph.Anchored value

theorem wellFormed_empty : WellFormed empty :=
  ⟨coherent_empty, by simp [empty]⟩

/-! ## Anchors in larger graphs -/

theorem Held.mono
    {value : Node}
    (held : graph.Held value)
    {larger : QueryGraph}
    (nodes : ∀ node ∈ graph.nodes, node ∈ larger.nodes) :
    larger.Held value := by
  obtain ⟨owner, member, parent, bound⟩ := held
  exact ⟨owner, nodes owner member, parent, bound⟩

theorem Anchored.mono
    {value : Node}
    (anchored : graph.Anchored value)
    {larger : QueryGraph}
    (nodes : ∀ node ∈ graph.nodes, node ∈ larger.nodes)
    (links : ∀ link ∈ graph.links, link ∈ larger.links) :
    larger.Anchored value := by
  rcases anchored with held | ⟨link, member, target⟩
  · exact Or.inl (held.mono nodes)
  · exact Or.inr ⟨link, links link member, target⟩

theorem WellFormed.congr
    (wellFormed : graph.WellFormed)
    {other : QueryGraph}
    (nodes : other.nodes = graph.nodes)
    (links : other.links = graph.links)
    (nextId : other.nextId = graph.nextId) :
    other.WellFormed := by
  refine ⟨wellFormed.toCoherent.congr nodes links nextId, ?_⟩
  intro value member isValue
  rw [nodes] at member
  exact (wellFormed.anchored value member isValue).mono (by simp [nodes]) (by simp [links])

/-! ## Adding -/

theorem WellFormed.pushRoot
    (wellFormed : graph.WellFormed)
    (empty : graph.nodes = [])
    (label : String) :
    (graph.pushRoot label).2.WellFormed := by
  have numbered := wellFormed.freshWhenEmpty empty
  have unlinked := wellFormed.toCoherent.links_eq_nil empty
  rw [pushRoot_eq, empty, unlinked, numbered]
  refine ⟨?_, ?_⟩
  · apply Coherent.singleRoot rfl ?_ rfl rfl
    rw [freshRoot, numbered]
  · intro value member isValue
    rw [List.nil_append, List.mem_singleton] at member
    rw [member] at isValue
    cases isValue

theorem WellFormed.addRoot
    (wellFormed : graph.WellFormed)
    {label : String}
    {id : NodeId}
    {after : QueryGraph}
    (accepted : graph.addRoot label = .ok (id, after)) :
    after.WellFormed := by
  obtain ⟨empty, pushed⟩ := addRoot_ok accepted
  have pushedWellFormed := wellFormed.pushRoot empty label
  rw [pushed] at pushedWellFormed
  exact pushedWellFormed

theorem WellFormed.addNode
    (wellFormed : graph.WellFormed)
    {parent id : NodeId}
    {label : String}
    {isGroup : Bool}
    {after : QueryGraph}
    (accepted : graph.addNode parent label isGroup = .ok (id, after)) :
    after.WellFormed := by
  obtain ⟨⟨owner, member, named⟩, _, rfl⟩ := addNode_ok accepted
  have notRoot : (graph.freshTerm parent label isGroup).kind ≠ .root := by
    cases isGroup <;> simp [freshTerm]
  have isTerm : (graph.freshTerm parent label isGroup).kind ≠ .value :=
    kind_freshTerm_ne_value _ _ _
  refine ⟨?_, ?_⟩
  · have grown := wellFormed.toCoherent.appendNode
      (graph.freshTerm parent label isGroup) rfl notRoot rfl member
      (by rw [named]; rfl) (fun isValue => absurd isValue isTerm)
    exact grown.congr rfl rfl rfl
  · intro value valueMember isValue
    rcases List.mem_append.1 valueMember with old | new
    · apply (wellFormed.anchored value old isValue).mono
      · intro node nodeMember
        exact List.mem_append_left _ nodeMember
      · intro link linkMember
        exact linkMember
    · rw [List.mem_singleton] at new
      subst new
      exact absurd isValue isTerm

theorem WellFormed.addLink
    (wellFormed : graph.WellFormed)
    {source target : NodeId}
    {kind : LinkKind}
    {label : Option String}
    {id : LinkId}
    {after : QueryGraph}
    (accepted : graph.addLink source target kind label = .ok (id, after)) :
    after.WellFormed := by
  obtain ⟨sourceMember, targetMember, rfl⟩ := addLink_ok accepted
  refine ⟨wellFormed.toCoherent.appendLink rfl sourceMember targetMember, ?_⟩
  intro value member isValue
  apply (wellFormed.anchored value member isValue).mono
  · intro node nodeMember
    exact nodeMember
  · intro link linkMember
    exact List.mem_append_left _ linkMember

theorem WellFormed.addRelationship
    (wellFormed : graph.WellFormed)
    {parent child : NodeId}
    {relationship label : String}
    {isGroup : Bool}
    {after : QueryGraph}
    (accepted :
      graph.addRelationship parent relationship label isGroup = .ok (child, after)) :
    after.WellFormed := by
  obtain ⟨between, link, added, linked⟩ := addRelationship_ok accepted
  exact (wellFormed.addNode added).addLink linked

theorem WellFormed.addValue
    (wellFormed : graph.WellFormed)
    {parent value : NodeId}
    {attributes : Row}
    {after : QueryGraph}
    (accepted : graph.addValue parent attributes = .ok (value, after)) :
    after.WellFormed := by
  obtain ⟨owner, member, link, named, lists, rfl, linked⟩ := addValue_ok accepted
  have grown := wellFormed.toCoherent.appendNode (graph.freshValue owner attributes)
    rfl (by simp [freshValue]) rfl member rfl (fun _ => lists)
  obtain ⟨sourceMember, targetMember, rfl⟩ := addLink_ok linked
  refine ⟨grown.appendLink rfl sourceMember targetMember, ?_⟩
  intro candidate candidateMember isValue
  rcases List.mem_append.1 candidateMember with old | new
  · apply (wellFormed.anchored candidate old isValue).mono
    · intro node nodeMember
      exact List.mem_append_left _ nodeMember
    · intro link linkMember
      exact List.mem_append_left _ linkMember
  · rw [List.mem_singleton] at new
    subst new
    exact Or.inr ⟨_, List.mem_append_right _ (List.mem_singleton_self _), rfl⟩

/-! ## Removing -/

/-- A kept value stays bound to the node it hangs below. -/
theorem Held.dropNodes
    (coherent : graph.Coherent)
    {removed : List NodeId}
    (closed : graph.Closed removed)
    {value : Node}
    (held : graph.Held value)
    (member : value ∈ graph.nodes)
    (isValue : value.kind = .value)
    (kept : value.id ∉ removed) :
    (graph.dropNodes removed).Held (value.release removed) := by
  obtain ⟨owner, ownerMember, parent, bound⟩ := held
  have ownerKept := coherent.parent_kept closed member kept parent (by simp [isValue])
  refine ⟨owner.release removed, mem_dropNodes.2 ⟨owner, ownerMember, ownerKept, rfl⟩, ?_⟩
  have inPlace := Node.release_inPlace removed
  rw [inPlace.parent, inPlace.id, inPlace.id]
  exact ⟨parent, Node.release_value_eq_some_iff.2 ⟨bound, kept⟩⟩

/-- A kept value stays anchored. -/
theorem Anchored.dropNodes
    (coherent : graph.Coherent)
    {removed : List NodeId}
    (closed : graph.Closed removed)
    {value : Node}
    (anchored : graph.Anchored value)
    (member : value ∈ graph.nodes)
    (isValue : value.kind = .value)
    (kept : value.id ∉ removed) :
    (graph.dropNodes removed).Anchored (value.release removed) := by
  rcases anchored with held | ⟨link, linkMember, target⟩
  · exact Or.inl (held.dropNodes coherent closed member isValue kept)
  · refine Or.inr ⟨link, ?_, ?_⟩
    · exact coherent.link_kept closed member kept linkMember target (by simp [isValue])
    · rw [(Node.release_inPlace removed).id]
      exact target

/-- Removing what hangs from the only loose value leaves no orphan. -/
theorem Coherent.wellFormed_removeSubtree
    (coherent : graph.Coherent)
    {id : NodeId}
    (anchored : graph.AnchoredBut id) :
    (graph.removeSubtree id).WellFormed := by
  have closed := reached_closed graph id
  refine ⟨coherent.removeSubtree id, ?_⟩
  intro value member isValue
  obtain ⟨old, oldMember, kept, rfl⟩ := mem_dropNodes.1 member
  rw [(Node.release_inPlace _).kind] at isValue
  rcases anchored old oldMember isValue with rfl | isAnchored
  · exfalso
    apply kept
    apply mem_reached_of_mem_stack List.mem_cons_self
    exact (coherent.isRemovable_iff oldMember).2 (by simp [isValue])
  · exact isAnchored.dropNodes coherent closed oldMember isValue kept

theorem WellFormed.anchoredBut
    (wellFormed : graph.WellFormed)
    (loose : NodeId) :
    graph.AnchoredBut loose := by
  intro value member isValue
  exact Or.inr (wellFormed.anchored value member isValue)

theorem WellFormed.removeSubtree
    (wellFormed : graph.WellFormed)
    (id : NodeId) :
    (graph.removeSubtree id).WellFormed :=
  wellFormed.toCoherent.wellFormed_removeSubtree (wellFormed.anchoredBut id)

/-- A loose value is dropped unless a link leads to it. -/
theorem Coherent.wellFormed_dropDetached
    (coherent : graph.Coherent)
    {id : NodeId}
    (anchored : graph.AnchoredBut id) :
    (graph.dropDetached id).WellFormed := by
  unfold dropDetached
  split
  · rename_i isTarget
    refine ⟨coherent, ?_⟩
    intro value member isValue
    rcases anchored value member isValue with rfl | isAnchored
    · obtain ⟨link, linkMember, target⟩ := List.any_eq_true.1 isTarget
      exact Or.inr ⟨link, linkMember, by simpa using target⟩
    · exact isAnchored
  · exact coherent.wellFormed_removeSubtree anchored

theorem WellFormed.removeNode
    (wellFormed : graph.WellFormed)
    {id : NodeId}
    {after : QueryGraph}
    (accepted : graph.removeNode id = .ok after) :
    after.WellFormed := by
  obtain ⟨_, _, _, _, rfl⟩ := removeNode_ok accepted
  exact wellFormed.removeSubtree id

theorem mem_dropLink
    {id : LinkId}
    {link : Link} :
    link ∈ (graph.dropLink id).links ↔ link ∈ graph.links ∧ link.id ≠ id := by
  simp [dropLink]

theorem Coherent.dropLink
    (coherent : graph.Coherent)
    (id : LinkId) :
    (graph.dropLink id).Coherent where
  nodesOrdered := coherent.nodesOrdered
  linksOrdered := coherent.linksOrdered.sublist List.filter_sublist
  nodesBelow := coherent.nodesBelow
  linksBelow := by
    intro link member
    exact coherent.linksBelow link (mem_dropLink.1 member).1
  numbersDisjoint := by
    intro node nodeMember link member
    exact coherent.numbersDisjoint node nodeMember link (mem_dropLink.1 member).1
  freshWhenEmpty := coherent.freshWhenEmpty
  rootFirst := coherent.rootFirst
  parentEarlier := coherent.parentEarlier
  linkEnds := by
    intro link member
    exact coherent.linkEnds link (mem_dropLink.1 member).1
  boundBelow := coherent.boundBelow
  valueOwner := coherent.valueOwner

/-- Dropping a link makes at most its target loose. -/
theorem WellFormed.anchoredBut_dropLink
    (wellFormed : graph.WellFormed)
    {link : Link}
    (member : link ∈ graph.links) :
    (graph.dropLink link.id).AnchoredBut link.target := by
  intro value valueMember isValue
  rcases wellFormed.anchored value valueMember isValue with held | ⟨other, otherMember, target⟩
  · exact Or.inr (Or.inl (held.mono fun _ nodeMember => nodeMember))
  · by_cases same : other.id = link.id
    · have equal := wellFormed.toCoherent.eq_of_link_id_eq otherMember member same
      exact Or.inl (by rw [← target, equal])
    · exact Or.inr (Or.inr ⟨other, mem_dropLink.2 ⟨otherMember, same⟩, target⟩)

theorem WellFormed.removeLink
    (wellFormed : graph.WellFormed)
    {id : LinkId}
    {after : QueryGraph}
    (accepted : graph.removeLink id = .ok after) :
    after.WellFormed := by
  obtain ⟨link, member, rfl, rfl⟩ := removeLink_ok accepted
  exact (wellFormed.toCoherent.dropLink link.id).wellFormed_removeSubtree
    (wellFormed.anchoredBut_dropLink member)

end QueryGraph
end VisualQuery
