import VisualQuery.Proofs.Graph.WellFormed

/-!
# Listing, binding and unbinding values

Unlisting the values of a node drops those that are not bound.  Binding and
unbinding make at most one value loose, which is dropped unless a link leads to
it.  All of them keep a graph well-formed.
-/

namespace VisualQuery
namespace QueryGraph

variable {graph : QueryGraph}

/-! ## Changes in place -/

theorem Held.mapNodes_of_value
    {value : Node}
    (held : graph.Held value)
    {change : Node → Node}
    (inPlace : Node.InPlace change)
    (sameValue : ∀ node, (change node).value = node.value) :
    (graph.mapNodes change).Held (change value) := by
  obtain ⟨owner, ownerMember, parent, bound⟩ := held
  refine ⟨change owner, mem_mapNodes.2 ⟨owner, ownerMember, rfl⟩, ?_⟩
  rw [inPlace.parent, inPlace.id, sameValue, inPlace.id]
  exact ⟨parent, bound⟩

/-- A change in place that leaves bound values alone. -/
theorem WellFormed.mapNodes_of_value
    (wellFormed : graph.WellFormed)
    {change : Node → Node}
    (inPlace : Node.InPlace change)
    (sameValue : ∀ node, (change node).value = node.value) :
    (graph.mapNodes change).WellFormed := by
  refine ⟨wellFormed.toCoherent.mapNodes_of_value inPlace sameValue, ?_⟩
  intro value member isValue
  obtain ⟨old, oldMember, rfl⟩ := mem_mapNodes.1 member
  rw [inPlace.kind] at isValue
  rcases wellFormed.anchored old oldMember isValue with held | ⟨link, linkMember, target⟩
  · exact Or.inl (held.mapNodes_of_value inPlace sameValue)
  · refine Or.inr ⟨link, linkMember, ?_⟩
    rw [inPlace.id]
    exact target

theorem WellFormed.modifyNode_of_value
    (wellFormed : graph.WellFormed)
    (id : NodeId)
    {change : Node → Node}
    (inPlace : Node.InPlace change)
    (sameValue : ∀ node, (change node).value = node.value) :
    (graph.modifyNode id change).WellFormed := by
  rw [modifyNode_eq_mapNodes]
  apply wellFormed.mapNodes_of_value (inPlace.ite _)
  intro node
  split
  · exact sameValue node
  · rfl

/-! ## Unlisting values -/

/-- The bound value, while it exists, hangs below the node it is bound to. -/
def HoldsBound (graph : QueryGraph) (bound : Option NodeId) : Prop :=
  ∀ value ∈ graph.nodes, bound = some value.id → value.kind = .value ∧ graph.Held value

/-- Unlisting one value: the bound one stays held when its link goes. -/
theorem WellFormed.removeListed
    (wellFormed : graph.WellFormed)
    {bound : Option NodeId}
    (holds : graph.HoldsBound bound)
    {link : Link}
    (only : ∀ other ∈ graph.links, other.id = link.id → other = link) :
    (graph.removeListed bound link).WellFormed ∧
      (graph.removeListed bound link).HoldsBound bound := by
  unfold QueryGraph.removeListed
  split
  · rename_i isBound
    refine ⟨⟨wellFormed.toCoherent.dropLink link.id, ?_⟩, holds⟩
    intro value member isValue
    by_cases boundHere : bound = some value.id
    · exact Or.inl (holds value member boundHere).2
    · rcases wellFormed.anchored value member isValue with held | ⟨other, otherMember, target⟩
      · exact Or.inl held
      · refine Or.inr ⟨other, mem_dropLink.2 ⟨otherMember, ?_⟩, target⟩
        intro same
        rw [only other otherMember same] at target
        exact boundHere (by rw [isBound, target])
  · refine ⟨wellFormed.removeSubtree link.target, ?_⟩
    intro value member boundHere
    obtain ⟨old, oldMember, kept, rfl⟩ := mem_dropNodes.1 member
    have inPlace := Node.release_inPlace (graph.reached [link.target] [])
    rw [inPlace.id] at boundHere
    obtain ⟨isValue, held⟩ := holds old oldMember boundHere
    rw [inPlace.kind]
    exact ⟨isValue, held.dropNodes wellFormed.toCoherent (reached_closed graph _) oldMember
      isValue kept⟩

theorem links_removeListed
    (bound : Option NodeId)
    (link : Link) :
    ∀ other ∈ (graph.removeListed bound link).links, other ∈ graph.links := by
  intro other member
  unfold QueryGraph.removeListed at member
  split at member
  · exact (mem_dropLink.1 member).1
  · exact (mem_dropNodes_links.1 member).1

/-- Unlisting values one after the other; no link appears on the way, so each
link still is the only one with its number when its turn comes. -/
theorem WellFormed.foldl_removeListed
    {start : QueryGraph}
    (coherent : start.Coherent)
    {bound : Option NodeId}
    (listed : List Link)
    (listedHere : ∀ link ∈ listed, link ∈ start.links)
    (wellFormed : graph.WellFormed)
    (holds : graph.HoldsBound bound)
    (links : ∀ link ∈ graph.links, link ∈ start.links) :
    (listed.foldl (QueryGraph.removeListed bound) graph).WellFormed := by
  induction listed generalizing graph with
  | nil => exact wellFormed
  | cons link rest inductionHypothesis =>
      have here : link ∈ start.links := listedHere link List.mem_cons_self
      have only : ∀ other ∈ graph.links, other.id = link.id → other = link := by
        intro other member same
        exact coherent.eq_of_link_id_eq (links other member) here same
      obtain ⟨nextWellFormed, nextHolds⟩ := wellFormed.removeListed holds only
      apply inductionHypothesis
      · intro other member
        exact listedHere other (List.mem_cons_of_mem _ member)
      · exact nextWellFormed
      · exact nextHolds
      · intro other member
        exact links other (links_removeListed bound link other member)

/-- The value bound to a node hangs below that node. -/
theorem Coherent.holdsBound
    (coherent : graph.Coherent)
    {node : Node}
    (member : node ∈ graph.nodes) :
    graph.HoldsBound node.value := by
  intro value valueMember bound
  obtain ⟨isValue, parent⟩ := coherent.below_of_bound member valueMember bound
  exact ⟨isValue, node, member, parent, bound⟩

theorem WellFormed.removeValues
    (wellFormed : graph.WellFormed)
    {id : NodeId}
    {count : Nat}
    {after : QueryGraph}
    (accepted : graph.removeValues id = .ok (count, after)) :
    after.WellFormed := by
  obtain ⟨node, member, named, rfl⟩ := removeValues_ok accepted
  apply WellFormed.modifyNode_of_value ?_ id (Node.InPlace.setValueExpanded false)
  · intro other
    rfl
  · apply WellFormed.foldl_removeListed wellFormed.toCoherent
    · intro link linkMember
      exact (List.mem_filter.1 linkMember).1
    · exact wellFormed
    · exact wellFormed.toCoherent.holdsBound member
    · intro link linkMember
      exact linkMember

/-! ## Binding and unbinding -/

/-- Binding a node anew makes at most the value bound before loose. -/
theorem WellFormed.anchoredBut_setValue
    (wellFormed : graph.WellFormed)
    {owner : Node}
    (member : owner ∈ graph.nodes)
    (value : Option NodeId)
    {previous : NodeId}
    (bound : owner.value = some previous) :
    (graph.modifyNode owner.id fun node => { node with value }).AnchoredBut previous := by
  have inPlace := (Node.InPlace.setValue value).ite fun node => node.id = owner.id
  rw [modifyNode_eq_mapNodes]
  intro candidate candidateMember isValue
  obtain ⟨old, oldMember, rfl⟩ := mem_mapNodes.1 candidateMember
  rw [inPlace.kind] at isValue
  rw [inPlace.id]
  by_cases wasBound : old.id = previous
  · exact Or.inl wasBound
  · refine Or.inr ?_
    rcases wellFormed.anchored old oldMember isValue with held | ⟨link, linkMember, target⟩
    · obtain ⟨holder, holderMember, parent, holds⟩ := held
      have other : holder.id ≠ owner.id := by
        intro same
        have equal := wellFormed.toCoherent.eq_of_id_eq holderMember member same
        rw [equal, bound] at holds
        injection holds with same
        exact wasBound same.symm
      refine Or.inl ⟨holder, mem_mapNodes.2 ⟨holder, holderMember, ?_⟩, ?_⟩
      · simp [other]
      · rw [inPlace.parent, inPlace.id]
        exact ⟨parent, holds⟩
    · refine Or.inr ⟨link, linkMember, ?_⟩
      rw [inPlace.id]
      exact target

/-- Binding a node that had no value makes none loose. -/
theorem WellFormed.anchored_setValue
    (wellFormed : graph.WellFormed)
    {owner : Node}
    (member : owner ∈ graph.nodes)
    (value : Option NodeId)
    (unbound : owner.value = none ∨ owner.value = value) :
    ∀ candidate ∈ (graph.modifyNode owner.id fun node => { node with value }).nodes,
      candidate.kind = .value →
        (graph.modifyNode owner.id fun node => { node with value }).Anchored candidate := by
  have inPlace := (Node.InPlace.setValue value).ite fun node => node.id = owner.id
  rw [modifyNode_eq_mapNodes]
  intro candidate candidateMember isValue
  obtain ⟨old, oldMember, rfl⟩ := mem_mapNodes.1 candidateMember
  rw [inPlace.kind] at isValue
  rcases wellFormed.anchored old oldMember isValue with held | ⟨link, linkMember, target⟩
  · obtain ⟨holder, holderMember, parent, holds⟩ := held
    refine Or.inl ⟨_, mem_mapNodes.2 ⟨holder, holderMember, rfl⟩, ?_⟩
    rw [inPlace.parent, inPlace.id, inPlace.id]
    refine ⟨parent, ?_⟩
    by_cases same : holder.id = owner.id
    · have equal := wellFormed.toCoherent.eq_of_id_eq holderMember member same
      subst equal
      rcases unbound with unbound | unchanged
      · rw [unbound] at holds
        cases holds
      · simp [← unchanged, holds]
    · simp [same, holds]
  · refine Or.inr ⟨link, linkMember, ?_⟩
    rw [inPlace.id]
    exact target

/-- Setting the value of a node to a value below it, or to none. -/
theorem Coherent.setValue
    (coherent : graph.Coherent)
    (id : NodeId)
    (value : Option NodeId)
    (below :
      ∀ bound, value = some bound →
        ∃ candidate ∈ graph.nodes,
          candidate.id = bound ∧ candidate.kind = .value ∧ candidate.parent = some id) :
    (graph.modifyNode id fun node => { node with value }).Coherent := by
  rw [modifyNode_eq_mapNodes]
  apply coherent.mapNodes ((Node.InPlace.setValue value).ite _)
  intro node member bound isBound
  by_cases same : node.id = id
  · simp only [same, decide_true, if_true] at isBound
    rw [same]
    exact below bound isBound
  · simp only [same, decide_false, Bool.false_eq_true, if_false] at isBound
    exact coherent.boundBelow node member bound isBound

theorem WellFormed.bindValue
    (wellFormed : graph.WellFormed)
    {node value : NodeId}
    {after : QueryGraph}
    (accepted : graph.bindValue node value = .ok after) :
    after.WellFormed := by
  obtain ⟨owner, member, candidate, candidateMember, rfl, rfl, isValue, parent, rfl⟩ :=
    bindValue_ok accepted
  have coherent := wellFormed.toCoherent.setValue owner.id (some candidate.id) (by
    intro bound same
    injection same with same
    exact ⟨candidate, candidateMember, same, isValue, parent⟩)
  unfold dropPrevious
  split
  · rename_i previous bound
    split
    · rename_i same
      exact ⟨coherent, wellFormed.anchored_setValue member _ (Or.inr (by rw [bound, same]))⟩
    · exact coherent.wellFormed_dropDetached (wellFormed.anchoredBut_setValue member _ bound)
  · rename_i unbound
    exact ⟨coherent, wellFormed.anchored_setValue member _ (Or.inl unbound)⟩

theorem WellFormed.clearValue
    (wellFormed : graph.WellFormed)
    {node : NodeId}
    {cleared : Bool}
    {after : QueryGraph}
    (accepted : graph.clearValue node = .ok (cleared, after)) :
    after.WellFormed := by
  rcases clearValue_ok accepted with rfl | ⟨owner, member, previous, rfl, bound, rfl⟩
  · exact wellFormed
  · have coherent := wellFormed.toCoherent.setValue owner.id none (by simp)
    exact coherent.wellFormed_dropDetached (wellFormed.anchoredBut_setValue member _ bound)

theorem WellFormed.setImmutable
    (wellFormed : graph.WellFormed)
    {node : NodeId}
    {immutable : Bool}
    {after : QueryGraph}
    (accepted : graph.setImmutable node immutable = .ok after) :
    after.WellFormed := by
  rw [setImmutable_ok accepted]
  apply wellFormed.modifyNode_of_value node (Node.InPlace.setImmutable immutable)
  intro other
  rfl

end QueryGraph
end VisualQuery
