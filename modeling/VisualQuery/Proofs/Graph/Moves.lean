import VisualQuery.Proofs.Graph.Growth

/-!
# Moves

An edit that adds no bare node or link is made of few moves: a fresh root, a node
made with the link that leads to it, a change in place, a link that leaves a
listing, a link cut with what hangs from its target, and a node taken away with
what hangs from it.  A property that each of them keeps is kept by all such edits.
-/

namespace VisualQuery
namespace QueryGraph

variable {graph before after : QueryGraph}

/-- One move. -/
inductive Move : QueryGraph → QueryGraph → Prop
  | start
      {before after : QueryGraph}
      (roots : ∀ node ∈ after.nodes, node.kind = .root) :
      Move before after
  | sprout
      {before after : QueryGraph}
      {made : Node}
      {link : Link}
      (nodes : after.nodes = before.nodes ++ [made])
      (links : after.links = before.links ++ [link])
      (target : link.target = made.id)
      (kind : link.isRelation = false ↔ made.kind = .value)
      (unnamed : made.kind = .value → made.var = "") :
      Move before after
  | change
      {before after : QueryGraph}
      {change : Node → Node}
      (inPlace : Node.InPlace change)
      (nodes : after.nodes = before.nodes.map change)
      (links : after.links = before.links) :
      Move before after
  | unlist
      {before : QueryGraph}
      {id : LinkId}
      (isValue : ∀ link ∈ before.links, link.id = id → link.isRelation = false) :
      Move before (before.dropLink id)
  | cut
      {before : QueryGraph}
      {link : Link}
      (member : link ∈ before.links) :
      Move before ((before.dropLink link.id).removeSubtree link.target)
  | prune
      {before : QueryGraph}
      (id : NodeId) :
      Move before (before.removeSubtree id)

/-- Moves one after the other, from one coherent graph to the next. -/
abbrev Moved : QueryGraph → QueryGraph → Prop :=
  Relation.ReflTransGen fun before after => Move before after ∧ after.Coherent

namespace Moved

theorem single
    (move : Move before after)
    (coherent : after.Coherent) :
    Moved before after :=
  Relation.ReflTransGen.single ⟨move, coherent⟩

theorem coherent
    (moved : Moved before after)
    (coherent : before.Coherent) :
    after.Coherent := by
  cases moved with
  | refl => exact coherent
  | tail _ last => exact last.2

/-- A property kept by every move is kept by moves one after the other. -/
theorem keeps
    {property : QueryGraph → Prop}
    (step : ∀ before after, before.Coherent → Move before after → property before → property after)
    (moved : Moved before after)
    (isCoherent : before.Coherent)
    (holds : property before) :
    property after := by
  induction moved with
  | refl => exact holds
  | tail earlier last inductionHypothesis =>
      exact step _ _ (coherent earlier isCoherent) last.1 inductionHypothesis

/-! ## Adding -/

theorem addRoot
    {label : String}
    {root : NodeId}
    (wellFormed : after.WellFormed)
    (accepted : before.addRoot label = .ok (root, after)) :
    Moved before after := by
  obtain ⟨empty, pushed⟩ := addRoot_ok accepted
  rw [pushRoot_eq, empty] at pushed
  injection pushed with _ after_eq
  subst after_eq
  refine single (.start ?_) wellFormed.toCoherent
  intro node member
  rw [List.nil_append, List.mem_singleton] at member
  rw [member]
  rfl

theorem addRelationship
    {parent child : NodeId}
    {relationship label : String}
    {isGroup : Bool}
    (wellFormed : after.WellFormed)
    (accepted :
      before.addRelationship parent relationship label isGroup = .ok (child, after)) :
    Moved before after := by
  obtain ⟨between, link, added, linked⟩ := addRelationship_ok accepted
  obtain ⟨_, rfl, rfl⟩ := addNode_ok added
  obtain ⟨_, _, rfl⟩ := addLink_ok linked
  refine single (.sprout rfl rfl rfl ?_ ?_) wellFormed.toCoherent
  · cases isGroup <;> simp [freshTerm, Link.isRelation]
  · exact fun isValue => absurd isValue (kind_freshTerm_ne_value _ _ _)

theorem addValue
    {parent value : NodeId}
    {attributes : Row}
    (wellFormed : after.WellFormed)
    (accepted : before.addValue parent attributes = .ok (value, after)) :
    Moved before after := by
  obtain ⟨owner, _, link, rfl, _, rfl, linked⟩ := addValue_ok accepted
  obtain ⟨_, _, rfl⟩ := addLink_ok linked
  exact single (.sprout rfl rfl rfl (by simp [freshValue, Link.isRelation]) fun _ => rfl)
    wellFormed.toCoherent

/-! ## Changing and removing -/

theorem modifyNode
    {id : NodeId}
    {change : Node → Node}
    (inPlace : Node.InPlace change)
    (coherent : (graph.modifyNode id change).Coherent) :
    Moved graph (graph.modifyNode id change) := by
  rw [modifyNode_eq_mapNodes] at coherent ⊢
  exact single (.change (inPlace.ite _) rfl rfl) coherent

theorem removeSubtree
    (coherent : graph.Coherent)
    (id : NodeId) :
    Moved graph (graph.removeSubtree id) :=
  single (.prune id) (coherent.removeSubtree id)

theorem dropDetached
    (coherent : graph.Coherent)
    (id : NodeId) :
    Moved graph (graph.dropDetached id) := by
  unfold QueryGraph.dropDetached
  split
  · exact .refl
  · exact removeSubtree coherent id

theorem dropPrevious
    (coherent : graph.Coherent)
    (value : NodeId)
    (previous : Option NodeId) :
    Moved graph (graph.dropPrevious value previous) := by
  unfold QueryGraph.dropPrevious
  split
  · split
    · exact .refl
    · exact dropDetached coherent _
  · exact .refl

theorem removeLink
    (coherent : before.Coherent)
    {id : LinkId}
    (accepted : before.removeLink id = .ok after) :
    Moved before after := by
  obtain ⟨link, member, rfl, rfl⟩ := removeLink_ok accepted
  exact single (.cut member) ((coherent.dropLink link.id).removeSubtree link.target)

theorem removeListed
    (coherent : graph.Coherent)
    (bound : Option NodeId)
    {link : Link}
    (isValue : ∀ other ∈ graph.links, other.id = link.id → other.isRelation = false) :
    Moved graph (graph.removeListed bound link) := by
  unfold QueryGraph.removeListed
  split
  · exact single (.unlist isValue) (coherent.dropLink link.id)
  · exact removeSubtree coherent link.target

theorem foldl_removeListed
    (isCoherent : graph.Coherent)
    (start : QueryGraph)
    (bound : Option NodeId)
    (listed : List Link)
    (isValue :
      ∀ link ∈ listed, ∀ other ∈ start.links, other.id = link.id → other.isRelation = false)
    (links : ∀ link ∈ graph.links, link ∈ start.links) :
    Moved graph (listed.foldl (QueryGraph.removeListed bound) graph) := by
  induction listed generalizing graph with
  | nil => exact .refl
  | cons link rest inductionHypothesis =>
      have first : Moved graph (graph.removeListed bound link) := by
        apply removeListed isCoherent bound
        intro other member same
        exact isValue link List.mem_cons_self other (links other member) same
      refine first.trans (inductionHypothesis (coherent first isCoherent) ?_ ?_)
      · intro later member
        exact isValue later (List.mem_cons_of_mem _ member)
      · intro other member
        exact links other (links_removeListed bound link other member)

end Moved

/-- The links of a listing are told from relationships by their numbers. -/
theorem Coherent.isRelation_of_mem_valueLinks
    (coherent : graph.Coherent)
    {id : NodeId}
    {link other : Link}
    (listed : link ∈ graph.valueLinks id)
    (member : other ∈ graph.links)
    (same : other.id = link.id) :
    other.isRelation = false := by
  obtain ⟨linkMember, holds⟩ := List.mem_filter.1 listed
  have equal := coherent.eq_of_link_id_eq member linkMember same
  simp only [Bool.and_eq_true, decide_eq_true_eq] at holds
  rw [equal, Link.isRelation, holds.2]
  rfl

namespace Moved

theorem removeValues
    (coherent : before.Coherent)
    (wellFormed : after.WellFormed)
    {id : NodeId}
    {count : Nat}
    (accepted : before.removeValues id = .ok (count, after)) :
    Moved before after := by
  obtain ⟨node, _, _, rfl⟩ := removeValues_ok accepted
  refine (foldl_removeListed coherent before _ _ ?_ fun _ member => member).trans
    (modifyNode (Node.InPlace.setValueExpanded false) wellFormed.toCoherent)
  intro link listed other member same
  exact coherent.isRelation_of_mem_valueLinks listed member same

theorem bindValue
    (coherent : before.Coherent)
    {node value : NodeId}
    (accepted : before.bindValue node value = .ok after) :
    Moved before after := by
  obtain ⟨owner, _, candidate, member, _, named, isValue, parent, rfl⟩ := bindValue_ok accepted
  have below : ∀ bound, some value = some bound →
      ∃ candidate ∈ before.nodes,
        candidate.id = bound ∧ candidate.kind = .value ∧ candidate.parent = some node := by
    rintro bound ⟨⟩
    exact ⟨candidate, member, named, isValue, parent⟩
  have bound := coherent.setValue node (some value) below
  exact (modifyNode (Node.InPlace.setValue _) bound).trans (dropPrevious bound _ _)

theorem clearValue
    (coherent : before.Coherent)
    {node : NodeId}
    {cleared : Bool}
    (accepted : before.clearValue node = .ok (cleared, after)) :
    Moved before after := by
  rcases clearValue_ok accepted with rfl | ⟨owner, _, previous, _, _, rfl⟩
  · exact .refl
  · have unbound := coherent.setValue node none (by simp)
    exact (modifyNode (Node.InPlace.setValue none) unbound).trans (dropDetached unbound _)

theorem setImmutable
    {node : NodeId}
    {immutable : Bool}
    (wellFormed : after.WellFormed)
    (accepted : before.setImmutable node immutable = .ok after) :
    Moved before after := by
  rw [setImmutable_ok accepted] at wellFormed ⊢
  exact modifyNode (Node.InPlace.setImmutable _) wellFormed.toCoherent

end Moved

theorem Builds.moved
    (builds : Builds before after)
    (wellFormed : before.WellFormed) :
    Moved before after := by
  have afterWellFormed := builds.wellFormed wellFormed
  cases builds with
  | addRoot accepted => exact Moved.addRoot afterWellFormed accepted
  | addRelationship _ accepted => exact Moved.addRelationship afterWellFormed accepted
  | addValue accepted => exact Moved.addValue afterWellFormed accepted
  | bindValue _ accepted => exact Moved.bindValue wellFormed.toCoherent accepted
  | setImmutable accepted => exact Moved.setImmutable afterWellFormed accepted

theorem Built.moved
    (built : Built before after)
    (wellFormed : before.WellFormed) :
    Moved before after := by
  induction built with
  | refl => exact .refl
  | tail earlier builds inductionHypothesis =>
      exact inductionHypothesis.trans (builds.moved (Built.wellFormed earlier wellFormed))

end QueryGraph

namespace GraphEdit

open QueryGraph

/-- A plain edit is made of moves. -/
theorem apply_moved
    (edit : GraphEdit)
    {graph : QueryGraph}
    (wellFormed : graph.WellFormed)
    (plain : edit.isPlain = true) :
    Moved graph (edit.apply graph) := by
  have coherent := wellFormed.toCoherent
  have afterCoherent := (apply_wellFormed edit graph wellFormed).toCoherent
  cases edit with
  | addRoot label =>
      refine Step.atomic_property .refl ?_
      intro id after accepted
      exact Moved.addRoot (wellFormed.addRoot accepted) accepted
  | reset label =>
      refine Moved.single (.start ?_) afterCoherent
      intro node member
      obtain rfl := List.mem_singleton.1 member
      rfl
  | clear => exact Moved.single (.start (by simp [apply, QueryGraph.empty])) afterCoherent
  | generateVariable label =>
      have unchanged : Node.InPlace fun node => node :=
        ⟨fun _ => rfl, fun _ => rfl, fun _ => rfl, fun _ => rfl, fun _ => rfl⟩
      exact Moved.single (.change unchanged (List.map_id' _).symm rfl) afterCoherent
  | addNode parent label isGroup => cases plain
  | addRelationship parent relationship label isGroup =>
      refine Step.atomic_property .refl ?_
      intro id after accepted
      exact Moved.addRelationship (wellFormed.addRelationship accepted) accepted
  | addValue parent attributes =>
      refine Step.atomic_property .refl ?_
      intro id after accepted
      exact Moved.addValue (wellFormed.addValue accepted) accepted
  | addLink source target kind label => cases plain
  | removeNode node =>
      refine Step.atomicUnit_property .refl ?_
      intro after accepted
      obtain ⟨_, _, _, _, rfl⟩ := removeNode_ok accepted
      exact Moved.removeSubtree coherent node
  | removeLink link =>
      refine Step.atomicUnit_property .refl ?_
      intro after accepted
      exact Moved.removeLink coherent accepted
  | removeValues node =>
      refine Step.atomic_property .refl ?_
      intro count after accepted
      exact Moved.removeValues coherent (wellFormed.removeValues accepted) accepted
  | bindValue node value =>
      refine Step.atomicUnit_property .refl ?_
      intro after accepted
      exact Moved.bindValue coherent accepted
  | clearValue node =>
      refine Step.atomic_property .refl ?_
      intro cleared after accepted
      exact Moved.clearValue coherent accepted
  | setImmutable node immutable =>
      refine Step.atomicUnit_property .refl ?_
      intro after accepted
      exact Moved.setImmutable (wellFormed.setImmutable accepted) accepted
  | addSchema schema => exact (addSchema_built schema wellFormed).moved wellFormed
  | note node change => exact Moved.modifyNode (Node.InPlace.note change) afterCoherent

/-- A property kept by every move is kept by plain edits one after the other. -/
theorem run_moved_keeps
    {property : QueryGraph → Prop}
    (step : ∀ before after, before.Coherent → Move before after → property before → property after)
    (edits : List GraphEdit)
    {graph : QueryGraph}
    (wellFormed : graph.WellFormed)
    (holds : property graph)
    (plain : ∀ edit ∈ edits, edit.isPlain = true) :
    property (run edits graph) := by
  induction edits generalizing graph with
  | nil => exact holds
  | cons edit rest inductionHypothesis =>
      have moved := apply_moved edit wellFormed (plain edit List.mem_cons_self)
      apply inductionHypothesis
      · exact apply_wellFormed edit graph wellFormed
      · exact moved.keeps step wellFormed.toCoherent holds
      · exact fun later member => plain later (List.mem_cons_of_mem _ member)

end GraphEdit
end VisualQuery
