import VisualQuery.Proofs.Graph.Cutting
import VisualQuery.Proofs.Graph.Extent

/-!
# Removals one after another

On a graph of any shape a removal takes nodes with all that hangs from them.
From a node that is left the same hangs as before, up to what has gone.  So the
extents of later removals are known from the graph before the first one.
-/

namespace VisualQuery
namespace QueryGraph

variable
  {graph before between after : QueryGraph}
  {gone : NodeId → Prop}
  {dropped : Link → Prop}
  {top id : NodeId}

theorem Inner.mem_nodeIds
    (inner : graph.Inner id) :
    id ∈ graph.nodeIds := by
  obtain ⟨node, member, named, _⟩ := inner
  exact QueryGraph.mem_nodeIds.2 ⟨node, member, named⟩

theorem HangsFrom.trans
    {middle : NodeId}
    (above : graph.HangsFrom top middle)
    (below : graph.HangsFrom middle id) :
    graph.HangsFrom top id :=
  ⟨below.1, above.2.trans below.2⟩

theorem HangsFrom.of_step
    (step : graph.StepsDown top id)
    (inner : graph.Inner id) :
    graph.HangsFrom top id :=
  ⟨inner, Relation.ReflTransGen.single step⟩

/-! ## Steps that are left -/

namespace Cuts

/-- A node that is left is still the node it was. -/
theorem still_of_id_eq
    (cuts : Cuts dropped before after)
    (coherent : before.Coherent)
    {node former : Node}
    (member : node ∈ after.nodes)
    (formerMember : former ∈ before.nodes)
    (same : node.id = former.id) :
    node.IsStill former := by
  obtain ⟨other, otherMember, still⟩ := cuts.nodes node member
  rwa [coherent.eq_of_id_eq otherMember formerMember (still.id.symm.trans same)] at still

theorem inner_iff
    (cuts : Cuts dropped before after)
    (coherent : before.Coherent) :
    after.Inner id ↔ before.Inner id ∧ id ∈ after.nodeIds := by
  constructor
  · rintro ⟨node, member, rfl, notRoot⟩
    obtain ⟨former, formerMember, still⟩ := cuts.nodes node member
    refine ⟨⟨former, formerMember, still.id.symm, ?_⟩, QueryGraph.mem_nodeIds.2 ⟨node, member, rfl⟩⟩
    rwa [← still.kind]
  · rintro ⟨⟨former, formerMember, rfl, notRoot⟩, left⟩
    obtain ⟨node, member, named⟩ := QueryGraph.mem_nodeIds.1 left
    have still := cuts.still_of_id_eq coherent member formerMember named
    exact ⟨node, member, named, still.kind ▸ notRoot⟩

theorem stepsDown_before
    (cuts : Cuts dropped before after)
    (coherent : before.Coherent)
    {next : NodeId}
    (step : after.StepsDown id next) :
    before.StepsDown id next := by
  cases step with
  | along member leaves =>
      exact StepsDown.along ((cuts.links _).1 member).1 ((cuts.inner_iff coherent).1 leaves).1
  | below member isParent leaves =>
      obtain ⟨former, formerMember, still⟩ := cuts.nodes _ member
      rw [still.id]
      exact StepsDown.below formerMember (still.parent ▸ isParent)
        ((cuts.inner_iff coherent).1 leaves).1

/-- A step between nodes that are left is left too, if the dropped links do not
matter: each leads to a node that has gone, to the root, or to a child of its
source. -/
theorem stepsDown_after
    (cuts : Cuts dropped before after)
    (coherent : before.Coherent)
    (idle :
      ∀ link ∈ before.links, dropped link → after.Inner link.target →
        ∃ child ∈ before.nodes, child.id = link.target ∧ child.parent = some link.source)
    {next : NodeId}
    (step : before.StepsDown id next)
    (left : id ∈ after.nodeIds)
    (inner : after.Inner next) :
    after.StepsDown id next := by
  have descend : ∀ child ∈ before.nodes, child.id = next → child.parent = some id →
      before.Inner id → after.StepsDown id next := by
    rintro child member rfl isParent leaves
    obtain ⟨node, nodeMember, named, _⟩ := inner
    have still := cuts.still_of_id_eq coherent nodeMember member named
    rw [← named]
    exact StepsDown.below nodeMember (still.parent.trans isParent)
      ((cuts.inner_iff coherent).2 ⟨leaves, left⟩)
  cases step with
  | @along link member leaves =>
      by_cases isDropped : dropped link
      · obtain ⟨child, childMember, named, isParent⟩ := idle link member isDropped inner
        exact descend child childMember named isParent leaves
      · exact StepsDown.along
          ((cuts.links link).2 ⟨member, isDropped, left, inner.mem_nodeIds⟩)
          ((cuts.inner_iff coherent).2 ⟨leaves, left⟩)
  | below member isParent leaves => exact descend _ member rfl isParent leaves

end Cuts

/-! ## Shedding -/

/-- Some nodes have gone with all that hangs from them.  The others are bound as
before unless to a value that has gone, and up to what has gone the same hangs
from them. -/
structure Sheds (gone : NodeId → Prop) (dropped : Link → Prop) (before after : QueryGraph) :
    Prop extends Cuts dropped before after where
  left : ∀ id, id ∈ after.nodeIds ↔ id ∈ before.nodeIds ∧ ¬ gone id
  closed : ∀ top id, gone top → before.HangsFrom top id → gone id
  bound :
    ∀ node ∈ after.nodes, ∀ former ∈ before.nodes, node.id = former.id →
      ∀ value, node.value = some value ↔ former.value = some value ∧ ¬ gone value
  hangs : ∀ top id, after.HangsFrom top id ↔ before.HangsFrom top id ∧ ¬ gone id

/-- What hangs from the nodes that are left need not be checked if the dropped
links do not matter. -/
theorem Cuts.sheds
    (cuts : Cuts dropped before after)
    (coherent : before.Coherent)
    (left : ∀ id, id ∈ after.nodeIds ↔ id ∈ before.nodeIds ∧ ¬ gone id)
    (closed : ∀ top id, gone top → before.HangsFrom top id → gone id)
    (bound :
      ∀ node ∈ after.nodes, ∀ former ∈ before.nodes, node.id = former.id →
        ∀ value, node.value = some value ↔ former.value = some value ∧ ¬ gone value)
    (idle :
      ∀ link ∈ before.links, dropped link → after.Inner link.target →
        ∃ child ∈ before.nodes, child.id = link.target ∧ child.parent = some link.source) :
    Sheds gone dropped before after := by
  refine ⟨cuts, left, closed, bound, fun top id => ⟨?_, ?_⟩⟩
  · rintro ⟨inner, path⟩
    refine ⟨⟨((cuts.inner_iff coherent).1 inner).1, ?_⟩, ((left id).1 inner.mem_nodeIds).2⟩
    exact Relation.ReflTransGen.mono (fun _ _ => cuts.stepsDown_before coherent) _ _ path
  · rintro ⟨⟨inner, path⟩, stays⟩
    have innerAfter : ∀ other, before.Inner other → ¬ gone other → after.Inner other :=
      fun other wasInner otherStays =>
        (cuts.inner_iff coherent).2
          ⟨wasInner, (left other).2 ⟨wasInner.mem_nodeIds, otherStays⟩⟩
    refine ⟨innerAfter id inner stays, ?_⟩
    -- Nothing on the way has gone, since the last node would have gone with it.
    induction path with
    | refl => exact Relation.ReflTransGen.refl
    | @tail middle last _ step inductionHypothesis =>
        have middleInner : before.Inner middle :=
          coherent.isRemovable_iff_inner.1 (coherent.stepsDown_iff.1 step).1
        have middleStays : ¬ gone middle := fun middleGone =>
          stays (closed middle last middleGone (HangsFrom.of_step step inner))
        exact (inductionHypothesis middleStays middleInner).tail
          (cuts.stepsDown_after coherent idle step (innerAfter _ middleInner middleStays).mem_nodeIds
            (innerAfter _ inner stays))

/-- What goes later need not have been left. -/
theorem or_exists_and_not_iff
    {α : Type}
    {items : List α}
    {takes : α → Prop}
    {goneBefore : Prop} :
    (goneBefore ∨ ∃ item ∈ items, takes item ∧ ¬ goneBefore) ↔
      goneBefore ∨ ∃ item ∈ items, takes item := by
  by_cases before : goneBefore <;> simp [before]

namespace Sheds

/-- No node has gone. -/
theorem of_none
    (cuts : Cuts dropped before after)
    (coherent : before.Coherent)
    (nodeIds : after.nodeIds = before.nodeIds)
    (sameValue :
      ∀ node ∈ after.nodes, ∃ former ∈ before.nodes,
        node.id = former.id ∧ node.value = former.value)
    (idle :
      ∀ link ∈ before.links, dropped link → after.Inner link.target →
        ∃ child ∈ before.nodes, child.id = link.target ∧ child.parent = some link.source) :
    Sheds (fun _ => False) dropped before after := by
  refine cuts.sheds coherent ?_ (fun _ _ isGone _ => isGone) ?_ idle
  · simp [nodeIds]
  · intro node member former formerMember same value
    obtain ⟨other, otherMember, named, sameBinding⟩ := sameValue node member
    rw [coherent.eq_of_id_eq formerMember otherMember (same.symm.trans named), sameBinding]
    simp

theorem refl (coherent : graph.Coherent) :
    Sheds (fun _ => False) (fun _ => False) graph graph :=
  of_none (Cuts.refl coherent) coherent rfl (fun node member => ⟨node, member, rfl, rfl⟩)
    fun _ _ isDropped => isDropped.elim

theorem congr
    (sheds : Sheds gone dropped before after)
    {others : NodeId → Prop}
    {otherLinks : Link → Prop}
    (same : ∀ id, gone id ↔ others id)
    (sameLinks : ∀ link ∈ before.links, dropped link ↔ otherLinks link) :
    Sheds others otherLinks before after := by
  obtain rfl : gone = others := funext fun id => propext (same id)
  exact { sheds with toCuts := sheds.toCuts.congr sameLinks }

theorem trans
    {goneLater : NodeId → Prop}
    {droppedLater : Link → Prop}
    (first : Sheds gone dropped before between)
    (second : Sheds goneLater droppedLater between after) :
    Sheds (fun id => gone id ∨ goneLater id) (fun link => dropped link ∨ droppedLater link)
      before after where
  toCuts := first.toCuts.trans second.toCuts
  left := by
    intro id
    rw [second.left, first.left, not_or, and_assoc]
  closed := by
    rintro top id (isGone | isGone) hangs
    · exact Or.inl (first.closed top id isGone hangs)
    · by_cases before : gone id
      · exact Or.inl before
      · exact Or.inr (second.closed top id isGone ((first.hangs top id).2 ⟨hangs, before⟩))
  bound := by
    intro node member former formerMember same value
    obtain ⟨middle, middleMember, still⟩ := second.nodes node member
    rw [second.bound node member middle middleMember still.id,
      first.bound middle middleMember former formerMember (still.id.symm.trans same), not_or,
      and_assoc]
  hangs := by
    intro top id
    rw [second.hangs, first.hangs, not_or, and_assoc]

/-! ## Single removals -/

theorem modifyNode
    (coherent : graph.Coherent)
    {change : Node → Node}
    (inPlace : Node.InPlace change)
    (sameValue : ∀ node, (change node).value = node.value)
    (id : NodeId) :
    Sheds (fun _ => False) (fun _ => False) graph (graph.modifyNode id change) := by
  refine of_none (Cuts.modifyNode coherent inPlace id) coherent ?_ ?_
    fun _ _ isDropped => isDropped.elim
  · rw [modifyNode_eq_mapNodes, nodeIds_mapNodes (inPlace.ite fun node => node.id = id)]
  · intro node member
    obtain ⟨former, formerMember, rfl⟩ := mem_modifyNode.1 member
    refine ⟨former, formerMember, ?_⟩
    split
    · exact ⟨inPlace.id former, sameValue former⟩
    · exact ⟨rfl, rfl⟩

/-- A link that leads to a child of its source is not missed. -/
theorem dropLink
    (coherent : graph.Coherent)
    {id : LinkId}
    (toChild :
      ∀ link ∈ graph.links, link.id = id →
        ∃ child ∈ graph.nodes, child.id = link.target ∧ child.parent = some link.source) :
    Sheds (fun _ => False) (fun link => link.id = id) graph (graph.dropLink id) :=
  of_none (Cuts.dropLink coherent id) coherent rfl (fun node member => ⟨node, member, rfl, rfl⟩)
    fun link member isDropped _ => toChild link member isDropped

theorem removeSubtree
    (coherent : graph.Coherent)
    (top : NodeId) :
    Sheds (graph.HangsFrom top) (fun _ => False) graph (graph.removeSubtree top) := by
  refine (Cuts.removeSubtree coherent top).sheds coherent ?_ (fun _ _ => HangsFrom.trans) ?_
    fun _ _ isDropped => isDropped.elim
  · intro id
    rw [mem_nodeIds_removeSubtree, coherent.mem_reached_iff_hangsFrom]
  · intro node member former formerMember same value
    obtain ⟨old, oldMember, _, rfl⟩ := mem_dropNodes.1 member
    rw [(Node.release_inPlace _).id] at same
    rw [Node.release_value_eq_some_iff, coherent.mem_reached_iff_hangsFrom,
      coherent.eq_of_id_eq formerMember oldMember same.symm]

/-- Removing a link takes what hangs from its target. -/
theorem removeLink
    (coherent : before.Coherent)
    {link : Link}
    (member : link ∈ before.links)
    (accepted : before.removeLink link.id = .ok after) :
    Sheds (before.HangsFrom link.target) (fun other => other.id = link.id) before after := by
  have cuts := Cuts.removeLink coherent accepted
  obtain ⟨found, foundMember, same, rfl⟩ := removeLink_ok accepted
  obtain rfl := coherent.eq_of_link_id_eq foundMember member same
  have removes := removeSubtree (coherent.dropLink found.id) found.target
  have extent : ∀ id, (before.dropLink found.id).HangsFrom found.target id ↔
      before.HangsFrom found.target id := fun id => hangsFrom_dropLink coherent member
  refine cuts.sheds coherent ?_ (fun _ _ => HangsFrom.trans) ?_ ?_
  · intro id
    rw [removes.left, extent]
    rfl
  · intro node nodeMember former formerMember named value
    rw [removes.bound node nodeMember former formerMember named, extent]
  · -- The target of the link is gone, or it is the root.
    intro other otherMember isDropped inner
    rw [coherent.eq_of_link_id_eq otherMember member isDropped] at inner
    obtain ⟨wasInner, left⟩ := (cuts.inner_iff coherent).1 inner
    rw [removes.left, extent] at left
    exact absurd ⟨wasInner, Relation.ReflTransGen.refl⟩ left.2

/-! ## Unlisting -/

theorem removeListed
    (coherent : graph.Coherent)
    (bound : Option NodeId)
    (link : Link)
    (toChild :
      bound = some link.target → ∀ other ∈ graph.links, other.id = link.id →
        ∃ child ∈ graph.nodes, child.id = other.target ∧ child.parent = some other.source) :
    Sheds (fun id => bound ≠ some link.target ∧ graph.HangsFrom link.target id)
      (fun other => bound = some link.target ∧ other.id = link.id) graph
      (graph.removeListed bound link) := by
  unfold QueryGraph.removeListed
  split
  · rename_i isBound
    exact (dropLink coherent (toChild isBound)).congr (fun _ => by simp [isBound])
      fun _ _ => by simp [isBound]
  · rename_i other
    exact (removeSubtree coherent link.target).congr (fun _ => by simp [other])
      fun _ _ => by simp [other]

theorem foldl_removeListed
    (coherent : graph.Coherent)
    (bound : Option NodeId)
    (listed : List Link)
    (toChild :
      ∀ link ∈ listed, bound = some link.target → ∀ other ∈ graph.links, other.id = link.id →
        ∃ child ∈ graph.nodes, child.id = other.target ∧ child.parent = some other.source) :
    Sheds
      (fun id => ∃ link ∈ listed, bound ≠ some link.target ∧ graph.HangsFrom link.target id)
      (fun other => ∃ link ∈ listed, bound = some link.target ∧ other.id = link.id) graph
      (listed.foldl (QueryGraph.removeListed bound) graph) := by
  induction listed generalizing graph with
  | nil => exact (refl coherent).congr (fun _ => by simp) fun _ _ => by simp
  | cons link rest inductionHypothesis =>
      have first := removeListed coherent bound link (toChild link List.mem_cons_self)
      have reached := coherent.removeListed bound link
      have others := inductionHypothesis reached (by
        intro later laterMember isBound other otherMember same
        obtain ⟨wasLink, _, _, target⟩ := (first.links other).1 otherMember
        obtain ⟨child, childMember, named, isParent⟩ :=
          toChild later (List.mem_cons_of_mem _ laterMember) isBound other wasLink same
        obtain ⟨node, nodeMember, nodeNamed⟩ := QueryGraph.mem_nodeIds.1 target
        have still := first.still_of_id_eq coherent nodeMember childMember
          (nodeNamed.trans named.symm)
        exact ⟨node, nodeMember, nodeNamed, still.parent.trans isParent⟩)
      refine (first.trans others).congr ?_ fun _ _ => by simp
      intro id
      simp only [first.hangs, List.mem_cons, exists_eq_or_imp]
      exact (or_congr_right (exists_congr fun _ => and_congr_right fun _ => and_assoc.symm)).trans
        or_exists_and_not_iff

end Sheds

/-- Unlisting the values of one node takes another node: it hangs from a value
that the first is not bound to. -/
def Unlists (graph : QueryGraph) (owner id : NodeId) : Prop :=
  ∃ node ∈ graph.nodes,
    node.id = owner ∧
      ∃ link ∈ graph.valueLinks owner,
        node.value ≠ some link.target ∧ graph.HangsFrom link.target id

/-- Removing a link takes another one: an end of it hangs from the target. -/
def TakesAlong (graph : QueryGraph) (link other : Link) : Prop :=
  graph.HangsFrom link.target other.source ∨ graph.HangsFrom link.target other.target

namespace Sheds

theorem removeValues
    (coherent : before.Coherent)
    {owner : Node}
    (member : owner ∈ before.nodes)
    {count : Nat}
    (accepted : before.removeValues owner.id = .ok (count, after)) :
    Sheds (before.Unlists owner.id)
      (fun link => link ∈ before.valueLinks owner.id ∧ owner.value = some link.target)
      before after := by
  obtain ⟨same, sameMember, named, rfl⟩ := removeValues_ok accepted
  obtain rfl := coherent.eq_of_id_eq sameMember member named
  have unlisted := foldl_removeListed coherent same.value (before.valueLinks same.id) (by
    intro link listed isBound other otherMember sameId
    obtain ⟨linkMember, leaves⟩ := List.mem_filter.1 listed
    rw [coherent.eq_of_link_id_eq otherMember linkMember sameId]
    obtain ⟨value, valueMember, valueNamed, _, parent⟩ :=
      coherent.boundBelow same member link.target isBound
    simp only [Bool.and_eq_true, decide_eq_true_eq] at leaves
    exact ⟨value, valueMember, valueNamed, by rw [parent, leaves.1]⟩)
  have marks := modifyNode (coherent.foldl_removeListed same.value (before.valueLinks same.id))
    (Node.InPlace.setValueExpanded false) (fun _ => rfl) same.id
  refine (unlisted.trans marks).congr ?_ ?_
  · intro id
    rw [or_false]
    constructor
    · exact fun taken => ⟨same, member, rfl, taken⟩
    · rintro ⟨other, otherMember, otherNamed, taken⟩
      rwa [coherent.eq_of_id_eq otherMember member otherNamed] at taken
  · intro link linkMember
    rw [or_false]
    constructor
    · rintro ⟨listed, listedMember, bound, sameId⟩
      rw [coherent.eq_of_link_id_eq linkMember (List.mem_filter.1 listedMember).1 sameId]
      exact ⟨listedMember, bound⟩
    · rintro ⟨listed, bound⟩
      exact ⟨link, listed, bound, rfl⟩

/-! ## Later removals -/

/-- What another node that is left unlists is known from the graph before. -/
theorem unlists_iff
    (sheds : Sheds gone dropped before after)
    (coherent : before.Coherent)
    {owner : NodeId}
    (kept : ∀ link ∈ before.links, dropped link → link.source ≠ owner)
    (ownerLeft : owner ∈ after.nodeIds) :
    after.Unlists owner id ↔ before.Unlists owner id ∧ ¬ gone id := by
  constructor
  · rintro ⟨node, member, named, link, listed, spare, hangs⟩
    obtain ⟨former, formerMember, still⟩ := sheds.nodes node member
    obtain ⟨linkMember, leaves⟩ := List.mem_filter.1 listed
    obtain ⟨wasLink, _, _, target⟩ := (sheds.links link).1 linkMember
    obtain ⟨hung, stays⟩ := (sheds.hangs link.target id).1 hangs
    refine ⟨⟨former, formerMember, still.id.symm.trans named, link,
      List.mem_filter.2 ⟨wasLink, leaves⟩, ?_, hung⟩, stays⟩
    intro isBound
    exact spare ((sheds.bound node member former formerMember still.id link.target).2
      ⟨isBound, ((sheds.left link.target).1 target).2⟩)
  · rintro ⟨⟨former, formerMember, named, link, listed, spare, hung⟩, stays⟩
    obtain ⟨node, member, nodeNamed⟩ := QueryGraph.mem_nodeIds.1 ownerLeft
    obtain ⟨linkMember, leaves⟩ := List.mem_filter.1 listed
    have source : link.source = owner := by
      simp only [Bool.and_eq_true, decide_eq_true_eq] at leaves
      exact leaves.1
    have targetStays : ¬ gone link.target := fun targetGone =>
      stays (sheds.closed link.target id targetGone hung)
    have linkLeft : link ∈ after.links := by
      refine (sheds.links link).2 ⟨linkMember, fun isDropped => ?_, source ▸ ownerLeft, ?_⟩
      · exact kept link linkMember isDropped source
      · exact (sheds.left link.target).2 ⟨(coherent.linkEnds link linkMember).2, targetStays⟩
    refine ⟨node, member, nodeNamed, link, List.mem_filter.2 ⟨linkLeft, leaves⟩, ?_,
      (sheds.hangs link.target id).2 ⟨hung, stays⟩⟩
    intro isBound
    exact spare ((sheds.bound node member former formerMember (nodeNamed.trans named.symm)
      link.target).1 isBound).1

/-- Which links a link that is left takes along is known from the graph before,
for links that are left. -/
theorem takesAlong_iff
    (sheds : Sheds gone dropped before after)
    {link other : Link}
    (left : other ∈ after.links) :
    after.TakesAlong link other ↔ before.TakesAlong link other := by
  obtain ⟨_, _, source, target⟩ := (sheds.links other).1 left
  simp only [TakesAlong, sheds.hangs, ((sheds.left other.source).1 source).2,
    ((sheds.left other.target).1 target).2, not_false_eq_true, and_true]

end Sheds

/-! ## Marks -/

theorem valueExpanded_foldl_removeListed
    (bound : Option NodeId)
    (listed : List Link)
    {node : Node}
    (member : node ∈ (listed.foldl (removeListed bound) graph).nodes) :
    ∃ former ∈ graph.nodes,
      node.id = former.id ∧ node.valueExpanded = former.valueExpanded := by
  induction listed generalizing graph with
  | nil => exact ⟨node, member, rfl, rfl⟩
  | cons link rest inductionHypothesis =>
      obtain ⟨middle, middleMember, named, marked⟩ := inductionHypothesis member
      unfold removeListed at middleMember
      split at middleMember
      · exact ⟨middle, middleMember, named, marked⟩
      · obtain ⟨old, oldMember, _, rfl⟩ := mem_dropNodes.1 middleMember
        rw [Node.release_eq] at named marked
        exact ⟨old, oldMember, named, marked⟩

/-- Unlisting the values of a node leaves the marks of the others. -/
theorem valueExpanded_removeValues
    {owner : NodeId}
    {count : Nat}
    (accepted : before.removeValues owner = .ok (count, after))
    {node : Node}
    (member : node ∈ after.nodes)
    (other : node.id ≠ owner) :
    ∃ former ∈ before.nodes,
      node.id = former.id ∧ node.valueExpanded = former.valueExpanded := by
  obtain ⟨holder, _, _, rfl⟩ := removeValues_ok accepted
  obtain ⟨old, oldMember, rfl⟩ := mem_modifyNode.1 member
  split at other
  · rename_i isOwner
    exact absurd isOwner other
  · rename_i apart
    rw [if_neg apart]
    exact valueExpanded_foldl_removeListed holder.value _ oldMember

end QueryGraph
end VisualQuery
