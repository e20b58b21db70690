import VisualQuery.Proofs.Graph.Acceptance
import VisualQuery.Proofs.Graph.Growth

/-!
# What a removal takes

In a grown graph a removal takes a node with all nodes beneath it, and no other.
So every edit that removes is known exactly: some nodes go with what is beneath
them, and those that stay are changed in place.
-/

namespace VisualQuery
namespace QueryGraph

variable {graph before between after : QueryGraph} {top id : NodeId}

/-! ## Descent -/

/-- A line of descent never leads to a smaller number. -/
theorem Coherent.le_of_beneath
    (coherent : graph.Coherent)
    (beneath : graph.Beneath top id) :
    top.value ≤ id.value := by
  induction beneath with
  | self => exact Nat.le_refl _
  | child member isParent _ inductionHypothesis =>
      exact Nat.le_trans inductionHypothesis (Nat.le_of_lt (coherent.parent_lt member isParent))

/-- A line of descent that ends at a node comes through its parent, or starts at
the node. -/
theorem Coherent.beneath_node_iff
    (coherent : graph.Coherent)
    {node : Node}
    (member : node ∈ graph.nodes) :
    graph.Beneath top node.id ↔
      node.id = top ∨ ∃ parent, node.parent = some parent ∧ graph.Beneath top parent := by
  constructor
  · intro beneath
    generalize named : node.id = id at beneath
    cases beneath with
    | self => exact Or.inl rfl
    | @child other parent otherMember isParent above =>
        rw [coherent.eq_of_id_eq member otherMember named]
        exact Or.inr ⟨parent, isParent, above⟩
  · rintro (rfl | ⟨parent, isParent, above⟩)
    · exact Beneath.self
    · exact Beneath.child member isParent above

/-! ## The nodes a removal reaches -/

/-- The walk only goes down. -/
theorem Stems.beneath_of_mem_reached
    (stems : graph.Stems)
    {stack seen : List NodeId}
    (stackBeneath : ∀ id ∈ stack, graph.Beneath top id)
    (seenBeneath : ∀ id ∈ seen, graph.Beneath top id)
    (isReached : id ∈ graph.reached stack seen) :
    graph.Beneath top id := by
  refine reached_keeps ?_ stackBeneath seenBeneath id isReached
  intro above _ aboveBeneath next isNext
  rcases mem_successors.1 isNext with
    ⟨link, linkMember, source, rfl⟩ | ⟨node, nodeMember, parent, rfl⟩
  · obtain ⟨target, targetMember, named, parent, _⟩ := stems link linkMember
    rw [← named]
    exact Beneath.child targetMember (source ▸ parent) aboveBeneath
  · exact Beneath.child nodeMember parent aboveBeneath

/-- A removal that starts below the root reaches exactly the nodes beneath its
start. -/
theorem Coherent.mem_reached_iff
    (coherent : graph.Coherent)
    (stems : graph.Stems)
    (notRoot : top ≠ ⟨0⟩)
    {node : Node}
    (member : node ∈ graph.nodes) :
    node.id ∈ graph.reached [top] [] ↔ graph.Beneath top node.id := by
  constructor
  · apply stems.beneath_of_mem_reached
    · intro id isTop
      rw [List.mem_singleton] at isTop
      rw [isTop]
      exact Beneath.self
    · simp
  · intro beneath
    have closed := reached_closed graph top
    induction number : node.id.value using Nat.strongRecOn generalizing node with
    | _ bound inductionHypothesis =>
        rcases (coherent.beneath_node_iff member).1 beneath with
          rfl | ⟨parent, isParent, above⟩
        · apply mem_reached_of_mem_stack List.mem_cons_self
          rw [coherent.isRemovable_iff member]
          exact fun isRoot => notRoot (coherent.id_eq_of_isRoot member isRoot).1
        · have smaller := coherent.parent_lt member isParent
          obtain ⟨child, owner, ownerMember, rfl⟩ := coherent.exists_parent member isParent
          have parentReached :=
            inductionHypothesis owner.id.value (number ▸ smaller) ownerMember above rfl
          exact closed.successors owner.id parentReached node.id
            (mem_successors.2 (Or.inr ⟨node, member, isParent, rfl⟩))
            ((coherent.isRemovable_iff member).2 child)

/-! ## Prunings -/

/-- Some nodes have gone with all nodes beneath them, the others were changed in
place, and no link is new. -/
structure Prunes
    (change : Node → Node)
    (gone : NodeId → Prop)
    (before after : QueryGraph) : Prop where
  inPlace : Node.InPlace change
  nodes :
    ∀ node, node ∈ after.nodes ↔
      ∃ old ∈ before.nodes, (∀ top, gone top → ¬ before.Beneath top old.id) ∧ change old = node
  links : ∀ link ∈ after.links, link ∈ before.links
  nextId : after.nextId = before.nextId

namespace Prunes

variable {change : Node → Node} {gone : NodeId → Prop}

theorem refl (graph : QueryGraph) : Prunes (fun node => node) (fun _ => False) graph graph where
  inPlace := ⟨fun _ => rfl, fun _ => rfl, fun _ => rfl, fun _ => rfl, fun _ => rfl⟩
  nodes := by simp
  links := fun _ member => member
  nextId := rfl

theorem mem
    (prunes : Prunes change gone before after)
    {old : Node}
    (member : old ∈ before.nodes)
    (kept : ∀ top, gone top → ¬ before.Beneath top old.id) :
    change old ∈ after.nodes :=
  (prunes.nodes _).2 ⟨old, member, kept, rfl⟩

theorem isTarget
    (prunes : Prunes change gone before after)
    {id : NodeId}
    (isTarget : after.isTarget id = true) :
    before.isTarget id = true := by
  obtain ⟨link, member, target⟩ := List.any_eq_true.1 isTarget
  exact List.any_eq_true.2 ⟨link, prunes.links link member, target⟩

/-- A node whose parent stays goes only by itself. -/
theorem mem_child
    (prunes : Prunes change gone before after)
    (coherent : before.Coherent)
    {child : Node}
    (member : child ∈ before.nodes)
    {parent : NodeId}
    (isParent : child.parent = some parent)
    (parentKept : parent ∈ after.nodeIds)
    (stays : ¬ gone child.id) :
    change child ∈ after.nodes := by
  obtain ⟨kept, keptMember, named⟩ := mem_nodeIds.1 parentKept
  obtain ⟨old, oldMember, apart, rfl⟩ := (prunes.nodes kept).1 keptMember
  rw [prunes.inPlace.id] at named
  apply prunes.mem member
  intro top isGone beneath
  rcases (coherent.beneath_node_iff member).1 beneath with rfl | ⟨above, isAbove, beneathAbove⟩
  · exact stays isGone
  · rw [isParent] at isAbove
    injection isAbove with same
    exact apart top isGone (named ▸ same ▸ beneathAbove)

/-- Between nodes that stay the lines of descent are the same. -/
theorem beneath_iff
    (prunes : Prunes change gone before after)
    (coherent : before.Coherent)
    {old : Node}
    (member : old ∈ before.nodes)
    (kept : ∀ top, gone top → ¬ before.Beneath top old.id) :
    after.Beneath top old.id ↔ before.Beneath top old.id := by
  constructor
  · intro beneath
    generalize old.id = id at beneath
    induction beneath with
    | self => exact Beneath.self
    | child nodeMember isParent _ inductionHypothesis =>
        obtain ⟨node, wasMember, _, rfl⟩ := (prunes.nodes _).1 nodeMember
        rw [prunes.inPlace.parent] at isParent
        rw [prunes.inPlace.id]
        exact Beneath.child wasMember isParent inductionHypothesis
  · intro beneath
    induction number : old.id.value using Nat.strongRecOn generalizing old with
    | _ bound inductionHypothesis =>
        rcases (coherent.beneath_node_iff member).1 beneath with
          rfl | ⟨parent, isParent, above⟩
        · exact Beneath.self
        · have smaller := coherent.parent_lt member isParent
          obtain ⟨_, owner, ownerMember, rfl⟩ := coherent.exists_parent member isParent
          have ownerKept : ∀ top, gone top → ¬ before.Beneath top owner.id := by
            intro other isGone beneathOwner
            exact kept other isGone (Beneath.child member isParent beneathOwner)
          have aboveAfter := inductionHypothesis owner.id.value (number ▸ smaller) ownerMember
            ownerKept above rfl
          rw [← prunes.inPlace.id old]
          refine Beneath.child (prunes.mem member kept) ?_ aboveAfter
          rw [prunes.inPlace.parent]
          exact isParent

theorem congr
    (prunes : Prunes change gone before after)
    {otherChange : Node → Node}
    {otherGone : NodeId → Prop}
    (inPlace : Node.InPlace otherChange)
    (same : ∀ node ∈ before.nodes, otherChange node = change node)
    (goes : ∀ top, gone top ↔ otherGone top) :
    Prunes otherChange otherGone before after where
  inPlace := inPlace
  nodes := by
    intro node
    rw [prunes.nodes]
    constructor
    · rintro ⟨old, member, kept, rfl⟩
      exact ⟨old, member, fun top isGone => kept top ((goes top).2 isGone), same old member⟩
    · rintro ⟨old, member, kept, rfl⟩
      exact ⟨old, member, fun top isGone => kept top ((goes top).1 isGone), (same old member).symm⟩
  links := prunes.links
  nextId := prunes.nextId

/-- A node has gone exactly if it is beneath one that goes. -/
theorem not_mem_nodeIds_iff
    (prunes : Prunes change gone before after)
    (coherent : before.Coherent)
    {old : Node}
    (member : old ∈ before.nodes) :
    old.id ∉ after.nodeIds ↔ ∃ top, gone top ∧ before.Beneath top old.id := by
  constructor
  · intro missing
    by_contra stays
    apply missing
    have kept := prunes.mem member fun top isGone beneath => stays ⟨top, isGone, beneath⟩
    exact mem_nodeIds.2 ⟨_, kept, prunes.inPlace.id old⟩
  · rintro ⟨top, isGone, beneath⟩ known
    obtain ⟨node, nodeMember, named⟩ := mem_nodeIds.1 known
    obtain ⟨other, otherMember, kept, rfl⟩ := (prunes.nodes node).1 nodeMember
    rw [prunes.inPlace.id] at named
    rw [coherent.eq_of_id_eq otherMember member named] at kept
    exact kept top isGone beneath

theorem trans
    {laterChange : Node → Node}
    {laterGone : NodeId → Prop}
    (first : Prunes change gone before between)
    (second : Prunes laterChange laterGone between after)
    (coherent : before.Coherent) :
    Prunes (fun node => laterChange (change node)) (fun top => gone top ∨ laterGone top)
      before after where
  inPlace :=
    ⟨fun node => (second.inPlace.id _).trans (first.inPlace.id node),
      fun node => (second.inPlace.kind _).trans (first.inPlace.kind node),
      fun node => (second.inPlace.parent _).trans (first.inPlace.parent node),
      fun node => (second.inPlace.label _).trans (first.inPlace.label node),
      fun node => (second.inPlace.var _).trans (first.inPlace.var node)⟩
  nodes := by
    intro node
    rw [second.nodes]
    constructor
    · rintro ⟨middle, middleMember, middleKept, rfl⟩
      obtain ⟨old, member, kept, rfl⟩ := (first.nodes middle).1 middleMember
      refine ⟨old, member, ?_, rfl⟩
      rintro top (isGone | isGone) beneath
      · exact kept top isGone beneath
      · apply middleKept top isGone
        rw [first.inPlace.id]
        exact (first.beneath_iff coherent member kept).2 beneath
    · rintro ⟨old, member, kept, rfl⟩
      have keptFirst : ∀ top, gone top → ¬ before.Beneath top old.id :=
        fun top isGone => kept top (Or.inl isGone)
      refine ⟨change old, first.mem member keptFirst, ?_, rfl⟩
      intro top isGone beneath
      rw [first.inPlace.id] at beneath
      exact kept top (Or.inr isGone) ((first.beneath_iff coherent member keptFirst).1 beneath)
  links := fun link member => first.links link (second.links link member)
  nextId := second.nextId.trans first.nextId

end Prunes

/-! ## Single removals -/

/-- A change of one node in place. -/
theorem prunes_modifyNode
    {change : Node → Node}
    (inPlace : Node.InPlace change)
    (id : NodeId)
    (graph : QueryGraph) :
    Prunes (fun node => if node.id = id then change node else node) (fun _ => False) graph
      (graph.modifyNode id change) where
  inPlace := by simpa using inPlace.ite fun node => node.id = id
  nodes := by
    intro node
    simp [mem_modifyNode]
  links := fun _ member => member
  nextId := rfl

theorem prunes_dropLink
    (id : LinkId)
    (graph : QueryGraph) :
    Prunes (fun node => node) (fun _ => False) graph (graph.dropLink id) :=
  { Prunes.refl graph with links := fun _ member => (mem_dropLink.1 member).1 }

/-- Removing a node that no other is bound to. -/
theorem Coherent.prunes_removeSubtree
    (coherent : graph.Coherent)
    (stems : graph.Stems)
    (notRoot : top ≠ ⟨0⟩)
    (free : ∀ node ∈ graph.nodes, node.value ≠ some top) :
    Prunes (fun node => node) (fun other => other = top) graph (graph.removeSubtree top) where
  inPlace := (Prunes.refl graph).inPlace
  nodes := by
    intro node
    have stays : ∀ old ∈ graph.nodes, ¬ graph.Beneath top old.id →
        old.release (graph.reached [top] []) = old := by
      intro old member apart
      apply Node.release_eq_self
      intro value isReached bound
      obtain ⟨candidate, candidateMember, rfl, _, parent⟩ :=
        coherent.boundBelow old member value bound
      rw [coherent.mem_reached_iff stems notRoot candidateMember,
        coherent.beneath_node_iff candidateMember] at isReached
      rcases isReached with rfl | ⟨above, isParent, beneath⟩
      · exact free old member bound
      · rw [parent] at isParent
        injection isParent with same
        exact apart (same ▸ beneath)
    rw [QueryGraph.removeSubtree, mem_dropNodes]
    constructor
    · rintro ⟨old, member, kept, rfl⟩
      rw [coherent.mem_reached_iff stems notRoot member] at kept
      exact ⟨old, member, by simpa using kept, (stays old member kept).symm⟩
    · rintro ⟨old, member, kept, rfl⟩
      have apart := kept top rfl
      refine ⟨old, member, ?_, stays old member apart⟩
      rwa [coherent.mem_reached_iff stems notRoot member]
  links := fun _ member => (mem_dropNodes_links.1 member).1
  nextId := rfl

/-- A value is bound to one node at most. -/
theorem Coherent.eq_of_bound
    (coherent : graph.Coherent)
    {left right : Node}
    (leftMember : left ∈ graph.nodes)
    (rightMember : right ∈ graph.nodes)
    {value : NodeId}
    (leftBound : left.value = some value)
    (rightBound : right.value = some value) :
    left = right := by
  obtain ⟨bound, boundMember, rfl, _, parent⟩ :=
    coherent.boundBelow left leftMember value leftBound
  exact coherent.eq_of_parent leftMember rightMember parent
    (coherent.below_of_bound rightMember boundMember rightBound).2

/-- A node with a parent does not have the number of the root. -/
theorem Coherent.id_ne_zero
    (coherent : graph.Coherent)
    {node : Node}
    (member : node ∈ graph.nodes)
    {parent : NodeId}
    (isParent : node.parent = some parent) :
    node.id ≠ ⟨0⟩ := by
  intro first
  have smaller := coherent.parent_lt member isParent
  rw [first] at smaller
  exact Nat.not_lt_zero _ smaller

theorem Coherent.id_ne_parent
    (coherent : graph.Coherent)
    {node : Node}
    (member : node ∈ graph.nodes)
    {parent : NodeId}
    (isParent : node.parent = some parent) :
    node.id ≠ parent := by
  rintro rfl
  exact Nat.lt_irrefl _ (coherent.parent_lt member isParent)

/-- The link that leads to a node leaves its parent, and is a relationship unless
the node is a value. -/
theorem Grown.link_to
    (grown : graph.Grown)
    {link : Link}
    (member : link ∈ graph.links)
    {node : Node}
    (nodeMember : node ∈ graph.nodes)
    (target : link.target = node.id) :
    node.parent = some link.source ∧ (link.isRelation = false ↔ node.kind = .value) := by
  obtain ⟨other, otherMember, named, holds⟩ := grown.stems link member
  rwa [grown.eq_of_id_eq nodeMember otherMember (target.symm.trans named.symm)]

/-! ## Unlisting -/

/-- A value below a node that the node is not bound to. -/
def Spare (graph : QueryGraph) (owner : Node) (id : NodeId) : Prop :=
  owner.value ≠ some id ∧
    ∃ value ∈ graph.nodes, value.id = id ∧ value.kind = .value ∧ value.parent = some owner.id

/-- Spare values are those that a node lists and is not bound to. -/
theorem Grown.spare_iff
    (grown : graph.Grown)
    {owner : Node}
    (member : owner ∈ graph.nodes) :
    graph.Spare owner id ↔
      owner.value ≠ some id ∧ ∃ link ∈ graph.valueLinks owner.id, link.target = id := by
  constructor
  · rintro ⟨other, value, valueMember, rfl, isValue, parent⟩
    refine ⟨other, ?_⟩
    rcases grown.anchored value valueMember isValue with
      ⟨holder, holderMember, isHolder, bound⟩ | ⟨link, linkMember, target⟩
    · rw [grown.eq_of_parent holderMember member isHolder parent] at bound
      exact absurd bound other
    · obtain ⟨isParent, kind⟩ := grown.link_to linkMember valueMember target
      rw [parent] at isParent
      injection isParent with same
      have lists := Link.isRelation_eq_false_iff.1 (kind.2 isValue)
      exact ⟨link, List.mem_filter.2 ⟨linkMember, by simp [same, lists]⟩, target⟩
  · rintro ⟨other, link, listed, rfl⟩
    refine ⟨other, ?_⟩
    obtain ⟨linkMember, holds⟩ := List.mem_filter.1 listed
    simp only [Bool.and_eq_true, decide_eq_true_eq] at holds
    obtain ⟨value, valueMember, named, parent, kind⟩ := grown.stems link linkMember
    exact ⟨value, valueMember, named, kind.1 (Link.isRelation_eq_false_iff.2 holds.2),
      holds.1 ▸ parent⟩

theorem Coherent.removeListed
    (coherent : graph.Coherent)
    (bound : Option NodeId)
    (link : Link) :
    (graph.removeListed bound link).Coherent := by
  unfold QueryGraph.removeListed
  split
  · exact coherent.dropLink link.id
  · exact coherent.removeSubtree link.target

/-- Unlisting values takes those that are not bound, with what is beneath them. -/
theorem Coherent.prunes_foldl_removeListed
    (coherent : graph.Coherent)
    (stems : graph.Stems)
    (bound : Option NodeId)
    (listed : List Link)
    (free :
      ∀ link ∈ listed, bound ≠ some link.target →
        link.target ≠ ⟨0⟩ ∧ ∀ node ∈ graph.nodes, node.value ≠ some link.target) :
    Prunes (fun node => node)
      (fun top => bound ≠ some top ∧ ∃ link ∈ listed, link.target = top)
      graph (listed.foldl (QueryGraph.removeListed bound) graph) := by
  induction listed generalizing graph with
  | nil =>
      exact (Prunes.refl graph).congr (Prunes.refl graph).inPlace (fun _ _ => rfl) (by simp)
  | cons link rest inductionHypothesis =>
      have step : Prunes (fun node => node) (fun top => bound ≠ some top ∧ link.target = top) graph
          (graph.removeListed bound link) := by
        unfold QueryGraph.removeListed
        split
        · rename_i isBound
          refine (prunes_dropLink link.id graph).congr (Prunes.refl graph).inPlace
            (fun _ _ => rfl) ?_
          intro top
          simp only [false_iff, not_and]
          rintro other rfl
          exact other isBound
        · rename_i other
          obtain ⟨notRoot, unbound⟩ := free link List.mem_cons_self other
          refine (coherent.prunes_removeSubtree stems notRoot unbound).congr
            (Prunes.refl graph).inPlace (fun _ _ => rfl) ?_
          intro top
          constructor
          · rintro rfl
            exact ⟨other, rfl⟩
          · rintro ⟨_, rfl⟩
            rfl
      have others := inductionHypothesis (coherent.removeListed bound link)
        (stems.trim (Trims.removeListed bound link graph)) (by
          intro later member other
          obtain ⟨notRoot, unbound⟩ := free later (List.mem_cons_of_mem _ member) other
          refine ⟨notRoot, fun node nodeMember => ?_⟩
          obtain ⟨old, oldMember, _, rfl⟩ := (step.nodes node).1 nodeMember
          exact unbound old oldMember)
      refine (step.trans others coherent).congr (Prunes.refl graph).inPlace (fun _ _ => rfl) ?_
      intro top
      simp only [List.mem_cons, exists_eq_or_imp]
      exact and_or_left.symm

/-- The link to the bound value is dropped. -/
theorem not_mem_foldl_removeListed
    {bound : Option NodeId}
    {listed : List Link}
    {link : Link}
    (member : link ∈ listed)
    (isBound : bound = some link.target) :
    link ∉ (listed.foldl (QueryGraph.removeListed bound) graph).links := by
  induction listed generalizing graph with
  | nil => simp at member
  | cons head rest inductionHypothesis =>
      rcases List.mem_cons.1 member with rfl | later
      · intro kept
        have here := (Trims.foldl_removeListed bound rest _).links link kept
        rw [QueryGraph.removeListed, if_pos isBound] at here
        exact (mem_dropLink.1 here).2 rfl
      · exact inductionHypothesis later

/-- Unlisting the values of a node takes its spare values with what is beneath
them.  The node is not marked any more, and no link leads to its bound value. -/
theorem Grown.prunes_removeValues
    (grown : graph.Grown)
    {owner : Node}
    (member : owner ∈ graph.nodes)
    {count : Nat}
    (accepted : graph.removeValues owner.id = .ok (count, after)) :
    Prunes
        (fun node => if node.id = owner.id then { node with valueExpanded := false } else node)
        (graph.Spare owner) graph after ∧
      ∀ link ∈ after.links, owner.value ≠ some link.target := by
  have coherent := grown.toCoherent
  rw [coherent.removeValues_accepted member] at accepted
  injection accepted with same
  injection same with _ after_eq
  subst after_eq
  have free : ∀ link ∈ graph.valueLinks owner.id, owner.value ≠ some link.target →
      link.target ≠ ⟨0⟩ ∧ ∀ node ∈ graph.nodes, node.value ≠ some link.target := by
    intro link listed other
    obtain ⟨_, value, valueMember, named, _, parent⟩ :=
      (grown.spare_iff member).2 ⟨other, link, listed, rfl⟩
    rw [← named]
    refine ⟨coherent.id_ne_zero valueMember parent, ?_⟩
    intro node nodeMember bound
    have isParent := (coherent.below_of_bound nodeMember valueMember bound).2
    rw [coherent.eq_of_parent nodeMember member isParent parent, named] at bound
    exact other bound
  have pruned := coherent.prunes_foldl_removeListed grown.stems owner.value
    (graph.valueLinks owner.id) free
  have inPlace := Node.InPlace.setValueExpanded false
  have marked := prunes_modifyNode inPlace owner.id
    ((graph.valueLinks owner.id).foldl (QueryGraph.removeListed owner.value) graph)
  constructor
  · refine (pruned.trans marked coherent).congr marked.inPlace (fun _ _ => rfl) ?_
    intro top
    rw [or_false, grown.spare_iff member]
  · intro link kept bound
    have linkMember := pruned.links link kept
    obtain ⟨value, valueMember, named, isValue, parent⟩ :=
      coherent.boundBelow owner member link.target bound
    obtain ⟨isParent, kind⟩ := grown.link_to linkMember valueMember named.symm
    rw [parent] at isParent
    injection isParent with source
    have lists := Link.isRelation_eq_false_iff.1 (kind.2 isValue)
    exact not_mem_foldl_removeListed
      (List.mem_filter.2 ⟨linkMember, by simp [source, lists]⟩) bound kept

/-- A node is not beneath its own values. -/
theorem Coherent.not_beneath_spare
    (coherent : graph.Coherent)
    {owner : Node}
    (spare : graph.Spare owner top) :
    ¬ graph.Beneath top owner.id := by
  obtain ⟨_, value, valueMember, rfl, _, parent⟩ := spare
  intro beneath
  have smaller := coherent.parent_lt valueMember parent
  have larger := coherent.le_of_beneath beneath
  omega

theorem Grown.mem_removeValues
    (grown : graph.Grown)
    {owner : Node}
    (member : owner ∈ graph.nodes)
    {count : Nat}
    (accepted : graph.removeValues owner.id = .ok (count, after)) :
    { owner with valueExpanded := false } ∈ after.nodes := by
  have stays := (grown.prunes_removeValues member accepted).1.mem member fun top spare =>
    grown.toCoherent.not_beneath_spare spare
  rwa [if_pos rfl] at stays

/-- The value that the node is bound to stays. -/
theorem Grown.bound_mem_removeValues
    (grown : graph.Grown)
    {owner : Node}
    (member : owner ∈ graph.nodes)
    {count : Nat}
    (accepted : graph.removeValues owner.id = .ok (count, after))
    {value : Node}
    (valueMember : value ∈ graph.nodes)
    (bound : owner.value = some value.id) :
    value ∈ after.nodes := by
  have coherent := grown.toCoherent
  have parent := (coherent.below_of_bound member valueMember bound).2
  have ownerStays : owner.id ∈ after.nodeIds :=
    mem_nodeIds.2 ⟨_, grown.mem_removeValues member accepted, rfl⟩
  have stays := (grown.prunes_removeValues member accepted).1.mem_child coherent valueMember parent
    ownerStays fun spare => spare.1 bound
  rwa [if_neg (coherent.id_ne_parent valueMember parent)] at stays

/-- The node lists nothing any more. -/
theorem Grown.children_removeValues
    (grown : graph.Grown)
    {owner : Node}
    (member : owner ∈ graph.nodes)
    {count : Nat}
    (accepted : graph.removeValues owner.id = .ok (count, after)) :
    after.children owner.id .value = [] := by
  have coherent := grown.toCoherent
  obtain ⟨prunes, unbound⟩ := grown.prunes_removeValues member accepted
  have left := (grown.toWellFormed.removeValues accepted).toCoherent
  rw [children, List.map_eq_nil_iff, List.filter_eq_nil_iff]
  intro link kept isListed
  have listed : link ∈ graph.valueLinks owner.id :=
    List.mem_filter.2 ⟨prunes.links link kept, isListed⟩
  have spare : graph.Spare owner link.target :=
    (grown.spare_iff member).2 ⟨unbound link kept, link, listed, rfl⟩
  obtain ⟨_, value, valueMember, named, _⟩ := id spare
  apply (prunes.not_mem_nodeIds_iff coherent valueMember).2
    ⟨link.target, spare, named ▸ Beneath.self⟩
  rw [named]
  exact (left.linkEnds link kept).2

/-! ## Binding and unbinding -/

/-- Bind a node to another value or to none.  The value it was bound to goes
unless a link leads to it. -/
def rebind (owner : Node) (choice : Option NodeId) (graph : QueryGraph) : QueryGraph :=
  let bound := graph.modifyNode owner.id fun node => { node with value := choice }
  match owner.value with
  | some previous => if choice = some previous then bound else bound.dropDetached previous
  | none => bound

theorem bindValue_rebinds
    {node value : NodeId}
    (accepted : graph.bindValue node value = .ok after) :
    ∃ owner ∈ graph.nodes, ∃ candidate ∈ graph.nodes,
      owner.id = node ∧ candidate.id = value ∧ candidate.kind = .value ∧
        candidate.parent = some node ∧ after = graph.rebind owner (some value) := by
  obtain ⟨owner, member, candidate, candidateMember, rfl, named, isValue, parent, rfl⟩ :=
    bindValue_ok accepted
  refine ⟨owner, member, candidate, candidateMember, rfl, named, isValue, parent, ?_⟩
  unfold rebind dropPrevious
  cases owner.value with
  | none => rfl
  | some previous => simp [eq_comm]

/-- A pinned node is not unbound. -/
theorem Coherent.clearValue_rebinds
    (coherent : graph.Coherent)
    {node : NodeId}
    {cleared : Bool}
    (accepted : graph.clearValue node = .ok (cleared, after)) :
    after = graph ∨
      ∃ owner ∈ graph.nodes,
        owner.id = node ∧ owner.immutable = false ∧ after = graph.rebind owner none := by
  rcases clearValue_ok accepted with unchanged | ⟨owner, member, previous, rfl, bound, rebound⟩
  · exact Or.inl unchanged
  · cases pinned : owner.immutable with
    | false => exact Or.inr ⟨owner, member, rfl, pinned, by rw [rebound, rebind, bound]; rfl⟩
    | true =>
        rw [clearValue, coherent.node_of_mem member] at accepted
        simp only [bind, Except.bind, pinned, if_true, pure, Except.pure] at accepted
        injection accepted with same
        injection same with _ after_eq
        exact Or.inl after_eq.symm

/-- The node is changed in place, and the value it was bound to goes with what is
beneath it, unless a link leads to it. -/
theorem Grown.prunes_rebind
    (grown : graph.Grown)
    {owner : Node}
    (member : owner ∈ graph.nodes)
    (choice : Option NodeId)
    (below :
      ∀ id, choice = some id →
        ∃ candidate ∈ graph.nodes,
          candidate.id = id ∧ candidate.kind = .value ∧ candidate.parent = some owner.id) :
    Prunes (fun node => if node.id = owner.id then { node with value := choice } else node)
      (fun top => owner.value = some top ∧ choice ≠ some top ∧ graph.isTarget top = false)
      graph (graph.rebind owner choice) := by
  have coherent := grown.toCoherent
  have inPlace := Node.InPlace.setValue choice
  have binds := prunes_modifyNode inPlace owner.id graph
  unfold rebind
  cases bound : owner.value with
  | none => exact binds.congr binds.inPlace (fun _ _ => rfl) (by simp)
  | some previous =>
      simp only
      split
      · rename_i same
        exact binds.congr binds.inPlace (fun _ _ => rfl) (by simp [same])
      · rename_i other
        unfold dropDetached
        split
        · rename_i isTarget
          have linked : graph.isTarget previous = true := isTarget
          refine binds.congr binds.inPlace (fun _ _ => rfl) ?_
          simp only [false_iff, not_and, Option.some.injEq]
          rintro top rfl _
          simp [linked]
        · rename_i unlinked
          have detached : graph.isTarget previous = false := Bool.eq_false_iff.2 unlinked
          obtain ⟨value, valueMember, rfl, _, parent⟩ :=
            coherent.boundBelow owner member previous bound
          have drops := Coherent.prunes_removeSubtree (coherent.setValue owner.id choice below)
            (grown.stems.trim (Trims.modifyNode inPlace owner.id graph))
            (coherent.id_ne_zero valueMember parent) (by
              intro node nodeMember isBound
              obtain ⟨old, oldMember, rfl⟩ := mem_modifyNode.1 nodeMember
              split at isBound
              · exact other isBound
              · rename_i apart
                exact apart (by rw [coherent.eq_of_bound oldMember member isBound bound]))
          refine (binds.trans drops coherent).congr binds.inPlace (fun _ _ => rfl) ?_
          intro top
          rw [false_or, Option.some.injEq]
          constructor
          · rintro rfl
            exact ⟨rfl, other, detached⟩
          · rintro ⟨rfl, _⟩
            rfl

/-- Binding takes the value bound before, unless a link leads to it. -/
theorem Grown.prunes_bindValue
    (grown : graph.Grown)
    {owner : Node}
    (member : owner ∈ graph.nodes)
    {value : NodeId}
    (accepted : graph.bindValue owner.id value = .ok after) :
    Prunes (fun node => if node.id = owner.id then { node with value := some value } else node)
      (fun top => owner.value = some top ∧ some value ≠ some top ∧ graph.isTarget top = false)
      graph after := by
  obtain ⟨same, sameMember, candidate, candidateMember, named, candidateNamed, isValue, parent,
    rfl⟩ := bindValue_rebinds accepted
  rw [grown.eq_of_id_eq sameMember member named]
  apply grown.prunes_rebind member
  rintro id isChoice
  injection isChoice with isNamed
  exact ⟨candidate, candidateMember, candidateNamed.trans isNamed, isValue, parent⟩

/-- The node that is bound stays, since it is not beneath its own values. -/
theorem Grown.mem_bindValue
    (grown : graph.Grown)
    {owner : Node}
    (member : owner ∈ graph.nodes)
    {value : NodeId}
    (accepted : graph.bindValue owner.id value = .ok after) :
    { owner with value := some value } ∈ after.nodes := by
  have coherent := grown.toCoherent
  have stays := (grown.prunes_bindValue member accepted).mem member (by
    rintro top ⟨bound, _⟩ beneath
    obtain ⟨previous, previousMember, rfl, _, isParent⟩ :=
      coherent.boundBelow owner member top bound
    have smaller := coherent.parent_lt previousMember isParent
    have larger := coherent.le_of_beneath beneath
    omega)
  rwa [if_pos rfl] at stays

/-! ## Relationships -/

/-- A relationship leads to a term. -/
theorem Grown.exists_term
    (grown : graph.Grown)
    {link : Link}
    (member : link ∈ graph.links)
    (isRelation : link.isRelation = true) :
    ∃ target ∈ graph.nodes,
      target.id = link.target ∧ target.parent = some link.source ∧ target.kind ≠ .value := by
  obtain ⟨target, targetMember, named, parent, kind⟩ := grown.stems link member
  refine ⟨target, targetMember, named, parent, fun isValue => ?_⟩
  rw [kind.2 isValue] at isRelation
  cases isRelation

/-- Removing a relationship takes the term it leads to with what is beneath it. -/
theorem Grown.prunes_relation
    (grown : graph.Grown)
    {link : Link}
    (member : link ∈ graph.links)
    (isRelation : link.isRelation = true)
    (accepted : graph.removeLink link.id = .ok after) :
    Prunes (fun node => node) (fun top => top = link.target) graph after := by
  have coherent := grown.toCoherent
  obtain ⟨found, foundMember, named, rfl⟩ := removeLink_ok accepted
  obtain rfl := coherent.eq_of_link_id_eq foundMember member named
  obtain ⟨target, targetMember, targetNamed, parent, isTerm⟩ :=
    grown.exists_term member isRelation
  rw [← targetNamed]
  have removes := Coherent.prunes_removeSubtree (coherent.dropLink found.id)
    (grown.stems.trim (Trims.dropLink found.id graph)) (coherent.id_ne_zero targetMember parent) (by
      intro node nodeMember bound
      exact isTerm (coherent.below_of_bound nodeMember targetMember bound).1)
  exact ((prunes_dropLink found.id graph).trans removes coherent).congr removes.inPlace
    (fun _ _ => rfl) (by simp)

/-- The same for a number that only relationships may bear. -/
theorem Grown.prunes_removeLink
    (grown : graph.Grown)
    {link : LinkId}
    (isRelation : ∀ found ∈ graph.links, found.id = link → found.isRelation = true)
    (accepted : graph.removeLink link = .ok after) :
    ∃ target ∈ graph.nodes,
      target.kind ≠ .value ∧
        Prunes (fun node => node) (fun top => top = target.id) graph after := by
  obtain ⟨found, member, rfl, _⟩ := removeLink_ok accepted
  have relation := isRelation found member rfl
  obtain ⟨target, targetMember, named, _, isTerm⟩ := grown.exists_term member relation
  refine ⟨target, targetMember, isTerm, ?_⟩
  rw [named]
  exact grown.prunes_relation member relation accepted

end QueryGraph
end VisualQuery
