import VisualQuery.Proofs.Graph.Handling
import VisualQuery.Proofs.Graph.Loading

/-!
# Values left below a node

A schema binds a node to a value and lists the value as well.  While that link is
there the value outlives its binding, so unbinding the node leaves it.  Every
other value below a node whose values are not on display is bound to it.
-/

namespace VisualQuery
namespace QueryGraph

variable {loaded graph before after : QueryGraph}

/-! ## Graphs as they are loaded -/

/-- Every value is bound to the node it hangs below, every bound value is listed,
and no values are on display. -/
structure Laid (graph : QueryGraph) : Prop where
  held : ∀ value ∈ graph.nodes, value.kind = .value → graph.Held value
  linked : ∀ node ∈ graph.nodes, ∀ value, node.value = some value → graph.isTarget value = true
  unmarked : ∀ node ∈ graph.nodes, node.valueExpanded = false

theorem isTarget_append
    {id : NodeId}
    (isTarget : before.isTarget id = true)
    {links : List Link}
    (grown : after.links = before.links ++ links) :
    after.isTarget id = true := by
  unfold QueryGraph.isTarget at isTarget ⊢
  rw [grown, List.any_append, isTarget, Bool.true_or]

namespace Laid

theorem of_root
    {root : Node}
    (nodes : graph.nodes = [root])
    (isTerm : root.kind ≠ .value)
    (unbound : root.value = none)
    (unmarked : root.valueExpanded = false) :
    graph.Laid := by
  have only : ∀ node ∈ graph.nodes, node = root := by
    intro node member
    rwa [nodes, List.mem_singleton] at member
  constructor
  · intro value member isValue
    exact absurd (only value member ▸ isValue) isTerm
  · intro node member value bound
    rw [only node member, unbound] at bound
    cases bound
  · intro node member
    rw [only node member]
    exact unmarked

theorem addRelationship
    (laid : before.Laid)
    {parent child : NodeId}
    {relationship label : String}
    {isGroup : Bool}
    (accepted :
      before.addRelationship parent relationship label isGroup = .ok (child, after)) :
    after.Laid := by
  obtain ⟨between, link, added, linked⟩ := addRelationship_ok accepted
  obtain ⟨_, rfl, rfl⟩ := addNode_ok added
  obtain ⟨_, _, rfl⟩ := addLink_ok linked
  constructor
  · intro value member isValue
    rcases List.mem_append.1 member with old | new
    · exact (laid.held value old isValue).mono fun _ => List.mem_append_left _
    · rw [List.mem_singleton] at new
      exact absurd (new ▸ isValue) (kind_freshTerm_ne_value parent label isGroup)
  · intro node member value bound
    rcases List.mem_append.1 member with old | new
    · exact isTarget_append (laid.linked node old value bound) rfl
    · rw [List.mem_singleton] at new
      rw [new] at bound
      cases bound
  · intro node member
    rcases List.mem_append.1 member with old | new
    · exact laid.unmarked node old
    · rw [List.mem_singleton] at new
      rw [new]
      rfl

/-- A new value is bound and listed at once. -/
theorem addBound
    (laid : graph.Laid)
    (coherent : graph.Coherent)
    {owner : Node}
    (member : owner ∈ graph.nodes)
    (unbound : owner.value = none)
    (lists : owner.kind.listsValues = true)
    (attributes : Row) :
    ((graph.withListed owner attributes).modifyNode owner.id fun node =>
      { node with value := some ⟨graph.nextId⟩ }).Laid := by
  have owned : owner ∈ (graph.withListed owner attributes).nodes := List.mem_append_left _ member
  constructor
  · intro value valueMember isValue
    obtain ⟨old, oldMember, rfl⟩ := mem_modifyNode.1 valueMember
    rcases List.mem_append.1 oldMember with was | new
    · -- An old value is held by a node that is bound, and so not by the owner.
      have apart : old.id ≠ owner.id := by
        intro named
        rw [coherent.eq_of_id_eq was member named, if_pos rfl] at isValue
        rw [show owner.kind = .value from isValue] at lists
        cases lists
      rw [if_neg apart] at isValue ⊢
      obtain ⟨holder, holderMember, parent, bound⟩ := laid.held old was isValue
      have other : holder.id ≠ owner.id := by
        intro named
        rw [coherent.eq_of_id_eq holderMember member named, unbound] at bound
        cases bound
      exact ⟨holder, mem_modifyNode.2 ⟨holder, List.mem_append_left _ holderMember, if_neg other⟩,
        parent, bound⟩
    · rw [List.mem_singleton] at new
      have apart : old.id ≠ owner.id := by
        intro named
        rw [new] at named
        exact coherent.nextId_not_mem (mem_nodeIds.2 ⟨owner, member, named.symm⟩)
      rw [if_neg apart, new]
      exact ⟨_, mem_modifyNode.2 ⟨owner, owned, if_pos rfl⟩, rfl, rfl⟩
  · intro node nodeMember value bound
    obtain ⟨old, oldMember, rfl⟩ := mem_modifyNode.1 nodeMember
    split at bound
    · injection bound with same
      simp [QueryGraph.isTarget, QueryGraph.modifyNode, withListed, same]
    · rcases List.mem_append.1 oldMember with was | new
      · exact isTarget_append (laid.linked old was value bound) rfl
      · rw [List.mem_singleton] at new
        rw [new] at bound
        cases bound
  · intro node nodeMember
    obtain ⟨old, oldMember, rfl⟩ := mem_modifyNode.1 nodeMember
    have unmarked : old.valueExpanded = false := by
      rcases List.mem_append.1 oldMember with was | new
      · exact laid.unmarked old was
      · rw [List.mem_singleton] at new
        rw [new]
        rfl
    split <;> exact unmarked

theorem setImmutable
    (laid : graph.Laid)
    (id : NodeId)
    (immutable : Bool) :
    (graph.modifyNode id fun node => { node with immutable }).Laid := by
  have inPlace := (Node.InPlace.setImmutable immutable).ite fun node => node.id = id
  constructor
  · intro value member isValue
    rw [modifyNode_eq_mapNodes] at member ⊢
    obtain ⟨old, oldMember, rfl⟩ := mem_mapNodes.1 member
    rw [inPlace.kind] at isValue
    apply (laid.held old oldMember isValue).mapNodes_of_value inPlace
    intro node
    split <;> rfl
  · intro node member value bound
    obtain ⟨old, oldMember, rfl⟩ := mem_modifyNode.1 member
    apply laid.linked old oldMember value
    split at bound <;> exact bound
  · intro node member
    obtain ⟨old, oldMember, rfl⟩ := mem_modifyNode.1 member
    split <;> exact laid.unmarked old oldMember

end Laid

theorem upheld_laid : Upheld Laid where
  relationship := fun _ accepted laid => laid.addRelationship accepted
  value := by
    intro graph id value wellFormed unbound laid
    cases value with
    | none => exact laid
    | some attributes =>
        cases outcome : graph.addValue id attributes with
        | error error =>
            have refused : Step.perform (addOptional id (some attributes)) graph =
                (.error error, graph) :=
              Step.perform_bind_error (Step.perform_atomic_error outcome)
            rw [Step.after, refused]
            exact laid
        | ok made =>
            obtain ⟨owner, member, _, rfl, lists, _⟩ := addValue_ok outcome
            have ownerUnbound := unbound owner member rfl
            rw [Step.after, perform_addOptional wellFormed member ownerUnbound lists attributes]
            exact laid.addBound wellFormed.toCoherent member ownerUnbound lists attributes
  pin := by
    intro graph id immutable _ laid
    refine Step.atomicUnit_property laid ?_
    intro after accepted
    rw [setImmutable_ok accepted]
    exact laid.setImmutable id immutable

/-- What a schema builds from nothing is laid, refused or not. -/
theorem laid_addSchema (schema : NodeSchema) : ((addSchema schema).after .empty).Laid := by
  have nothing : empty.Laid := ⟨by simp [empty], by simp [empty], by simp [empty]⟩
  refine (addSchema_upholds upheld_laid schema wellFormed_empty nothing ?_).2
  intro root reached accepted
  obtain ⟨_, pushed⟩ := addRoot_ok accepted
  rw [pushRoot_eq] at pushed
  injection pushed with _ same
  subst same
  have rooted : (freshRoot schema.label .empty).kind ≠ .value := by simp [freshRoot]
  exact Laid.of_root rfl rooted rfl rfl

/-! ## Values below nodes that are not on display -/

/-- A node with a number is bound to a value. -/
def Binds (graph : QueryGraph) (id value : NodeId) : Prop :=
  ∃ node ∈ graph.nodes, node.id = id ∧ node.value = some value

/-- If the values of a node are not on display, each of them is bound to the
node, or it was when the graph was loaded and the node, which is not pinned, is
unbound.  In the first case a link leads to it only if it was bound before. -/
structure TidyAt (loaded graph : QueryGraph) (node : Node) : Prop where
  below :
    ∀ value ∈ graph.nodes, value.kind = .value → value.parent = some node.id →
      node.value = some value.id ∨
        node.value = none ∧ node.immutable = false ∧ loaded.Binds node.id value.id
  linked :
    ∀ value, node.value = some value → graph.isTarget value = true →
      loaded.Binds node.id value

/-- Every node whose values are not on display is tidy. -/
def Tidy (loaded graph : QueryGraph) : Prop :=
  ∀ node ∈ graph.nodes, node.valueExpanded = false → loaded.TidyAt graph node

theorem Laid.tidy
    (laid : graph.Laid)
    (coherent : graph.Coherent) :
    graph.Tidy graph := by
  intro node member _
  constructor
  · intro value valueMember isValue parent
    obtain ⟨owner, ownerMember, isParent, bound⟩ := laid.held value valueMember isValue
    rw [coherent.eq_of_parent member ownerMember parent isParent]
    exact Or.inl bound
  · intro value bound _
    exact ⟨node, member, rfl, bound⟩

namespace TidyAt

variable {node owner : Node}

/-- Nothing new hangs from a node, and no link is new. -/
theorem prune
    (tidy : loaded.TidyAt before node)
    {change : Node → Node}
    {gone : NodeId → Prop}
    (prunes : Prunes change gone before after)
    (sameValue : (change node).value = node.value)
    (samePin : (change node).immutable = node.immutable) :
    loaded.TidyAt after (change node) where
  below := by
    intro value valueMember isValue parent
    obtain ⟨old, oldMember, _, rfl⟩ := (prunes.nodes value).1 valueMember
    rw [prunes.inPlace.kind] at isValue
    rw [prunes.inPlace.parent, prunes.inPlace.id] at parent
    rw [sameValue, samePin, prunes.inPlace.id, prunes.inPlace.id]
    exact tidy.below old oldMember isValue parent
  linked := by
    intro value bound isTarget
    rw [sameValue] at bound
    rw [prunes.inPlace.id]
    exact tidy.linked value bound (prunes.isTarget isTarget)

/-- What is new hangs from other nodes. -/
theorem extend
    (tidy : loaded.TidyAt before node)
    (coherent : before.Coherent)
    (member : node ∈ before.nodes)
    {made : List Node}
    {links : List Link}
    (nodes : after.nodes = before.nodes ++ made)
    (linked : after.links = before.links ++ links)
    (elsewhere : ∀ value ∈ made, value.kind = .value → value.parent ≠ some node.id)
    (fresh : ∀ link ∈ links, before.nextId ≤ link.target.value) :
    loaded.TidyAt after node where
  below := by
    intro value valueMember isValue parent
    rw [nodes] at valueMember
    rcases List.mem_append.1 valueMember with old | new
    · exact tidy.below value old isValue parent
    · exact absurd parent (elsewhere value new isValue)
  linked := by
    intro value bound isTarget
    obtain ⟨link, linkMember, target⟩ := List.any_eq_true.1 isTarget
    rw [linked] at linkMember
    rcases List.mem_append.1 linkMember with old | new
    · exact tidy.linked value bound (List.any_eq_true.2 ⟨link, old, target⟩)
    · obtain ⟨chosen, chosenMember, rfl, _⟩ := coherent.boundBelow node member value bound
      have later := fresh link new
      have numbered := coherent.nodesBelow chosen chosenMember
      rw [of_decide_eq_true target] at later
      omega

/-- Nothing hangs from a node that lists no values. -/
theorem of_listsNone
    (coherent : graph.Coherent)
    (member : node ∈ graph.nodes)
    (listsNone : node.kind.listsValues = false) :
    loaded.TidyAt graph node := by
  have noValue : ∀ value ∈ graph.nodes, value.kind = .value → value.parent ≠ some node.id := by
    intro value valueMember isValue parent
    rw [coherent.lists_of_value member valueMember isValue parent] at listsNone
    cases listsNone
  constructor
  · intro value valueMember isValue parent
    exact absurd parent (noValue value valueMember isValue)
  · intro value bound _
    obtain ⟨chosen, chosenMember, _, isValue, parent⟩ := coherent.boundBelow node member value bound
    exact absurd parent (noValue chosen chosenMember isValue)

/-- Values that are unlisted are gone, apart from the bound one, to which no link
leads any more. -/
theorem unlist
    (grown : before.Grown)
    (member : owner ∈ before.nodes)
    {count : Nat}
    (accepted : before.removeValues owner.id = .ok (count, after)) :
    loaded.TidyAt after { owner with valueExpanded := false } := by
  obtain ⟨prunes, unlinked⟩ := grown.prunes_removeValues member accepted
  constructor
  · intro value valueMember isValue parent
    obtain ⟨old, oldMember, kept, rfl⟩ := (prunes.nodes value).1 valueMember
    rw [prunes.inPlace.kind] at isValue
    rw [prunes.inPlace.parent] at parent
    rw [prunes.inPlace.id]
    by_contra other
    exact kept old.id ⟨fun bound => other (Or.inl bound), old, oldMember, rfl, isValue, parent⟩
      Beneath.self
  · intro value bound isTarget
    obtain ⟨link, linkMember, target⟩ := List.any_eq_true.1 isTarget
    exact absurd ((of_decide_eq_true target) ▸ bound) (unlinked link linkMember)

/-- A node can only be bound to the value that is below it anyway. -/
theorem bind
    (loadedCoherent : loaded.Coherent)
    (grown : before.Grown)
    (member : owner ∈ before.nodes)
    (tidy : loaded.TidyAt before owner)
    {candidate : Node}
    (candidateMember : candidate ∈ before.nodes)
    (isValue : candidate.kind = .value)
    (parent : candidate.parent = some owner.id) :
    loaded.TidyAt (before.rebind owner (some candidate.id))
      { owner with value := some candidate.id } := by
  have prunes := grown.prunes_rebind member (some candidate.id) fun id same => by
    injection same with same
    exact ⟨candidate, candidateMember, same, isValue, parent⟩
  have chosen := tidy.below candidate candidateMember isValue parent
  constructor
  · intro value valueMember isValueToo isParent
    obtain ⟨old, oldMember, _, rfl⟩ := (prunes.nodes value).1 valueMember
    rw [prunes.inPlace.kind] at isValueToo
    rw [prunes.inPlace.parent] at isParent
    rw [prunes.inPlace.id]
    refine Or.inl ?_
    rcases tidy.below old oldMember isValueToo isParent with bound | ⟨unbound, _, wasBound⟩ <;>
      rcases chosen with chosenBound | ⟨chosenUnbound, _, chosenWasBound⟩
    · exact chosenBound.symm.trans bound
    · rw [chosenUnbound] at bound
      cases bound
    · rw [unbound] at chosenBound
      cases chosenBound
    · obtain ⟨left, leftMember, leftNamed, leftBound⟩ := wasBound
      obtain ⟨right, rightMember, rightNamed, rightBound⟩ := chosenWasBound
      rw [loadedCoherent.eq_of_id_eq leftMember rightMember (leftNamed.trans rightNamed.symm),
        rightBound] at leftBound
      exact leftBound
  · intro value bound isTarget
    injection bound with same
    subst same
    rcases chosen with chosenBound | ⟨_, _, wasBound⟩
    · exact tidy.linked candidate.id chosenBound (prunes.isTarget isTarget)
    · exact wasBound

/-- Unbinding leaves the value exactly if a link leads to it. -/
theorem clear
    (grown : before.Grown)
    (member : owner ∈ before.nodes)
    (unpinned : owner.immutable = false)
    (tidy : loaded.TidyAt before owner) :
    loaded.TidyAt (before.rebind owner none) { owner with value := none } := by
  have prunes := grown.prunes_rebind member none (by simp)
  constructor
  · intro value valueMember isValue parent
    obtain ⟨old, oldMember, kept, rfl⟩ := (prunes.nodes value).1 valueMember
    rw [prunes.inPlace.kind] at isValue
    rw [prunes.inPlace.parent] at parent
    rw [prunes.inPlace.id]
    refine Or.inr ⟨rfl, unpinned, ?_⟩
    rcases tidy.below old oldMember isValue parent with bound | ⟨_, _, wasBound⟩
    · apply tidy.linked old.id bound
      by_contra unlinked
      exact kept old.id ⟨bound, by simp, by simpa using unlinked⟩ Beneath.self
    · exact wasBound
  · intro value bound _
    cases bound

end TidyAt

namespace Tidy

/-- Nodes are changed in place or go, and only the changed node has to be looked
at. -/
theorem prune
    (tidy : loaded.Tidy before)
    (coherent : before.Coherent)
    {owner : Node}
    (member : owner ∈ before.nodes)
    {change : Node → Node}
    {gone : NodeId → Prop}
    (prunes :
      Prunes (fun node => if node.id = owner.id then change node else node) gone before after)
    (changed :
      (change owner).valueExpanded = false → loaded.TidyAt after (change owner)) :
    loaded.Tidy after := by
  intro node nodeMember unmarked
  obtain ⟨old, oldMember, _, rfl⟩ := (prunes.nodes node).1 nodeMember
  by_cases named : old.id = owner.id
  · rw [coherent.eq_of_id_eq oldMember member named, if_pos rfl] at unmarked ⊢
    exact changed unmarked
  · have kept := (tidy old oldMember (by rwa [if_neg named] at unmarked)).prune prunes
    rw [if_neg named] at kept ⊢
    exact kept rfl rfl

/-- The values of a page hang from a node that is marked. -/
theorem exhibit
    (tidy : loaded.Tidy before)
    (grown : before.Grown)
    {owner : Node}
    (member : owner ∈ before.nodes)
    {rows : List Row}
    (lists : rows = [] ∨ owner.kind.listsValues = true) :
    loaded.Tidy (before.withShown owner rows) := by
  obtain ⟨made, links, nodes, linked, _, values, targets⟩ := withRows_grows owner rows before
  have shownCoherent := (grown.withRows member rows lists).toCoherent
  have prunes := prunes_modifyNode (Node.InPlace.setValueExpanded true) owner.id
    (before.withRows owner rows)
  intro node nodeMember unmarked
  obtain ⟨old, oldMember, _, rfl⟩ := (prunes.nodes node).1 nodeMember
  -- The node whose values are shown is marked, so it is another one.
  have other : old.id ≠ owner.id := by
    intro named
    rw [if_pos named] at unmarked
    cases unmarked
  rw [if_neg other] at unmarked
  have hidden : loaded.TidyAt (before.withRows owner rows) old := by
    rw [nodes] at oldMember
    rcases List.mem_append.1 oldMember with was | new
    · refine (tidy old was unmarked).extend grown.toCoherent was nodes linked ?_ targets
      intro value isNew _ parent
      rw [(values value isNew).2.2] at parent
      injection parent with same
      exact other same.symm
    · exact TidyAt.of_listsNone shownCoherent (nodes ▸ oldMember)
        (by rw [(values old new).2.1]; rfl)
  have kept := hidden.prune prunes
  rw [if_neg other] at kept ⊢
  exact kept rfl rfl

/-- Nothing hangs from a term that was just added, and it is no value itself. -/
theorem relate
    (tidy : loaded.Tidy before)
    (coherent : before.Coherent)
    {parent child : NodeId}
    {relationship label : String}
    {isGroup : Bool}
    (accepted : before.addRelationship parent relationship label isGroup = .ok (child, after)) :
    loaded.Tidy after := by
  obtain ⟨between, link, added, linked⟩ := addRelationship_ok accepted
  obtain ⟨_, rfl, rfl⟩ := addNode_ok added
  obtain ⟨_, _, rfl⟩ := addLink_ok linked
  have isTerm : (before.freshTerm parent label isGroup).kind ≠ .value :=
    kind_freshTerm_ne_value parent label isGroup
  intro node nodeMember unmarked
  rcases List.mem_append.1 nodeMember with was | new
  · refine (tidy node was unmarked).extend coherent was rfl rfl ?_ (by simp)
    intro value isNew isValue
    rw [List.mem_singleton] at isNew
    exact absurd (isNew ▸ isValue) isTerm
  · rw [List.mem_singleton] at new
    subst new
    constructor
    · intro value valueMember isValue isParent
      rcases List.mem_append.1 valueMember with old | fresh
      · obtain ⟨_, owner, ownerMember, named⟩ := coherent.exists_parent old isParent
        exact absurd (mem_nodeIds.2 ⟨owner, ownerMember, named⟩) coherent.nextId_not_mem
      · rw [List.mem_singleton] at fresh
        exact absurd (fresh ▸ isValue) isTerm
    · intro value bound _
      cases bound

/-- Every move keeps a graph tidy. -/
theorem handles
    (tidy : loaded.Tidy before)
    (loadedCoherent : loaded.Coherent)
    (handles : Handles before after)
    (grown : before.Grown) :
    loaded.Tidy after := by
  have coherent := grown.toCoherent
  cases handles with
  | note id change unmarked =>
      by_cases known : id ∈ before.nodeIds
      · obtain ⟨owner, member, rfl⟩ := mem_nodeIds.1 known
        have prunes := prunes_modifyNode (Node.InPlace.note change) owner.id before
        apply tidy.prune coherent member prunes
        intro hidden
        have kept := (tidy owner member ((unmarked owner.notes).symm.trans hidden)).prune prunes
        rw [if_pos rfl] at kept
        exact kept rfl rfl
      · have unchanged : (before.modifyNode id fun node => node.withNotes (change node.notes)) =
            before := by
          rw [modifyNode_eq_self_iff]
          intro node member named
          exact absurd (mem_nodeIds.2 ⟨node, member, named⟩) known
        rwa [unchanged]
  | unlist member accepted =>
      exact tidy.prune coherent member (grown.prunes_removeValues member accepted).1 fun _ =>
        TidyAt.unlist grown member accepted
  | exhibit member lists => exact tidy.exhibit grown member lists
  | relate accepted => exact tidy.relate coherent accepted
  | bind member unpinned accepted =>
      obtain ⟨owner, ownerMember, candidate, candidateMember, named, rfl, isValue, parent, rfl⟩ :=
        bindValue_rebinds accepted
      rw [← named] at parent
      apply tidy.prune coherent ownerMember (grown.prunes_rebind ownerMember (some candidate.id) ?_)
      · intro unmarked
        exact (tidy owner ownerMember unmarked).bind loadedCoherent grown ownerMember
          candidateMember isValue parent
      · intro id same
        injection same with same
        exact ⟨candidate, candidateMember, same, isValue, parent⟩
  | clear accepted =>
      rcases coherent.clearValue_rebinds accepted with rfl | ⟨owner, member, _, unpinned, rfl⟩
      · exact tidy
      · apply tidy.prune coherent member (grown.prunes_rebind member none (by simp))
        intro unmarked
        exact (tidy owner member unmarked).clear grown member unpinned
  | unlink isRelation accepted =>
      obtain ⟨_, _, _, prunes⟩ := grown.prunes_removeLink isRelation accepted
      intro node nodeMember unmarked
      obtain ⟨old, oldMember, _, rfl⟩ := (prunes.nodes node).1 nodeMember
      exact (tidy old oldMember unmarked).prune prunes rfl rfl

end Tidy

end QueryGraph
end VisualQuery
