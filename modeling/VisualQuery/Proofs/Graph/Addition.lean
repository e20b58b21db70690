import VisualQuery.Proofs.Graph.Coherence

/-!
# Growing a coherent graph

Every edit that adds to a graph appends nodes and links under fresh numbers,
and appending keeps a graph coherent.
-/

namespace VisualQuery
namespace QueryGraph

variable {graph : QueryGraph}

namespace Coherent

/-- Append a node under the next number and below a node of the graph. -/
theorem appendNode
    (coherent : graph.Coherent)
    (made : Node)
    {owner : Node}
    (numbered : made.id = ⟨graph.nextId⟩)
    (kind : made.kind ≠ .root)
    (unbound : made.value = none)
    (member : owner ∈ graph.nodes)
    (parent : made.parent = some owner.id)
    (lists : made.kind = .value → owner.kind.listsValues = true) :
    Coherent { graph with nodes := graph.nodes ++ [made], nextId := graph.nextId + 1 } where
  nodesOrdered := by
    refine List.pairwise_append.2 ⟨coherent.nodesOrdered, List.pairwise_singleton _ _, ?_⟩
    intro earlier earlierMember later laterMember
    rw [List.mem_singleton] at laterMember
    subst laterMember
    rw [numbered]
    exact coherent.nodesBelow earlier earlierMember
  linksOrdered := coherent.linksOrdered
  nodesBelow := by
    intro node nodeMember
    rcases List.mem_append.1 nodeMember with old | new
    · have below := coherent.nodesBelow node old
      show node.id.value < graph.nextId + 1
      omega
    · rw [List.mem_singleton] at new
      subst new
      rw [numbered]
      exact Nat.lt_succ_self _
  linksBelow := by
    intro link linkMember
    have below := coherent.linksBelow link linkMember
    show link.id.value < graph.nextId + 1
    omega
  numbersDisjoint := by
    intro node nodeMember link linkMember
    rcases List.mem_append.1 nodeMember with old | new
    · exact coherent.numbersDisjoint node old link linkMember
    · rw [List.mem_singleton] at new
      subst new
      rw [numbered]
      have below := coherent.linksBelow link linkMember
      exact Nat.ne_of_gt below
  freshWhenEmpty := by simp
  rootFirst := by
    intro first rest split
    cases nodes_eq : graph.nodes with
    | nil => rw [nodes_eq] at member; simp at member
    | cons head tail =>
        rw [nodes_eq, List.cons_append] at split
        injection split with head_eq tail_eq
        subst head_eq tail_eq
        obtain ⟨headKind, headId, headParent, others⟩ := coherent.rootFirst head tail nodes_eq
        refine ⟨headKind, headId, headParent, ?_⟩
        intro node nodeMember
        rcases List.mem_append.1 nodeMember with old | new
        · exact others node old
        · rw [List.mem_singleton] at new
          exact new ▸ kind
  parentEarlier := by
    intro node nodeMember notRoot
    rcases List.mem_append.1 nodeMember with old | new
    · obtain ⟨above, aboveMember, isParent, smaller⟩ := coherent.parentEarlier node old notRoot
      exact ⟨above, List.mem_append_left _ aboveMember, isParent, smaller⟩
    · rw [List.mem_singleton] at new
      subst new
      refine ⟨owner, List.mem_append_left _ member, parent, ?_⟩
      rw [numbered]
      exact coherent.nodesBelow owner member
  linkEnds := by
    intro link linkMember
    obtain ⟨source, target⟩ := coherent.linkEnds link linkMember
    constructor
    · simpa [nodeIds] using Or.inl (mem_nodeIds.1 source)
    · simpa [nodeIds] using Or.inl (mem_nodeIds.1 target)
  boundBelow := by
    intro node nodeMember id bound
    rcases List.mem_append.1 nodeMember with old | new
    · obtain ⟨value, valueMember, holds⟩ := coherent.boundBelow node old id bound
      exact ⟨value, List.mem_append_left _ valueMember, holds⟩
    · rw [List.mem_singleton] at new
      rw [new, unbound] at bound
      cases bound
  valueOwner := by
    intro value valueMember isValue
    rcases List.mem_append.1 valueMember with old | new
    · obtain ⟨above, aboveMember, holds⟩ := coherent.valueOwner value old isValue
      exact ⟨above, List.mem_append_left _ aboveMember, holds⟩
    · rw [List.mem_singleton] at new
      subst new
      exact ⟨owner, List.mem_append_left _ member, parent, lists isValue⟩

/-- A root alone. -/
theorem singleRoot
    {made : Node}
    (isRoot : made.kind = .root)
    (id : made.id = ⟨0⟩)
    (parent : made.parent = none)
    (unbound : made.value = none)
    (names : VariableNames) :
    Coherent { nodes := [made], links := [], nextId := 1, names } where
  nodesOrdered := List.pairwise_singleton _ _
  linksOrdered := List.Pairwise.nil
  nodesBelow := by simp [id]
  linksBelow := by simp
  numbersDisjoint := by simp
  freshWhenEmpty := by simp
  rootFirst := by
    intro first rest split
    injection split with first_eq rest_eq
    subst first_eq rest_eq
    exact ⟨isRoot, id, parent, by simp⟩
  parentEarlier := by simp [isRoot]
  linkEnds := by simp
  boundBelow := by simp [unbound]
  valueOwner := by simp [isRoot]

/-- Append a link under the next number between nodes of the graph. -/
theorem appendLink
    (coherent : graph.Coherent)
    {made : Link}
    (numbered : made.id = ⟨graph.nextId⟩)
    (source : made.source ∈ graph.nodeIds)
    (target : made.target ∈ graph.nodeIds) :
    Coherent { graph with links := graph.links ++ [made], nextId := graph.nextId + 1 } where
  nodesOrdered := coherent.nodesOrdered
  linksOrdered := by
    refine List.pairwise_append.2 ⟨coherent.linksOrdered, List.pairwise_singleton _ _, ?_⟩
    intro earlier earlierMember later laterMember
    rw [List.mem_singleton] at laterMember
    subst laterMember
    rw [numbered]
    exact coherent.linksBelow earlier earlierMember
  nodesBelow := by
    intro node nodeMember
    have below := coherent.nodesBelow node nodeMember
    show node.id.value < graph.nextId + 1
    omega
  linksBelow := by
    intro link linkMember
    rcases List.mem_append.1 linkMember with old | new
    · have below := coherent.linksBelow link old
      show link.id.value < graph.nextId + 1
      omega
    · rw [List.mem_singleton] at new
      subst new
      rw [numbered]
      exact Nat.lt_succ_self _
  numbersDisjoint := by
    intro node nodeMember link linkMember
    rcases List.mem_append.1 linkMember with old | new
    · exact coherent.numbersDisjoint node nodeMember link old
    · rw [List.mem_singleton] at new
      subst new
      rw [numbered]
      have below := coherent.nodesBelow node nodeMember
      exact Nat.ne_of_lt below
  freshWhenEmpty := by
    intro empty
    obtain ⟨node, nodeMember, _⟩ := mem_nodeIds.1 source
    have nodes_eq : graph.nodes = [] := empty
    rw [nodes_eq] at nodeMember
    simp at nodeMember
  rootFirst := coherent.rootFirst
  parentEarlier := coherent.parentEarlier
  linkEnds := by
    intro link linkMember
    rcases List.mem_append.1 linkMember with old | new
    · exact coherent.linkEnds link old
    · rw [List.mem_singleton] at new
      subst new
      exact ⟨source, target⟩
  boundBelow := coherent.boundBelow
  valueOwner := coherent.valueOwner

end Coherent

end QueryGraph
end VisualQuery
