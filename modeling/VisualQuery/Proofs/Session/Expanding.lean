import VisualQuery.Proofs.Session.Handling

/-!
# Expanding relationships

Every discovered relationship of a node is expanded into one new term below it.
What was there before is told from the terms and their relationships by numbers.
-/

namespace VisualQuery
namespace QueryGraph

/-! ## Fans -/

/-- Some terms were made below a node, each with the relationship that leads to
it. -/
structure Fans (parent : NodeId) (count : Nat) (before after : QueryGraph) : Prop where
  made :
    ∃ terms, after.nodes = before.nodes ++ terms ∧
      ∀ node ∈ terms, before.nextId ≤ node.id.value ∧ node.parent = some parent ∧
        node.kind ≠ .value ∧ node.valueExpanded = false
  led :
    ∃ relations, after.links = before.links ++ relations ∧ relations.length = count ∧
      ∀ link ∈ relations, before.nextId ≤ link.target.value ∧ link.source = parent ∧
        link.kind = .relation
  counted : before.nextId ≤ after.nextId

namespace Fans

variable {parent : NodeId} {before after : QueryGraph} {count : Nat}

theorem refl (graph : QueryGraph) : Fans parent 0 graph graph where
  made := ⟨[], by simp, by simp⟩
  led := ⟨[], by simp, rfl, by simp⟩
  counted := Nat.le_refl _

/-- One more term in front. -/
theorem cons
    {relationship label : String}
    {isGroup : Bool}
    (fans : Fans parent count (before.withTerm parent relationship label isGroup) after) :
    Fans parent (count + 1) before after := by
  obtain ⟨terms, nodes, made⟩ := fans.made
  obtain ⟨relations, links, length, led⟩ := fans.led
  refine ⟨⟨_, nodes.trans (List.append_assoc _ _ _), ?_⟩,
    ⟨_, links.trans (List.append_assoc _ _ _), by simp [length], ?_⟩,
    Nat.le_trans (Nat.le_add_right _ 2) fans.counted⟩
  · rw [List.singleton_append, List.forall_mem_cons]
    refine ⟨⟨Nat.le_refl _, rfl, kind_freshTerm_ne_value _ _ _, rfl⟩, fun node isTerm => ?_⟩
    obtain ⟨newer, holds⟩ := made node isTerm
    exact ⟨Nat.le_trans (Nat.le_add_right _ 2) newer, holds⟩
  · rw [List.singleton_append, List.forall_mem_cons]
    refine ⟨⟨Nat.le_refl _, rfl, rfl⟩, fun link isRelation => ?_⟩
    obtain ⟨newer, holds⟩ := led link isRelation
    exact ⟨Nat.le_trans (Nat.le_add_right _ 2) newer, holds⟩

/-- The old nodes are told by their numbers. -/
theorem mem_nodes_iff
    (fans : Fans parent count before after)
    (coherent : before.Coherent)
    (node : Node) :
    node ∈ before.nodes ↔ node ∈ after.nodes ∧ node.id.value < before.nextId := by
  obtain ⟨terms, nodes, made⟩ := fans.made
  rw [nodes, List.mem_append]
  constructor
  · intro member
    exact ⟨Or.inl member, coherent.nodesBelow node member⟩
  · rintro ⟨member | isNew, smaller⟩
    · exact member
    · exact absurd smaller (Nat.not_lt.2 (made node isNew).1)

/-- The old links are told by the nodes they lead to. -/
theorem mem_links_iff
    (fans : Fans parent count before after)
    (coherent : before.Coherent)
    (link : Link) :
    link ∈ before.links ↔ link ∈ after.links ∧ link.target.value < before.nextId := by
  obtain ⟨relations, links, _, led⟩ := fans.led
  rw [links, List.mem_append]
  constructor
  · intro member
    obtain ⟨target, targetMember, named⟩ := mem_nodeIds.1 (coherent.linkEnds link member).2
    exact ⟨Or.inl member, named ▸ coherent.nodesBelow target targetMember⟩
  · rintro ⟨member | isNew, smaller⟩
    · exact member
    · exact absurd smaller (Nat.not_lt.2 (led link isNew).1)

/-- If no relationship left the node before, then the new ones are all. -/
theorem length_relationsFrom
    (fans : Fans parent count before after)
    (unexpanded : ∀ link ∈ before.links, link.source = parent → link.kind ≠ .relation) :
    (Session.relationsFrom parent after).length = count := by
  obtain ⟨relations, links, length, led⟩ := fans.led
  have none : Session.relationLinks parent before = [] := by
    rw [List.eq_nil_iff_forall_not_mem]
    intro link leaves
    obtain ⟨member, source, isRelation⟩ := Session.mem_relationLinks.1 leaves
    exact unexpanded link member source isRelation
  have all : (relations.filter fun link => link.source = parent && link.kind = .relation) =
      relations := by
    rw [List.filter_eq_self]
    intro link isNew
    simpa using (led link isNew).2
  rw [Session.relationsFrom_eq, Session.relationLinks, links, List.filter_append, all,
    List.length_map, ← Session.relationLinks, none, List.nil_append, length]

end Fans

end QueryGraph

namespace Session

open QueryGraph

variable {session : Session} {owner : Node}

/-! ## Expanding -/

/-- A term is added below any node of the graph, and the node stays. -/
theorem perform_addFarEnd
    (grown : session.graph.Grown)
    (member : owner ∈ session.graph.nodes)
    (relationship : Relationship) :
    let graph := session.graph.withTerm owner.id relationship.name relationship.label
      (session.metadata.resolve relationship.label).group
    Step.perform (addFarEnd owner.id relationship) session =
        (.ok ⟨session.graph.nextId⟩, { session with graph }) ∧
      graph.Grown ∧ owner ∈ graph.nodes := by
  have accepted := grown.toCoherent.addRelationship_accepted member relationship.name
    relationship.label (session.metadata.resolve relationship.label).group
  exact ⟨(Step.perform_bind_ok (Step.perform_state session)).trans (perform_onGraph accepted),
    (Handles.relate accepted).grown grown, List.mem_append_left _ member⟩

/-- One term for every relationship. -/
theorem perform_addFarEnds
    (grown : session.graph.Grown)
    (member : owner ∈ session.graph.nodes)
    (relationships : List Relationship) :
    ∃ children graph,
      Step.perform (addFarEnds owner.id relationships) session =
          (.ok children, { session with graph }) ∧
        children.length = relationships.length ∧
        Fans owner.id relationships.length session.graph graph := by
  induction relationships generalizing session with
  | nil => exact ⟨[], session.graph, rfl, rfl, Fans.refl session.graph⟩
  | cons relationship rest inductionHypothesis =>
      obtain ⟨added, addedGrown, stays⟩ := perform_addFarEnd grown member relationship
      obtain ⟨children, graph, others, counted, fans⟩ :=
        @inductionHypothesis { session with graph := _ } addedGrown stays
      refine ⟨⟨session.graph.nextId⟩ :: children, graph, ?_, congrArg Nat.succ counted, fans.cons⟩
      rw [addFarEnds]
      exact (Step.perform_bind_ok added).trans (Step.perform_bind_ok others)

/-- The discovered relationships of a term are expanded and taken off its list. -/
theorem perform_expandRelationships
    (grown : session.graph.Grown)
    (member : owner ∈ session.graph.nodes) :
    ∃ children graph,
      Step.perform (expandRelationships owner.id) session =
          (.ok children, { session with graph }) ∧
        children.length = owner.relationships.length ∧
        Fans owner.id children.length
          (session.graph.modifyNode owner.id fun node => { node with relationships := [] })
          graph := by
  let note (notes : NodeNotes) : NodeNotes := { notes with relationships := [] }
  have noted := grown.modifyNode_of_value owner.id (Node.InPlace.note note) fun _ => rfl
  have notedMember := mem_modifyNode_self member fun node => node.withNotes (note node.notes)
  obtain ⟨children, graph, added, counted, fans⟩ :=
    @perform_addFarEnds { session with graph := _ } _ noted notedMember owner.relationships
  refine ⟨children, graph, ?_, counted, counted ▸ fans⟩
  exact (Step.perform_bind_ok (perform_node grown.toCoherent member)).trans added

end Session
end VisualQuery
