import VisualQuery.Proofs.Graph.Unlisting
import VisualQuery.Proofs.Session.Cascading
import VisualQuery.Proofs.Session.Discovering
import VisualQuery.Proofs.Session.Expanding

/-!
# Undoing an expansion

Expanding the relationships of a node makes new terms below it, and work on these
stays below them.  While no old node lists values, collapsing the relationships
of the node takes all of this away and nothing else: what is new hangs from one
of the new terms, and what is old does not.
-/

namespace VisualQuery
namespace QueryGraph

variable
  {first : Nat}
  {owner id : NodeId}
  {base graph : QueryGraph}

/-! ## Drawn graphs -/

namespace Drawn

/-- Only values are unlisted. -/
theorem isValue_of_unlists
    (drawn : graph.Drawn)
    {node : Node}
    (member : node ∈ graph.nodes)
    {lister : NodeId}
    (unlists : graph.Unlists lister node.id) :
    node.kind = .value := by
  have grown := drawn.grown
  have taken := unlists
  obtain ⟨holder, holderMember, rfl, _⟩ := unlists
  obtain ⟨_, ⟨_, value, valueMember, rfl, isValue, _⟩, beneath⟩ :=
    (grown.unlists_iff holderMember).1 taken
  have same := drawn.eq_of_beneath_value valueMember isValue beneath
  rwa [grown.toCoherent.eq_of_id_eq member valueMember same]

theorem not_unlisted
    (drawn : graph.Drawn)
    {node : Node}
    (member : node ∈ graph.nodes)
    (isTerm : node.kind ≠ .value) :
    ¬ graph.Unlisted node.id := by
  rintro ⟨lister, _, unlists⟩
  exact isTerm (drawn.isValue_of_unlists member unlists)

/-- Listings are not nested, since terms list values. -/
theorem not_nested (drawn : graph.Drawn) : ¬ graph.Nested := by
  rintro ⟨lister, member, lists, _, swept⟩
  exact drawn.not_unlisted member (NodeKind.ne_value_of_listsValues lists)
    (drawn.grown.swept_iff.1 swept)

/-- The relationships that leave a node lead to terms side by side. -/
theorem goInTurn
    (drawn : graph.Drawn)
    (id : NodeId) :
    graph.GoInTurn (Session.relationLinks id graph) := by
  have grown := drawn.grown
  have coherent := grown.toCoherent
  refine ⟨fun link leaves => (Session.mem_relationLinks.1 leaves).1, ?_⟩
  refine List.Pairwise.imp_of_mem ?_
    (coherent.linksOrdered.sublist (Session.relationLinks_sublist id graph))
  intro earlier later earlierLeaves laterLeaves smaller takes
  obtain ⟨earlierMember, rfl, earlierRelation⟩ := Session.mem_relationLinks.1 earlierLeaves
  obtain ⟨laterMember, same, laterRelation⟩ := Session.mem_relationLinks.1 laterLeaves
  rw [← Link.isRelation_iff] at earlierRelation laterRelation
  have apart : ¬ graph.Beneath earlier.target earlier.source := by
    intro beneath
    have above := coherent.le_of_beneath beneath
    have below := grown.source_lt_target earlierMember
    omega
  rcases takes with source | target
  · rw [same] at source
    exact apart (grown.beneath_of_hangsFrom source)
  · obtain ⟨term, termMember, named, parent, _⟩ := grown.exists_term laterMember laterRelation
    rw [← named] at target
    rcases (coherent.beneath_node_iff termMember).1 (grown.beneath_of_hangsFrom target) with
      met | ⟨above, isAbove, beneath⟩
    · rw [drawn.tree.once later laterMember earlier earlierMember laterRelation earlierRelation
        (named.symm.trans met)] at smaller
      exact Nat.lt_irrefl _ smaller
    · rw [parent, same] at isAbove
      injection isAbove with isAbove
      exact apart (isAbove ▸ beneath)

end Drawn

/-- What is new hangs from a relationship of the node below which it was made. -/
theorem Annexed.exists_hangsFrom
    (annexed : Annexed first owner base graph)
    (drawn : graph.Drawn)
    (above : owner.value < first)
    {node : Node}
    (member : node ∈ graph.nodes)
    (newer : first ≤ node.id.value) :
    ∃ link ∈ graph.links, link.source = owner ∧ link.kind = .relation ∧
      graph.HangsFrom link.target node.id := by
  have coherent := drawn.grown.toCoherent
  have inner : ∀ other ∈ graph.nodes, first ≤ other.id.value → other.kind ≠ .root := by
    intro other otherMember isNew isRoot
    rw [(coherent.id_eq_of_isRoot otherMember isRoot).1] at isNew
    exact absurd (Nat.lt_of_lt_of_le above isNew) (Nat.not_lt_zero _)
  -- By induction on the number, since parents have smaller ones.
  induction number : node.id.value using Nat.strongRecOn generalizing node with
  | ind current inductionHypothesis =>
      subst number
      have notRoot := inner node member newer
      obtain ⟨parent, parentMember, isParent, smaller⟩ := coherent.parentEarlier node member notRoot
      by_cases older : parent.id.value < first
      · obtain ⟨isOwner, isTerm⟩ := annexed.fringe node member newer _ isParent older
        obtain ⟨link, relation, target, isSource, _⟩ :=
          drawn.tree.exists_relation member isTerm (coherent.id_ne_zero member isParent)
        obtain ⟨linkMember, isRelation⟩ := mem_relations.1 relation
        rw [isParent] at isSource
        injection isSource with same
        refine ⟨link, linkMember, same.symm.trans isOwner, Link.isRelation_iff.1 isRelation,
          ⟨node, member, rfl, notRoot⟩, ?_⟩
        rw [target]
      · have parentNewer := Nat.le_of_not_lt older
        obtain ⟨link, linkMember, source, isRelation, hangs⟩ :=
          inductionHypothesis parent.id.value smaller parentMember parentNewer rfl
        have step : graph.StepsDown parent.id node.id :=
          StepsDown.below member isParent
            ⟨parent, parentMember, rfl, inner parent parentMember parentNewer⟩
        exact ⟨link, linkMember, source, isRelation, ⟨node, member, rfl, notRoot⟩,
          hangs.2.tail step⟩

/-! ## Expanded graphs -/

/-- The new nodes of a drawn graph are terms below one old term, and so are all
ends of its relationships.  No values are listed. -/
structure Expanded (first : Nat) (owner : Node) (base : QueryGraph) : Prop extends Drawn base where
  member : owner ∈ base.nodes
  isTerm : owner.kind ≠ .value
  older : owner.id.value < first
  later : first ≤ base.nextId
  unlisted : ∀ node ∈ base.nodes, node.valueExpanded = false
  made :
    ∀ node ∈ base.nodes, first ≤ node.id.value →
      node.parent = some owner.id ∧ node.kind ≠ .value
  leads :
    ∀ link ∈ base.links, link.source = owner.id → link.kind = .relation →
      first ≤ link.target.value

theorem Expanded.grown
    {owner : Node}
    (expanded : Expanded first owner base) :
    base.Grown :=
  expanded.toDrawn.grown

/-- Nothing has been done on the new nodes yet. -/
theorem Expanded.annexed
    {owner : Node}
    (expanded : Expanded first owner base) :
    Annexed first owner.id base base where
  nodes _ _ := Iff.rfl
  links _ _ := Iff.rfl
  later := expanded.later
  fringe := by
    intro node member newer parent isParent _
    obtain ⟨isOwner, isTerm⟩ := expanded.made node member newer
    rw [isParent] at isOwner
    injection isOwner with same
    exact ⟨same, isTerm⟩

theorem Fans.expanded
    {owner : Node}
    {before after : QueryGraph}
    {count : Nat}
    (fans : Fans owner.id count before after)
    (coherent : before.Coherent)
    (member : owner ∈ before.nodes)
    (isTerm : owner.kind ≠ .value)
    (unexpanded : ∀ link ∈ before.links, link.source = owner.id → link.kind ≠ .relation)
    (unlisted : ∀ node ∈ before.nodes, node.valueExpanded = false)
    (drawn : after.Drawn) :
    Expanded before.nextId owner after where
  toDrawn := drawn
  member := ((fans.mem_nodes_iff coherent owner).1 member).1
  isTerm := isTerm
  older := coherent.nodesBelow owner member
  later := fans.counted
  unlisted := by
    obtain ⟨terms, nodes, made⟩ := fans.made
    rw [nodes, List.forall_mem_append]
    exact ⟨unlisted, fun node isNew => (made node isNew).2.2.2⟩
  made := by
    obtain ⟨terms, nodes, made⟩ := fans.made
    rw [nodes, List.forall_mem_append]
    refine ⟨fun node old newer => ?_, fun node isNew _ => ?_⟩
    · exact absurd newer (Nat.not_le.2 (coherent.nodesBelow node old))
    · exact ⟨(made node isNew).2.1, (made node isNew).2.2.1⟩
  leads := by
    obtain ⟨relations, links, _, led⟩ := fans.led
    rw [links, List.forall_mem_append]
    refine ⟨fun link old source isRelation => ?_, fun link isNew _ _ => (led link isNew).1⟩
    exact absurd isRelation (unexpanded link old source)

end QueryGraph

namespace Session

open QueryGraph

variable {first : Nat} {base : QueryGraph} {session : Session} {owner : Node}

/-! ## Collapsing -/

/-- The relationships of a drawn term without a listing can always be collapsed. -/
theorem perform_collapseRelationships
    (drawn : session.graph.Drawn)
    (member : owner ∈ session.graph.nodes)
    (isTerm : owner.kind ≠ .value)
    (unmarked : owner.valueExpanded = false) :
    ∃ after dropped,
      Step.perform (collapseRelationships owner.id) session =
          (.ok (relationsFrom owner.id session.graph).length, { session with graph := after }) ∧
        Sheds
          (fun id =>
            session.graph.Unlisted id ∨
              ∃ link ∈ session.graph.links, link.source = owner.id ∧ link.kind = .relation ∧
                session.graph.HangsFrom link.target id)
          dropped session.graph after := by
  have grown := drawn.grown
  have leaving : ∀ link, link ∈ relationLinks owner.id session.graph ↔
      link ∈ session.graph.links ∧ link.source = owner.id ∧ link.kind = .relation ∧
        ¬ session.graph.Unlisted link.target := by
    intro link
    rw [mem_relationLinks]
    refine and_congr_right fun linkMember => and_congr_right fun _ =>
      (and_iff_left_of_imp fun isRelation => ?_).symm
    obtain ⟨term, termMember, named, _, termKind⟩ :=
      grown.exists_term linkMember (Link.isRelation_iff.2 isRelation)
    exact named ▸ drawn.not_unlisted termMember termKind
  have inTurn : session.graph.UnlistInTurn (expandedNodes session.graph) ∧
      session.graph.GoInTurn (relationLinks owner.id session.graph) :=
    ⟨grown.unlistInTurn_iff.2 drawn.not_nested, drawn.goInTurn owner.id⟩
  rcases collapseRelationships_sheds drawn.wellFormed member unmarked
      (drawn.not_unlisted member isTerm) (relationLinks_sublist _ _) leaving with
    ⟨_, after, dropped, performed, _, sheds⟩ | ⟨tangled, _⟩
  · refine ⟨after, dropped, ?_, sheds.congr (fun id => ?_) fun _ _ => Iff.rfl⟩
    · rw [relationsFrom_eq, List.length_map]
      exact performed
    · simp only [mem_relationLinks, and_assoc]
  · exact absurd inTurn tangled

/-- Relationships that lead to new nodes are removed without the old ones. -/
theorem keeps_collapseRelationships
    (expanded : Expanded first owner base)
    (grown : session.graph.Grown)
    (annexed : Annexed first owner.id base session.graph) :
    FollowsFrom (Keeps (Retains first (fun link => link.target.value < first) base)) session
      (collapseRelationships owner.id) := by
  obtain ⟨collapsedGrown, collapsed⟩ :=
    keeps_collapseAll (keptOn_annexed expanded.unlisted) session grown annexed
  have removes : ∀ graph : QueryGraph, ∀ link ∈ graph.links,
      link.isRelation = true ∧ first ≤ link.target.value →
        ∀ after, graph.removeLink link.id = .ok after →
          Keeps (Retains first (fun link => link.target.value < first) base) graph after := by
    rintro graph link member ⟨isRelation, newer⟩ after accepted graphGrown retains
    exact ⟨graphGrown.removeLink accepted,
      retains.removeLink graphGrown member isRelation newer accepted⟩
  refine FollowsFrom.node fun node _ _ => ?_
  split
  · exact Follows.pure 0 session
  · refine FollowsFrom.bind (fun _ _ => ⟨collapsedGrown, ?_⟩) fun _ =>
      FollowsFrom.state (FollowsFrom.bind (followsFrom_removeLinks removes _ ?_) fun _ =>
        Follows.pure _ _)
    · exact collapsed.retains collapsedGrown expanded.grown
    · rintro id listed link member rfl
      obtain ⟨source, isRelation⟩ := of_mem_relationsFrom collapsedGrown.toCoherent member listed
      have isOld : link.source.value < first := source ▸ expanded.older
      exact ⟨isRelation, expanded.leads link ((collapsed.links link isOld).1 member) source
        (Link.isRelation_iff.1 isRelation)⟩

/-- Collapsing the relationships below which all new nodes were made leaves the
old ones. -/
theorem collapseRelationships_annexed
    (expanded : Expanded first owner base)
    (drawn : session.graph.Drawn)
    (annexed : Annexed first owner.id base session.graph) :
    ∃ after,
      Step.perform (collapseRelationships owner.id) session =
          (.ok (relationsFrom owner.id base).length, { session with graph := after }) ∧
        after.Grown ∧
        (∀ node, node ∈ after.nodes ↔ node ∈ base.nodes ∧ node.id.value < first) ∧
        ∀ link, link ∈ after.links ↔ link ∈ base.links ∧ link.target.value < first := by
  have grown := drawn.grown
  have coherent := grown.toCoherent
  have member := (annexed.nodes owner expanded.older).2 expanded.member
  obtain ⟨after, dropped, performed, sheds⟩ := perform_collapseRelationships drawn member
    expanded.isTerm (expanded.unlisted owner expanded.member)
  have kept := keeps_collapseRelationships expanded grown annexed
  rw [FollowsFrom, Step.after, performed] at kept
  obtain ⟨afterGrown, retains⟩ := kept grown (annexed.retains grown expanded.grown)
  have relations : relationLinks owner.id session.graph = relationLinks owner.id base := by
    refine eq_of_mem_iff_of_ordered
      (coherent.linksOrdered.sublist (relationLinks_sublist _ _))
      (expanded.grown.toCoherent.linksOrdered.sublist (relationLinks_sublist _ _)) fun link => ?_
    rw [mem_relationLinks, mem_relationLinks]
    refine and_congr_left fun leaves => annexed.links link ?_
    rw [leaves.1]
    exact expanded.older
  have old : ∀ id ∈ after.nodeIds, id.value < first := by
    intro id left
    by_contra newer
    obtain ⟨known, stays⟩ := (sheds.left id).1 left
    obtain ⟨node, nodeMember, rfl⟩ := mem_nodeIds.1 known
    exact stays (Or.inr (annexed.exists_hangsFrom drawn expanded.older nodeMember
      (Nat.le_of_not_lt newer)))
  rw [relationsFrom_eq, relations] at performed
  refine ⟨after, performed, afterGrown, fun node => ?_, fun link => ?_⟩
  · constructor
    · intro left
      have smaller := old node.id (mem_nodeIds.2 ⟨node, left, rfl⟩)
      exact ⟨(retains.nodes node smaller).1 left, smaller⟩
    · rintro ⟨known, smaller⟩
      exact (retains.nodes node smaller).2 known
  · constructor
    · intro left
      have smaller := old link.target (afterGrown.toCoherent.linkEnds link left).2
      exact ⟨(retains.links link smaller).1 left, smaller⟩
    · rintro ⟨known, smaller⟩
      exact (retains.links link smaller).2 known

/-- Work on the new nodes of an expanded graph is taken away with them. -/
theorem collapseRelationships_worked
    (expanded : Expanded first owner session.graph)
    {calls : List SessionCall}
    (answering : SessionCall.Answering (fun _ => False) calls session)
    (aboutNew :
      ∀ call ∈ calls, ∃ id, call.subject? = some id ∧ IsNew first session.graph id) :
    ∃ after,
      Step.perform (collapseRelationships owner.id) (SessionCall.run calls session) =
          (.ok (relationsFrom owner.id session.graph).length,
            { SessionCall.run calls session with graph := after }) ∧
        after.Grown ∧
        (∀ node, node ∈ after.nodes ↔ node ∈ session.graph.nodes ∧ node.id.value < first) ∧
        ∀ link, link ∈ after.links ↔
          link ∈ session.graph.links ∧ link.target.value < first := by
  have untouched := expanded.annexed
  have unexplored : Unexplored first (SessionCall.AskedFor fun _ => False) session.graph :=
    ⟨fun node member newer isValue => absurd isValue (expanded.made node member newer).2,
      fun _ ⟨_, never, _⟩ => never.elim⟩
  obtain ⟨_, annexed⟩ :=
    SessionCall.run_annexes expanded.unlisted calls aboutNew session expanded.grown untouched
  have drawn := SessionCall.run_drawn_of_answering expanded.unlisted calls aboutNew answering
    expanded.toDrawn untouched unexplored
  exact collapseRelationships_annexed expanded drawn annexed

/-! ## Undoing -/

/-- In a session that draws, take a term from which no relationship leaves, while
no values are listed.  Its discovered relationships can be expanded, into one
term each.  Whatever is then done about new nodes, collapsing the relationships
of the term answers the number of these terms, and the nodes and links are those
from before, except that no discovered relationships are left on the term. -/
theorem collapse_undoes_expand
    {metadata : LabelMetadata}
    {options : QueryOptions}
    {calls : List SessionCall}
    (drawing : SessionCall.Drawing calls (.new metadata options))
    {owner : Node}
    (member : owner ∈ (SessionCall.run calls (.new metadata options)).graph.nodes)
    (isTerm : owner.kind ≠ .value)
    (unexpanded :
      ∀ link ∈ (SessionCall.run calls (.new metadata options)).graph.links,
        link.source = owner.id → link.kind ≠ .relation)
    (unlisted :
      ∀ node ∈ (SessionCall.run calls (.new metadata options)).graph.nodes,
        node.valueExpanded = false) :
    let session := SessionCall.run calls (.new metadata options)
    let former := session.graph.modifyNode owner.id fun node => { node with relationships := [] }
    ∃ children expanded,
      Step.perform (expandRelationships owner.id) session = (.ok children, expanded) ∧
        children.length = owner.relationships.length ∧
        ∀ more, SessionCall.Answering (fun _ => False) more expanded →
          (∀ call ∈ more, ∃ id, call.subject? = some id ∧ id ∉ session.graph.nodeIds) →
            ∃ after,
              Step.perform (collapseRelationships owner.id) (SessionCall.run more expanded) =
                  (.ok children.length, { SessionCall.run more expanded with graph := after }) ∧
                after.nodes = former.nodes ∧ after.links = session.graph.links := by
  intro session former
  have drawn : session.graph.Drawn := SessionCall.run_drawn calls drawn_empty drawing
  have coherent := drawn.grown.toCoherent
  let note (notes : NodeNotes) : NodeNotes := { notes with relationships := [] }
  have inPlace := Node.InPlace.note note
  have formerGrown : former.Grown := drawn.grown.modifyNode_of_value owner.id inPlace fun _ => rfl
  have formerCoherent := formerGrown.toCoherent
  obtain ⟨children, graph, performed, counted, fans⟩ :=
    perform_expandRelationships drawn.grown member
  have expanded : Expanded former.nextId { owner with relationships := [] } graph := by
    refine Fans.expanded fans formerCoherent
      (mem_modifyNode_self member fun node => node.withNotes (note node.notes)) isTerm unexpanded
      ?_ ?_
    · intro node nodeMember
      obtain ⟨known, knownMember, rfl⟩ := mem_modifyNode.1 nodeMember
      split <;> exact unlisted known knownMember
    · have isOwnTerm : session.graph.IsTerm owner.id := ⟨owner, member, rfl, isTerm⟩
      have redraws := redraws_expandRelationships (isOwnTerm.termsOnly coherent)
      rw [FollowsFrom, Step.after, performed] at redraws
      exact Redrawn.drawn redraws drawn
  refine ⟨children, _, performed, counted, fun more answering aboutNew => ?_⟩
  have aboutFresh : ∀ call ∈ more,
      ∃ id, call.subject? = some id ∧ IsNew former.nextId graph id := by
    intro call callMember
    obtain ⟨id, isSubject, fresh⟩ := aboutNew call callMember
    refine ⟨id, isSubject, fun node nodeMember named => ?_⟩
    by_contra smaller
    have old := (fans.mem_nodes_iff formerCoherent node).2
      ⟨nodeMember, named ▸ Nat.lt_of_not_le smaller⟩
    obtain ⟨known, knownMember, knownId, _⟩ := exists_of_mem_modifyNode inPlace old
    exact fresh (mem_nodeIds.2 ⟨known, knownMember, knownId.trans named⟩)
  obtain ⟨after, collapsed, afterGrown, nodes, links⟩ :=
    @collapseRelationships_worked _ { session with graph } _ expanded more answering aboutFresh
  have afterCoherent := afterGrown.toCoherent
  refine ⟨after, ?_, ?_, ?_⟩
  · rwa [fans.length_relationsFrom unexpanded] at collapsed
  · exact eq_of_mem_iff_of_ordered afterCoherent.nodesOrdered formerCoherent.nodesOrdered
      fun node => (nodes node).trans (fans.mem_nodes_iff formerCoherent node).symm
  · exact eq_of_mem_iff_of_ordered afterCoherent.linksOrdered formerCoherent.linksOrdered
      fun link => (links link).trans (fans.mem_links_iff formerCoherent link).symm

/-- An account for which one relationship was discovered. -/
def discoveredContact : List SessionCall :=
  [.start "Account", .runRelations ⟨0⟩ fun _ => .ok contactsOwned]

/-- What is then done about the contact: its two values are listed, the first one
is chosen, a contact of its own is discovered and expanded, and values are on
display below both. -/
def workOnContact : List SessionCall :=
  [.runValues ⟨1⟩ fun _ =>
      .ok ⟨[⟨["name"], [⟨[.string "Ann"], none⟩, ⟨[.string "Bob"], none⟩]⟩], []⟩,
    .selectValue ⟨3⟩, .runRelations ⟨1⟩ fun _ => .ok contactsOwned, .expandRelationships ⟨1⟩,
    .nextPage ⟨1⟩, .nextPage ⟨7⟩]

theorem collapse_undoes_expand_contact :
    let session := SessionCall.run discoveredContact (.new Compiler.namedLabels {})
    ∃ owner ∈ session.graph.nodes, owner.relationships = [⟨"OWNS", "Contact", 3⟩] ∧
      ∃ children expanded,
        Step.perform (expandRelationships owner.id) session = (.ok children, expanded) ∧
          ∃ after,
            Step.perform (collapseRelationships owner.id) (SessionCall.run workOnContact expanded) =
                (.ok 1, { SessionCall.run workOnContact expanded with graph := after }) ∧
              after.nodes.length = 1 ∧ after.links = [] := by
  intro session
  have drawing : SessionCall.Drawing discoveredContact (.new Compiler.namedLabels {}) :=
    ⟨trivial, trivial, trivial⟩
  obtain ⟨owner, member, named, isTerm, stored⟩ : ∃ owner ∈ session.graph.nodes,
      owner.id = ⟨0⟩ ∧ owner.kind ≠ .value ∧ owner.relationships = [⟨"OWNS", "Contact", 3⟩] := by
    decide +kernel
  have unlinked : session.graph.links = [] := by decide +kernel
  have unlisted : ∀ node ∈ session.graph.nodes, node.valueExpanded = false := by decide +kernel
  have alone : session.graph.nodeIds = [⟨0⟩] := by decide +kernel
  obtain ⟨children, expanded, performed, counted, undoes⟩ :=
    collapse_undoes_expand drawing member isTerm (by simp [session, unlinked]) unlisted
  have answering : SessionCall.Answering (fun _ => False) workOnContact expanded := by
    simp [workOnContact, SessionCall.Answering]
  have aboutNew : ∀ call ∈ workOnContact,
      ∃ id, call.subject? = some id ∧ id ∉ session.graph.nodeIds := by
    simp [workOnContact, SessionCall.subject?, alone]
  obtain ⟨after, collapsed, nodes, links⟩ := undoes workOnContact answering aboutNew
  rw [counted, stored] at collapsed
  refine ⟨owner, member, stored, children, expanded, performed, after, collapsed, ?_, ?_⟩
  · rw [nodes, named]
    decide +kernel
  · rw [links, unlinked]

end Session
end VisualQuery
