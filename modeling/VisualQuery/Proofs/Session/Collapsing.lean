import Mathlib.Data.List.Pairwise
import VisualQuery.Proofs.Graph.Shedding
import VisualQuery.Proofs.Session.Handling

/-!
# Collapsing everything

Listings are collapsed one after the other, in the order of their nodes.  Each
takes the spare values of its node with what hangs from them, on a graph of any
shape.  If that takes a node whose own listing is still to be collapsed, the next
ones are not reached: the collapse is refused there, and what it took stays
taken.  On a grown graph only listings further down are taken.
-/

namespace VisualQuery
namespace QueryGraph

variable {graph before after : QueryGraph} {dropped : Link → Prop}

/-- Some nodes can be unlisted in turn: none is missing, and none is taken by one
that comes before it. -/
def UnlistInTurn (graph : QueryGraph) (ids : List NodeId) : Prop :=
  (∀ id ∈ ids, id ∈ graph.nodeIds) ∧
    ids.Pairwise fun earlier later => ¬ graph.Unlists earlier later

/-- Collapsing all listings takes a node. -/
def Unlisted (graph : QueryGraph) (id : NodeId) : Prop :=
  ∃ owner ∈ Session.expandedNodes graph, graph.Unlists owner id

/-- The first node in turn, and then the others. -/
theorem Sheds.unlistInTurn_cons_iff
    (coherent : before.Coherent)
    {id : NodeId}
    {ids : List NodeId}
    (known : id ∈ before.nodeIds)
    (first : Sheds (before.Unlists id) dropped before after)
    (kept : ∀ later ∈ ids, ∀ link ∈ before.links, dropped link → link.source ≠ later) :
    before.UnlistInTurn (id :: ids) ↔ after.UnlistInTurn ids := by
  have same : (∀ later ∈ ids, later ∈ after.nodeIds) →
      (ids.Pairwise (fun earlier later => ¬ after.Unlists earlier later) ↔
        ids.Pairwise fun earlier later => ¬ before.Unlists earlier later) := by
    intro left
    apply List.Pairwise.iff_of_mem
    intro earlier later earlierMember laterMember
    rw [first.unlists_iff coherent (kept earlier earlierMember) (left earlier earlierMember),
      and_iff_left ((first.left later).1 (left later laterMember)).2]
  unfold UnlistInTurn
  rw [List.forall_mem_cons, List.pairwise_cons]
  constructor
  · rintro ⟨⟨_, present⟩, apart, inTurn⟩
    have left : ∀ later ∈ ids, later ∈ after.nodeIds := fun later member =>
      (first.left later).2 ⟨present later member, apart later member⟩
    exact ⟨left, (same left).2 inTurn⟩
  · rintro ⟨left, inTurn⟩
    exact ⟨⟨known, fun later member => ((first.left later).1 (left later member)).1⟩,
      fun later member => ((first.left later).1 (left later member)).2, (same left).1 inTurn⟩

/-- What the first node unlists, and then the others. -/
theorem Sheds.unlists_cons_iff
    (coherent : before.Coherent)
    {owner id : NodeId}
    {ids : List NodeId}
    (first : Sheds (before.Unlists owner) dropped before after)
    (kept : ∀ later ∈ ids, ∀ link ∈ before.links, dropped link → link.source ≠ later)
    (left : ∀ later ∈ ids, later ∈ after.nodeIds) :
    (before.Unlists owner id ∨ ∃ later ∈ ids, after.Unlists later id) ↔
      ∃ other ∈ owner :: ids, before.Unlists other id := by
  rw [List.exists_mem_cons_iff]
  refine Iff.trans (or_congr_right (exists_congr fun later => and_congr_right fun member => ?_))
    or_exists_and_not_iff
  exact first.unlists_iff coherent (kept later member) (left later member)

end QueryGraph

namespace Session

open QueryGraph

variable {session : Session} {graph : QueryGraph}

theorem mem_expandedNodes
    {id : NodeId} :
    id ∈ expandedNodes graph ↔
      ∃ owner ∈ graph.nodes,
        owner.id = id ∧ owner.kind.listsValues = true ∧ owner.valueExpanded = true := by
  simp only [expandedNodes, List.mem_map, List.mem_filter, Bool.and_eq_true]
  constructor
  · rintro ⟨owner, ⟨member, lists, marked⟩, named⟩
    exact ⟨owner, member, named, lists, marked⟩
  · rintro ⟨owner, member, named, lists, marked⟩
    exact ⟨owner, ⟨member, lists, marked⟩, named⟩

/-- Listings are collapsed in the order of their nodes. -/
theorem expandedNodes_ordered
    (coherent : graph.Coherent) :
    (expandedNodes graph).Pairwise fun earlier later => earlier.value < later.value :=
  List.pairwise_map.2 (coherent.nodesOrdered.sublist List.filter_sublist)

theorem marked_of_mem_expandedNodes
    (coherent : graph.Coherent)
    {node : Node}
    (member : node ∈ graph.nodes)
    (listed : node.id ∈ expandedNodes graph) :
    node.valueExpanded = true := by
  obtain ⟨same, sameMember, named, _, marked⟩ := mem_expandedNodes.1 listed
  rwa [coherent.eq_of_id_eq sameMember member named] at marked

/-- Listings are collapsed if they can be unlisted in turn.  Otherwise the
collapse is refused at a node that is missing by then. -/
theorem collapseEach_sheds
    (wellFormed : session.graph.WellFormed)
    (ids : List NodeId)
    (distinct : ids.Nodup)
    (marked : ∀ node ∈ session.graph.nodes, node.id ∈ ids → node.valueExpanded = true) :
    (session.graph.UnlistInTurn ids ∧ ∃ graph dropped,
      Step.perform (collapseEach ids) session = (.ok (), { session with graph }) ∧
        graph.WellFormed ∧ (∀ link, dropped link → link.kind = .value) ∧
        Sheds (fun id => ∃ owner ∈ ids, session.graph.Unlists owner id) dropped
          session.graph graph) ∨
      ¬ session.graph.UnlistInTurn ids ∧ ∃ id ∈ ids, ∃ graph,
        Step.perform (collapseEach ids) session =
            (.error (.unknownNode id), { session with graph }) ∧
          id ∉ graph.nodeIds := by
  induction ids generalizing session with
  | nil =>
      refine Or.inl ⟨⟨by simp, List.Pairwise.nil⟩, session.graph, fun _ => False, rfl,
        wellFormed, fun _ => False.elim, ?_⟩
      exact (Sheds.refl wellFormed.toCoherent).congr (by simp) fun _ _ => Iff.rfl
  | cons id rest inductionHypothesis =>
      obtain ⟨apart, restDistinct⟩ := List.nodup_cons.1 distinct
      by_cases known : id ∈ session.graph.nodeIds
      · have coherent := wellFormed.toCoherent
        obtain ⟨owner, member, rfl⟩ := mem_nodeIds.1 known
        obtain ⟨count, cleared, accepted⟩ :
            ∃ count cleared, session.graph.removeValues owner.id = .ok (count, cleared) :=
          ⟨_, _, coherent.removeValues_accepted member⟩
        have performed := perform_collapseNode coherent member
          (marked owner member List.mem_cons_self) accepted
        have continued : Step.perform (collapseEach (owner.id :: rest)) session =
            Step.perform (collapseEach rest) { session with graph := cleared } := by
          rw [collapseEach, Step.perform_bind_ok performed]
        have first := Sheds.removeValues coherent member accepted
        have leaves : ∀ link ∈ session.graph.valueLinks owner.id,
            link.source = owner.id ∧ link.kind = .value := by
          intro link listed
          simpa using (List.mem_filter.1 listed).2
        -- The first listing loses links of its own node only, so what the later ones
        -- unlist stays the same, but for what is gone by then.
        have kept : ∀ later ∈ rest, ∀ link ∈ session.graph.links,
            link ∈ session.graph.valueLinks owner.id ∧ owner.value = some link.target →
              link.source ≠ later := by
          rintro later listed link _ ⟨isListed, _⟩ source
          exact apart ((leaves link isListed).1.symm.trans source ▸ listed)
        have inTurn := first.unlistInTurn_cons_iff coherent known kept
        have stillMarked : ∀ node ∈ cleared.nodes, node.id ∈ rest →
            node.valueExpanded = true := by
          intro node nodeMember listed
          obtain ⟨former, formerMember, named, mark⟩ := valueExpanded_removeValues accepted
            nodeMember fun isOwner => apart (isOwner ▸ listed)
          rw [mark]
          exact marked former formerMember (List.mem_cons_of_mem _ (named ▸ listed))
        rw [continued, inTurn]
        rcases @inductionHypothesis { session with graph := cleared }
          (wellFormed.removeValues accepted) restDistinct stillMarked with
          ⟨later, graph, dropped, collapsed, reached, values, sheds⟩ |
          ⟨tangled, missing, listed, graph, refused, absent⟩
        · refine Or.inl ⟨later, graph, _, collapsed, reached, ?_,
            (first.trans sheds).congr
              (fun _ => first.unlists_cons_iff coherent kept later.1) fun _ _ => Iff.rfl⟩
          rintro link (⟨isListed, _⟩ | isDropped)
          · exact (leaves link isListed).2
          · exact values link isDropped
        · exact Or.inr ⟨tangled, missing, List.mem_cons_of_mem _ listed, graph, refused, absent⟩
      · refine Or.inr ⟨fun inTurn => known (inTurn.1 id List.mem_cons_self), id,
          List.mem_cons_self, session.graph, ?_, known⟩
        exact Step.perform_bind_error (Step.perform_bind_error (perform_node_of_not_mem known))

/-- The same for all listings. -/
theorem collapseAll_sheds
    (wellFormed : session.graph.WellFormed) :
    let listings := expandedNodes session.graph
    (session.graph.UnlistInTurn listings ∧ ∃ graph dropped,
      Step.perform collapseAll session = (.ok (), { session with graph }) ∧
        graph.WellFormed ∧ (∀ link, dropped link → link.kind = .value) ∧
        Sheds session.graph.Unlisted dropped session.graph graph) ∨
      ¬ session.graph.UnlistInTurn listings ∧ ∃ error graph,
        Step.perform collapseAll session = (.error error, { session with graph }) ∧
          graph ≠ session.graph := by
  intro listings
  have coherent := wellFormed.toCoherent
  have distinct : listings.Nodup :=
    coherent.nodup_nodeIds.sublist (List.filter_sublist.map Node.id)
  have started : Step.perform collapseAll session =
      Step.perform (collapseEach listings) session :=
    Step.perform_bind_ok (Step.perform_state session)
  rw [started]
  rcases collapseEach_sheds wellFormed listings distinct
      (fun _ => marked_of_mem_expandedNodes coherent) with
    collapsed | ⟨tangled, id, listed, graph, refused, absent⟩
  · exact Or.inl collapsed
  · refine Or.inr ⟨tangled, _, graph, refused, fun unchanged => ?_⟩
    obtain ⟨owner, member, named, _⟩ := mem_expandedNodes.1 listed
    rw [unchanged] at absent
    exact absent (mem_nodeIds.2 ⟨owner, member, named⟩)

end Session

/-! ## Grown graphs -/

namespace QueryGraph

variable {graph : QueryGraph} {id : NodeId}

theorem Grown.beneath_of_hangsFrom
    (grown : graph.Grown)
    {top : NodeId}
    (hangs : graph.HangsFrom top id) :
    graph.Beneath top id :=
  grown.stems.beneath_of_mem_reached (by simp [Beneath.self]) (by simp)
    (grown.toCoherent.mem_reached_iff_hangsFrom.2 hangs)

/-- On a grown graph, unlisting takes the spare values with what is beneath them. -/
theorem Grown.unlists_iff
    (grown : graph.Grown)
    {owner : Node}
    (member : owner ∈ graph.nodes) :
    graph.Unlists owner.id id ↔ ∃ value, graph.Spare owner value ∧ graph.Beneath value id := by
  have coherent := grown.toCoherent
  constructor
  · rintro ⟨same, sameMember, named, link, listed, notBound, hangs⟩
    rw [coherent.eq_of_id_eq sameMember member named] at notBound
    exact ⟨link.target, (grown.spare_iff member).2 ⟨notBound, link, listed, rfl⟩,
      grown.beneath_of_hangsFrom hangs⟩
  · rintro ⟨top, spare, beneath⟩
    obtain ⟨notBound, link, listed, rfl⟩ := (grown.spare_iff member).1 spare
    obtain ⟨_, value, valueMember, valueNamed, _, parent⟩ := spare
    have notRoot := valueNamed ▸ coherent.id_ne_zero valueMember parent
    obtain ⟨node, nodeMember, rfl⟩ : ∃ node ∈ graph.nodes, node.id = id := by
      cases beneath with
      | self => exact ⟨value, valueMember, valueNamed⟩
      | child below _ _ => exact ⟨_, below, rfl⟩
    exact ⟨owner, member, rfl, link, listed, notBound, coherent.mem_reached_iff_hangsFrom.1
      ((coherent.mem_reached_iff grown.stems notRoot nodeMember).2 beneath)⟩

/-- On a grown graph, unlisting takes later nodes only. -/
theorem Grown.lt_of_unlists
    (grown : graph.Grown)
    {owner : NodeId}
    (unlists : graph.Unlists owner id) :
    owner.value < id.value := by
  have taken := unlists
  obtain ⟨holder, member, rfl, _⟩ := unlists
  obtain ⟨_, ⟨_, value, valueMember, rfl, _, parent⟩, beneath⟩ :=
    (grown.unlists_iff member).1 taken
  exact Nat.lt_of_lt_of_le (grown.toCoherent.parent_lt valueMember parent)
    (grown.toCoherent.le_of_beneath beneath)

/-- Collapsing all listings takes a node away. -/
def Swept (graph : QueryGraph) (id : NodeId) : Prop :=
  ∃ owner ∈ graph.nodes,
    owner.kind.listsValues = true ∧ owner.valueExpanded = true ∧
      ∃ value, graph.Spare owner value ∧ graph.Beneath value id

/-- Some listing hangs from a value that another listing takes away. -/
def Nested (graph : QueryGraph) : Prop :=
  ∃ owner ∈ graph.nodes,
    owner.kind.listsValues = true ∧ owner.valueExpanded = true ∧ graph.Swept owner.id

/-- A node is swept if one of the listings takes it. -/
theorem Grown.swept_iff
    (grown : graph.Grown) :
    graph.Swept id ↔ graph.Unlisted id := by
  constructor
  · rintro ⟨owner, member, lists, marked, sweeps⟩
    exact ⟨owner.id, Session.mem_expandedNodes.2 ⟨owner, member, rfl, lists, marked⟩,
      (grown.unlists_iff member).2 sweeps⟩
  · rintro ⟨_, listed, unlists⟩
    obtain ⟨owner, member, rfl, lists, marked⟩ := Session.mem_expandedNodes.1 listed
    exact ⟨owner, member, lists, marked, (grown.unlists_iff member).1 unlists⟩

/-- The listings of a grown graph can be unlisted in turn unless they are nested. -/
theorem Grown.unlistInTurn_iff
    (grown : graph.Grown) :
    graph.UnlistInTurn (Session.expandedNodes graph) ↔ ¬ graph.Nested := by
  have coherent := grown.toCoherent
  constructor
  · rintro ⟨_, inTurn⟩ ⟨owner, member, lists, marked, swept⟩
    obtain ⟨earlier, listed, unlists⟩ := grown.swept_iff.1 swept
    -- A nested listing is collapsed after the one that takes it, never before.
    have backwards : (Session.expandedNodes graph).Pairwise fun earlier later =>
        ¬ graph.Unlists later earlier :=
      (Session.expandedNodes_ordered coherent).imp fun smaller unlists =>
        Nat.lt_asymm smaller (grown.lt_of_unlists unlists)
    exact inTurn.forall_of_forall_of_flip
      (fun _ _ unlists => Nat.lt_irrefl _ (grown.lt_of_unlists unlists)) backwards listed
      (Session.mem_expandedNodes.2 ⟨owner, member, rfl, lists, marked⟩) unlists
  · intro apart
    constructor
    · intro id listed
      obtain ⟨owner, member, named, _⟩ := Session.mem_expandedNodes.1 listed
      exact mem_nodeIds.2 ⟨owner, member, named⟩
    · refine List.pairwise_of_forall_mem_list fun earlier isEarlier later isLater unlists => ?_
      obtain ⟨owner, member, rfl, lists, marked⟩ := Session.mem_expandedNodes.1 isLater
      exact apart ⟨owner, member, lists, marked, grown.swept_iff.2 ⟨earlier, isEarlier, unlists⟩⟩

end QueryGraph

namespace Session

open QueryGraph

variable {session : Session}

/-- Everything is collapsed unless listings are nested.  Then the nodes that were
swept away are gone; else some node is gone and the collapse is refused. -/
theorem perform_collapseAll
    (grown : session.graph.Grown) :
    (¬ session.graph.Nested ∧ ∃ graph,
      Step.perform collapseAll session = (.ok (), { session with graph }) ∧ graph.Grown ∧
        ∀ node ∈ session.graph.nodes, node.id ∉ graph.nodeIds ↔ session.graph.Swept node.id) ∨
      session.graph.Nested ∧ ∃ error graph,
        Step.perform collapseAll session = (.error error, { session with graph }) ∧
          graph ≠ session.graph := by
  have handled := admits_tends.collapseAll session grown
  rcases collapseAll_sheds grown.toWellFormed with
    ⟨inTurn, graph, _, performed, _, _, sheds⟩ | ⟨tangled, error, graph, refused, changed⟩
  · rw [Step.after, performed] at handled
    refine Or.inl ⟨grown.unlistInTurn_iff.1 inTurn, graph, performed,
      Handled.grown handled grown, fun node member => ?_⟩
    rw [sheds.left, not_and, Classical.not_not, grown.swept_iff]
    exact ⟨fun isGone => isGone (mem_nodeIds.2 ⟨node, member, rfl⟩), fun isGone _ => isGone⟩
  · rw [grown.unlistInTurn_iff, Classical.not_not] at tangled
    exact Or.inr ⟨tangled, error, graph, refused, changed⟩

end Session
end VisualQuery
