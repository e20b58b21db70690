import VisualQuery.Proofs.Graph.Shedding
import VisualQuery.Proofs.Session.Collapsing
import VisualQuery.Proofs.Session.Editing

/-!
# Collapsing relationships

The listings are collapsed one after the other, and then the relationships that
leave the node are removed one after the other.  Each takes what hangs from its
nodes, on a graph of any shape.  If that takes a listing or a relationship whose
turn is still to come, the next ones are not reached: the collapse is refused
there, and what it took stays taken.
-/

namespace VisualQuery
namespace QueryGraph

variable
  {graph before after : QueryGraph}
  {gone : NodeId → Prop}
  {dropped : Link → Prop}

/-- Some links can be removed in turn: none is missing, and none is taken along
by one that comes before it. -/
def GoInTurn (graph : QueryGraph) (links : List Link) : Prop :=
  (∀ link ∈ links, link ∈ graph.links) ∧
    links.Pairwise fun earlier later => ¬ graph.TakesAlong earlier later

/-- Links that are left take the same links along as before. -/
theorem Sheds.pairwise_takesAlong_iff
    (sheds : Sheds gone dropped before after)
    {links : List Link}
    (left : ∀ link ∈ links, link ∈ after.links) :
    (links.Pairwise fun earlier later => ¬ after.TakesAlong earlier later) ↔
      links.Pairwise fun earlier later => ¬ before.TakesAlong earlier later := by
  apply List.Pairwise.iff_of_mem
  intro earlier later _ member
  rw [sheds.takesAlong_iff (left later member)]

/-- The first link in turn, and then the others. -/
theorem Sheds.goInTurn_cons_iff
    (coherent : before.Coherent)
    {link : Link}
    {links : List Link}
    (known : link ∈ before.links)
    (first : Sheds (before.HangsFrom link.target) (fun other => other.id = link.id) before after)
    (distinct : ∀ later ∈ links, link.id ≠ later.id) :
    before.GoInTurn (link :: links) ↔ after.GoInTurn links := by
  have left_iff : ∀ later ∈ links, later ∈ after.links ↔
      later ∈ before.links ∧ ¬ before.TakesAlong link later := by
    intro later member
    rw [first.links, first.left, first.left, TakesAlong, not_or]
    constructor
    · rintro ⟨present, _, ⟨_, source⟩, _, target⟩
      exact ⟨present, source, target⟩
    · rintro ⟨present, source, target⟩
      obtain ⟨hasSource, hasTarget⟩ := coherent.linkEnds later present
      exact ⟨present, fun same => distinct later member same.symm, ⟨hasSource, source⟩,
        hasTarget, target⟩
  unfold GoInTurn
  rw [List.forall_mem_cons, List.pairwise_cons]
  constructor
  · rintro ⟨⟨_, present⟩, apart, inTurn⟩
    have left : ∀ later ∈ links, later ∈ after.links := fun later member =>
      (left_iff later member).2 ⟨present later member, apart later member⟩
    exact ⟨left, (first.pairwise_takesAlong_iff left).2 inTurn⟩
  · rintro ⟨left, inTurn⟩
    exact ⟨⟨known, fun later member => ((left_iff later member).1 (left later member)).1⟩,
      fun later member => ((left_iff later member).1 (left later member)).2,
      (first.pairwise_takesAlong_iff left).1 inTurn⟩

end QueryGraph

namespace Session

open QueryGraph

variable {session : Session}

/-- Links are removed if they can go in turn.  Otherwise the removal is refused at
a link that is missing by then. -/
theorem removeLinks_sheds
    (wellFormed : session.graph.WellFormed)
    (links : List Link)
    (distinct : links.Pairwise fun earlier later => earlier.id ≠ later.id)
    (unique : ∀ link ∈ links, ∀ other ∈ session.graph.links, other.id = link.id → other = link) :
    (session.graph.GoInTurn links ∧ ∃ graph,
      Step.perform (removeLinks (links.map Link.id)) session = (.ok (), { session with graph }) ∧
        Sheds (fun id => ∃ link ∈ links, session.graph.HangsFrom link.target id)
          (fun other => ∃ link ∈ links, other.id = link.id) session.graph graph) ∨
      ¬ session.graph.GoInTurn links ∧ ∃ link ∈ links, ∃ graph,
        Step.perform (removeLinks (links.map Link.id)) session =
            (.error (.unknownLink link.id), { session with graph }) ∧
          link ∉ graph.links := by
  induction links generalizing session with
  | nil =>
      refine Or.inl ⟨⟨by simp, List.Pairwise.nil⟩, session.graph, rfl, ?_⟩
      exact (Sheds.refl wellFormed.toCoherent).congr (by simp) (by simp)
  | cons link rest inductionHypothesis =>
      obtain ⟨apart, restDistinct⟩ := List.pairwise_cons.1 distinct
      by_cases known : link ∈ session.graph.links
      · have coherent := wellFormed.toCoherent
        obtain ⟨_, _, accepted⟩ := coherent.removeLink_extent known
        obtain ⟨cleared, accepted⟩ :
            ∃ cleared, session.graph.removeLink link.id = .ok cleared := ⟨_, accepted⟩
        have continued :
            Step.perform (removeLinks ((link :: rest).map Link.id)) session =
              Step.perform (removeLinks (rest.map Link.id)) { session with graph := cleared } := by
          rw [List.map_cons, removeLinks, Step.perform_bind_ok (perform_onGraph_unit accepted)]
        have first := Sheds.removeLink coherent known accepted
        have inTurn := first.goInTurn_cons_iff coherent known apart
        have stillUnique : ∀ later ∈ rest, ∀ other ∈ cleared.links,
            other.id = later.id → other = later := fun later member other otherMember =>
          unique later (List.mem_cons_of_mem _ member) other ((first.links other).1 otherMember).1
        rw [continued, inTurn]
        rcases @inductionHypothesis { session with graph := cleared }
          (wellFormed.removeLink accepted) restDistinct stillUnique with
          ⟨later, graph, removed, sheds⟩ | ⟨tangled, missing, listed, graph, refused, absent⟩
        · refine Or.inl ⟨later, graph, removed, (first.trans sheds).congr ?_ (by simp)⟩
          simp only [first.hangs, List.exists_mem_cons_iff]
          exact fun id => or_exists_and_not_iff
        · exact Or.inr ⟨tangled, missing, List.mem_cons_of_mem _ listed, graph, refused, absent⟩
      · have unknown : session.graph.removeLink link.id = .error (.unknownLink link.id) := by
          rw [removeLink, link_of_not_mem fun other member same =>
            known (unique link List.mem_cons_self other member same ▸ member)]
          rfl
        refine Or.inr ⟨fun inTurn => known (inTurn.1 link List.mem_cons_self), link,
          List.mem_cons_self, session.graph, ?_, known⟩
        exact Step.perform_bind_error (perform_onGraph_error (by rw [unknown]; rfl))

end Session

namespace QueryGraph

variable {graph : QueryGraph}

/-- Of two links to one node other than the root, the first takes the second
along. -/
theorem not_goInTurn_of_parallel
    {links : List Link}
    {link other : Link}
    (order : [link, other].Sublist links)
    (parallel : other.target = link.target)
    (inner : graph.Inner link.target) :
    ¬ graph.GoInTurn links := by
  rintro ⟨_, inTurn⟩
  refine List.pairwise_iff_forall_sublist.1 inTurn order (Or.inr ?_)
  rw [parallel]
  exact ⟨inner, Relation.ReflTransGen.refl⟩

end QueryGraph

namespace Session

open QueryGraph

variable {session : Session} {owner : Node}

/-- The relationships that leave a node once the listings are collapsed. -/
theorem leaving_of_sheds
    {graph cleared : QueryGraph}
    (coherent : graph.Coherent)
    (clearedCoherent : cleared.Coherent)
    {dropped : Link → Prop}
    (values : ∀ link, dropped link → link.kind = .value)
    (sheds : Sheds graph.Unlisted dropped graph cleared)
    {id : NodeId}
    (stays : ¬ graph.Unlisted id)
    {links : List Link}
    (within : links.Sublist graph.links)
    (leaving :
      ∀ link, link ∈ links ↔
        link ∈ graph.links ∧ link.source = id ∧ link.kind = .relation ∧
          ¬ graph.Unlisted link.target) :
    Session.relationLinks id cleared = links := by
  refine eq_of_mem_iff_of_ordered
    (clearedCoherent.linksOrdered.sublist (relationLinks_sublist id cleared))
    (coherent.linksOrdered.sublist within) fun link => ?_
  rw [leaving, mem_relationLinks, sheds.links, sheds.left, sheds.left]
  constructor
  · rintro ⟨⟨member, _, _, _, target⟩, source, isRelation⟩
    exact ⟨member, source, isRelation, target⟩
  · rintro ⟨member, rfl, isRelation, target⟩
    obtain ⟨hasSource, hasTarget⟩ := coherent.linkEnds link member
    refine ⟨⟨member, fun isDropped => ?_, ⟨hasSource, stays⟩, hasTarget, target⟩, rfl, isRelation⟩
    cases (values link isDropped).symm.trans isRelation

/-- Collapsing the relationships of a node without a listing, on a well-formed
graph. -/
theorem collapseRelationships_sheds
    (wellFormed : session.graph.WellFormed)
    (member : owner ∈ session.graph.nodes)
    (unmarked : owner.valueExpanded = false)
    (stays : ¬ session.graph.Unlisted owner.id)
    {links : List Link}
    (within : links.Sublist session.graph.links)
    (leaving :
      ∀ link, link ∈ links ↔
        link ∈ session.graph.links ∧ link.source = owner.id ∧ link.kind = .relation ∧
          ¬ session.graph.Unlisted link.target) :
    let inTurn :=
      session.graph.UnlistInTurn (expandedNodes session.graph) ∧ session.graph.GoInTurn links
    (inTurn ∧ ∃ after dropped,
      Step.perform (collapseRelationships owner.id) session =
          (.ok links.length, { session with graph := after }) ∧
        (∀ link ∈ links, dropped link) ∧
        Sheds
          (fun id =>
            session.graph.Unlisted id ∨ ∃ link ∈ links, session.graph.HangsFrom link.target id)
          dropped session.graph after) ∨
      ¬ inTurn ∧ ∃ error after,
        Step.perform (collapseRelationships owner.id) session =
            (.error error, { session with graph := after }) ∧
          after ≠ session.graph := by
  intro inTurn
  have coherent := wellFormed.toCoherent
  have started : Step.perform (collapseRelationships owner.id) session =
      Step.perform
        (collapseAll >>= fun _ => Step.state >>= fun session =>
          removeLinks (relationsFrom owner.id session.graph) >>= fun _ =>
            pure (relationsFrom owner.id session.graph).length) session := by
    rw [collapseRelationships, Step.perform_bind_ok (perform_node coherent member), unmarked]
    rfl
  rw [started]
  rcases collapseAll_sheds wellFormed with
    ⟨listingsInTurn, cleared, dropped, collapsed, reached, values, sheds⟩ |
    ⟨tangled, error, graph, refused, changed⟩
  · have left := leaving_of_sheds coherent reached.toCoherent values sheds stays within leaving
    have relations : relationsFrom owner.id cleared = links.map Link.id :=
      congrArg (List.map Link.id) left
    have present : ∀ link ∈ links, link ∈ cleared.links := by
      intro link listed
      rw [← left] at listed
      exact (mem_relationLinks.1 listed).1
    -- The collapse of the listings took none of these links.
    have goInTurn_iff : cleared.GoInTurn links ↔ session.graph.GoInTurn links := by
      rw [GoInTurn, GoInTurn, sheds.pairwise_takesAlong_iff present]
      exact and_congr_left fun _ =>
        ⟨fun _ _ listed => within.subset listed, fun _ => present⟩
    rw [Step.perform_bind_ok collapsed, Step.perform_bind_ok (Step.perform_state _), relations]
    rcases @removeLinks_sheds { session with graph := cleared } reached links
      ((coherent.linksOrdered.sublist within).imp fun smaller same => by
        rw [same] at smaller; exact Nat.lt_irrefl _ smaller)
      (fun link listed other otherMember same =>
        reached.toCoherent.eq_of_link_id_eq otherMember (present link listed) same) with
      ⟨linksInTurn, after, removed, later⟩ | ⟨tangled, link, listed, after, refused, absent⟩
    · refine Or.inl ⟨⟨listingsInTurn, goInTurn_iff.1 linksInTurn⟩, after, _,
        (Step.perform_bind_ok removed).trans ?_, ?_, (sheds.trans later).congr ?_
          fun _ _ => Iff.rfl⟩
      · rw [List.length_map]
        rfl
      · exact fun link listed => Or.inr ⟨link, listed, rfl⟩
      · simp only [sheds.hangs]
        exact fun id => or_exists_and_not_iff
    -- A link that the collapse started with is missing, so the graph is another one.
    · refine Or.inr ⟨fun both => tangled (goInTurn_iff.2 both.2), _, after,
        Step.perform_bind_error refused, fun unchanged => ?_⟩
      rw [unchanged] at absent
      exact absent (within.subset listed)
  · exact Or.inr ⟨fun both => tangled both.1, error, graph, Step.perform_bind_error refused,
      changed⟩

/-- In a session whose caller makes any edits, collapse the relationships of a
node that lists no values and that no listing takes.  They are removed in the
order of their links, those apart that lead to what a listing takes.  If no
listing and no relationship takes one that comes later, then the collapse is
accepted and answers their number, exactly what hangs from them is gone, and no
relationship leaves the node any more.  Otherwise it is refused, and some of the
graph is gone nevertheless. -/
theorem collapseRelationships_completes_iff_inTurn
    {metadata : LabelMetadata}
    {options : QueryOptions}
    {calls : List SessionCall}
    (editing : SessionCall.Editing calls (.new metadata options))
    {owner : Node}
    (member : owner ∈ (SessionCall.run calls (.new metadata options)).graph.nodes)
    (unmarked : owner.valueExpanded = false)
    (stays : ¬ (SessionCall.run calls (.new metadata options)).graph.Unlisted owner.id) :
    let session := SessionCall.run calls (.new metadata options)
    let graph := session.graph
    ∃ links : List Link, links.Sublist graph.links ∧
      (∀ link, link ∈ links ↔
        link ∈ graph.links ∧ link.source = owner.id ∧ link.kind = .relation ∧
          ¬ graph.Unlisted link.target) ∧
      let inTurn := graph.UnlistInTurn (expandedNodes graph) ∧ graph.GoInTurn links
      (inTurn → ∃ after,
        Step.perform (collapseRelationships owner.id) session =
            (.ok links.length, { session with graph := after }) ∧
          relationsFrom owner.id after = [] ∧
          ∀ node ∈ graph.nodes, node.id ∉ after.nodeIds ↔
            graph.Unlisted node.id ∨ ∃ link ∈ links, graph.HangsFrom link.target node.id) ∧
      (¬ inTurn → ∃ error after,
        Step.perform (collapseRelationships owner.id) session =
            (.error error, { session with graph := after }) ∧
          after ≠ graph) := by
  classical
  intro session graph
  have wellFormed : graph.WellFormed := SessionCall.run_wellFormed calls
    (show (Session.new metadata options).graph.WellFormed from wellFormed_empty) editing
  let links : List Link := graph.links.filter fun link =>
    link.source = owner.id ∧ link.kind = .relation ∧ ¬ graph.Unlisted link.target
  have within : links.Sublist graph.links := List.filter_sublist
  have leaving : ∀ link, link ∈ links ↔ link ∈ graph.links ∧ link.source = owner.id ∧
      link.kind = .relation ∧ ¬ graph.Unlisted link.target := fun link => by simp [links]
  refine ⟨links, within, leaving, ?_⟩
  rcases collapseRelationships_sheds wellFormed member unmarked stays within leaving with
    ⟨inTurn, after, dropped, collapsed, removed, sheds⟩ | ⟨tangled, error, after, refused, changed⟩
  · refine ⟨fun _ => ⟨after, collapsed, ?_, ?_⟩, fun tangled => absurd inTurn tangled⟩
    · rw [relationsFrom_eq, List.map_eq_nil_iff, List.eq_nil_iff_forall_not_mem]
      intro link left
      obtain ⟨present, source, isRelation⟩ := mem_relationLinks.1 left
      obtain ⟨linkMember, notDropped, _, target⟩ := (sheds.links link).1 present
      have targetStays := not_or.1 ((sheds.left link.target).1 target).2
      exact notDropped
        (removed link ((leaving link).2 ⟨linkMember, source, isRelation, targetStays.1⟩))
    · intro node nodeMember
      rw [sheds.left, not_and, Classical.not_not]
      exact ⟨fun isGone => isGone (mem_nodeIds.2 ⟨node, nodeMember, rfl⟩), fun isGone _ => isGone⟩
  · exact ⟨fun inTurn => absurd inTurn tangled, fun _ => ⟨error, after, refused, changed⟩⟩

/-- An account with two relationships to one contact. -/
def doubledContact : List SessionCall :=
  [.start "Account",
    .editGraph (GraphEdit.run
      [.addRelationship ⟨0⟩ "OWNS" "Contact" false,
        .addLink ⟨0⟩ ⟨1⟩ .relation (some "KNOWS")])]

/-- They cannot be collapsed: the second is gone with the contact when its turn
comes. -/
theorem collapseRelationships_refused_doubledContact :
    let session := SessionCall.run doubledContact (.new Compiler.namedLabels {})
    ∃ error after,
      Step.perform (collapseRelationships ⟨0⟩) session =
          (.error error, { session with graph := after }) ∧
        after ≠ session.graph := by
  intro session
  have editing : SessionCall.Editing doubledContact (.new Compiler.namedLabels {}) :=
    ⟨trivial, ⟨_, rfl⟩, trivial⟩
  obtain ⟨root, member, named, unmarked⟩ : ∃ root ∈ session.graph.nodes,
      root.id = ⟨0⟩ ∧ root.valueExpanded = false := by decide +kernel
  have noListing : expandedNodes session.graph = [] := by decide +kernel
  have noneUnlisted : ∀ id, ¬ session.graph.Unlisted id := by
    rintro id ⟨owner, listed, _⟩
    rw [noListing] at listed
    cases listed
  have contact : session.graph.Inner ⟨1⟩ :=
    show ∃ node ∈ session.graph.nodes, node.id = ⟨1⟩ ∧ node.kind ≠ .root by decide +kernel
  have owned : ∀ link ∈ session.graph.links,
      link.source = ⟨0⟩ ∧ link.kind = .relation ∧ link.target = ⟨1⟩ := by decide +kernel
  obtain ⟨first, second, both⟩ : ∃ first second, session.graph.links = [first, second] :=
    List.length_eq_two.1 (by decide +kernel)
  obtain ⟨links, within, leaving, _, refused⟩ :=
    collapseRelationships_completes_iff_inTurn editing member unmarked (noneUnlisted root.id)
  have coherent : session.graph.Coherent := (SessionCall.run_wellFormed doubledContact
    (show (Session.new Compiler.namedLabels {}).graph.WellFormed from wellFormed_empty)
    editing).toCoherent
  have all : links = session.graph.links := by
    refine eq_of_mem_iff_of_ordered (coherent.linksOrdered.sublist within) coherent.linksOrdered
      fun link => ⟨fun listed => within.subset listed, fun linkMember => ?_⟩
    obtain ⟨source, isRelation, _⟩ := owned link linkMember
    exact (leaving link).2 ⟨linkMember, source.trans named.symm, isRelation, noneUnlisted _⟩
  have firstTarget := (owned first (by simp [both])).2.2
  have secondTarget := (owned second (by simp [both])).2.2
  have tangled : ¬ session.graph.GoInTurn links := by
    rw [all, both]
    exact not_goInTurn_of_parallel (List.Sublist.refl _) (secondTarget.trans firstTarget.symm)
      (firstTarget ▸ contact)
  rw [named] at refused
  exact refused fun inTurn => tangled inTurn.2

end Session
end VisualQuery
