import VisualQuery.Proofs.Compiler.Climbing
import VisualQuery.Proofs.Graph.Drawing

/-!
# Relevant links of drawn graphs

In a drawn graph the relationships that a statement matches are those on the
ways from the root to its target and to the bound nodes, each once and in
creation order.  The straight path from a term to the root exists and consists
of the same links, although it is found by another search.
-/

namespace VisualQuery
namespace QueryGraph

variable {graph : QueryGraph}

theorem mem_relations
    {link : Link} :
    link ∈ graph.relations ↔ link ∈ graph.links ∧ link.isRelation = true :=
  List.mem_filter

/-- A graph with a node has a root, and its number is 0. -/
theorem Coherent.root_ok
    (coherent : graph.Coherent)
    {node : Node}
    (member : node ∈ graph.nodes) :
    ∃ root ∈ graph.nodes, graph.root = .ok root ∧ root.kind = .root ∧ root.id = ⟨0⟩ := by
  cases nodes_eq : graph.nodes with
  | nil => rw [nodes_eq] at member; simp at member
  | cons first rest =>
      obtain ⟨kind, id, _, _⟩ := coherent.rootFirst first rest nodes_eq
      refine ⟨first, List.mem_cons_self, ?_, kind, id⟩
      simp [QueryGraph.root, nodes_eq, Node.isRoot, kind]

/-- Bound nodes are terms. -/
theorem Coherent.ne_value_of_isBound
    (coherent : graph.Coherent)
    {node : Node}
    (member : node ∈ graph.nodes)
    (bound : node.isBound = true) :
    node.kind ≠ .value := by
  obtain ⟨id, isBound⟩ := Option.isSome_iff_exists.1 bound
  obtain ⟨value, valueMember, _, isValue, parent⟩ := coherent.boundBelow node member id isBound
  have lists := coherent.lists_of_value member valueMember isValue parent
  intro isValue
  rw [isValue] at lists
  cases lists

/-- A relationship is an anchor if it leads to the target or to a bound node. -/
theorem Coherent.isAnchor_iff
    (coherent : graph.Coherent)
    {target : NodeId}
    {link : Link}
    (member : link ∈ graph.relations) :
    graph.isAnchor target link = true ↔
      ∃ node ∈ graph.nodes,
        node.id = link.target ∧ (node.id = target ∨ node.isBound = true) := by
  obtain ⟨node, nodeMember, named⟩ :=
    mem_nodeIds.1 (coherent.linkEnds link (mem_relations.1 member).1).2
  have found := coherent.node?_of_mem nodeMember
  rw [named] at found
  simp only [isAnchor, found, Bool.or_eq_true, decide_eq_true_eq]
  constructor
  · intro anchors
    exact ⟨node, nodeMember, named, named ▸ anchors⟩
  · rintro ⟨other, otherMember, otherNamed, anchors⟩
    have same := coherent.eq_of_id_eq otherMember nodeMember (otherNamed.trans named.symm)
    subst same
    exact named ▸ anchors

/-! ## Anchors and what is crossed from there -/

/-- The anchors, and the links crossed on the climbs from them. -/
def chosenLinks (root target : NodeId) (graph : QueryGraph) : List Link :=
  graph.relations.filter (graph.isAnchor target) ++
    (climbAll root (graph.relations.filter (graph.isAnchor target))
      (graph.relations.filter fun link => !graph.isAnchor target link)).1

theorem mem_relations_of_chosen
    {root target : NodeId}
    {link : Link}
    (chosen : link ∈ graph.chosenLinks root target) :
    link ∈ graph.relations := by
  have climbed := climbAll_climbed root (graph.relations.filter (graph.isAnchor target))
    (graph.relations.filter fun link => !graph.isAnchor target link)
  rcases List.mem_append.1 chosen with anchor | crossed
  · exact (List.mem_filter.1 anchor).1
  · exact (List.mem_filter.1 ((climbed.divided link).2 (Or.inl crossed))).1

/-- These are the links that a statement matches. -/
theorem mem_relevantLinks_iff_chosen
    {root target : NodeId}
    {id : LinkId} :
    id ∈ graph.relevantLinks root target ↔
      ∃ link ∈ graph.chosenLinks root target, link.id = id := by
  show id ∈ (graph.links.filter fun link =>
    link.id ∈ (graph.chosenLinks root target).map Link.id).map Link.id ↔ _
  simp only [List.mem_map, List.mem_filter, decide_eq_true_eq]
  constructor
  · rintro ⟨link, ⟨_, other, chosen, same⟩, rfl⟩
    exact ⟨other, chosen, same⟩
  · rintro ⟨link, chosen, rfl⟩
    have member := (mem_relations.1 (mem_relations_of_chosen chosen)).1
    exact ⟨link, ⟨member, link, chosen, rfl⟩, rfl⟩

/-! ## Ways up a tree -/

/-- No way up leaves the root. -/
theorem Enters.eq_of_ascends
    {root top : NodeId}
    {links : List Link}
    (enters : Enters root links)
    (ascends : Ascends links root top) :
    top = root := by
  generalize start : root = node at ascends
  cases ascends with
  | here => rfl
  | up member _ => exact absurd start.symm (enters.notRoot _ member)

/-- A way up from the target of a link ends there or crosses the link. -/
theorem Enters.ascends_target_iff
    {root top : NodeId}
    {links : List Link}
    (enters : Enters root links)
    {link : Link}
    (member : link ∈ links) :
    Ascends links link.target top ↔ top = link.target ∨ Ascends links link.source top := by
  constructor
  · intro ascends
    generalize start : link.target = node at ascends
    cases ascends with
    | here => exact Or.inl rfl
    | up crossedMember above =>
        rw [enters.once link member _ crossedMember start]
        exact Or.inr above
  · rintro (rfl | above)
    · exact Ascends.here _
    · exact Ascends.up member above

/-- Links that go on upwards from what they contain have everything on a way
up that enters them. -/
theorem Ascends.mem_of_upward
    {links selected : List Link}
    (upward :
      ∀ link ∈ selected, ∀ above ∈ links, above.target = link.source → above ∈ selected)
    {node : NodeId}
    {top : Link}
    (ascends : Ascends links node top.target)
    (member : top ∈ links)
    (entering : ∀ link ∈ links, link.target = node → link ∈ selected) :
    top ∈ selected := by
  generalize goal : top.target = last at ascends
  induction ascends with
  | here last => exact entering top member goal
  | up linkMember above inductionHypothesis =>
      exact inductionHypothesis (upward _ (entering _ linkMember rfl)) goal

/-- The search for the straight path goes on from the source of the
relationship it finds. -/
theorem pathToRoot_of_entering
    {root id : NodeId}
    {seen : List NodeId}
    {link : Link}
    (short : id ≠ root)
    (fresh : id ∉ seen)
    (found : graph.entering? id = some link) :
    graph.pathToRoot root id seen =
      (graph.pathToRoot root link.source (id :: seen)).map (link.id :: ·) := by
  rw [pathToRoot, if_neg short, dif_neg fresh]
  split
  · rename_i missing
    rw [found] at missing
    cases missing
  · rename_i first isFirst
    rw [found] at isFirst
    injection isFirst with same
    rw [same]

namespace Tree

theorem source_lt
    (tree : graph.Tree)
    {link : Link}
    (member : link ∈ graph.relations) :
    link.source.value < link.target.value := by
  obtain ⟨linkMember, isRelation⟩ := mem_relations.1 member
  obtain ⟨node, nodeMember, named, _, isParent⟩ := tree.target link linkMember isRelation
  rw [← named]
  exact tree.toCoherent.parent_lt nodeMember isParent

/-- Relationships enter every node at most once, and the root not at all. -/
theorem enters (tree : graph.Tree) :
    Enters ⟨0⟩ graph.relations where
  once := by
    intro left leftMember right rightMember same
    obtain ⟨leftLink, leftRelation⟩ := mem_relations.1 leftMember
    obtain ⟨rightLink, rightRelation⟩ := mem_relations.1 rightMember
    exact tree.once left leftLink right rightLink leftRelation rightRelation same
  notRoot := by
    intro link member isRoot
    have smaller := tree.source_lt member
    rw [isRoot] at smaller
    exact absurd smaller (Nat.not_lt_zero _)

/-- A term other than the root is entered from the term it was expanded from. -/
theorem exists_relation
    (tree : graph.Tree)
    {node : Node}
    (member : node ∈ graph.nodes)
    (notValue : node.kind ≠ .value)
    (notRoot : node.id ≠ ⟨0⟩) :
    ∃ link ∈ graph.relations,
      link.target = node.id ∧ node.parent = some link.source ∧ graph.IsTerm link.source := by
  have notRootKind : node.kind ≠ .root := by
    intro isRoot
    exact notRoot (tree.toCoherent.id_eq_of_isRoot member isRoot).1
  obtain ⟨link, linkMember, isRelation, target⟩ :=
    tree.entered node member notValue notRootKind
  obtain ⟨entered, enteredMember, named, _, isParent⟩ := tree.target link linkMember isRelation
  have same := tree.toCoherent.eq_of_id_eq enteredMember member (named.trans target)
  subst same
  exact ⟨link, mem_relations.2 ⟨linkMember, isRelation⟩, target, isParent,
    tree.source link linkMember isRelation⟩

/-- The ways up from a term follow the line of its parents. -/
theorem ascends_iff_beneath
    (tree : graph.Tree)
    {id top : NodeId}
    (isTerm : graph.IsTerm id) :
    Ascends graph.relations id top ↔ graph.Beneath top id := by
  constructor
  · intro ascends
    clear isTerm
    induction ascends with
    | here node => exact Beneath.self
    | up member _ inductionHypothesis =>
        obtain ⟨linkMember, isRelation⟩ := mem_relations.1 member
        obtain ⟨node, nodeMember, named, _, isParent⟩ := tree.target _ linkMember isRelation
        rw [← named]
        exact Beneath.child nodeMember isParent inductionHypothesis
  · intro beneath
    induction beneath with
    | self => exact Ascends.here _
    | child member isParent _ inductionHypothesis =>
        rename_i node parent
        obtain ⟨term, termMember, named, notValue⟩ := isTerm
        have same := tree.toCoherent.eq_of_id_eq termMember member named
        subst same
        have larger := tree.toCoherent.parent_lt member isParent
        have notRoot : term.id ≠ ⟨0⟩ := by
          intro isRoot
          rw [isRoot] at larger
          exact Nat.not_lt_zero _ larger
        obtain ⟨link, linkMember, target, source, sourceTerm⟩ :=
          tree.exists_relation member notValue notRoot
        rw [isParent] at source
        injection source with source
        subst source
        rw [← target]
        exact Ascends.up linkMember (inductionHypothesis sourceTerm)

/-! ## Straight paths -/

theorem entering?_eq
    (tree : graph.Tree)
    {link : Link}
    (member : link ∈ graph.relations) :
    graph.entering? link.target = some link := by
  obtain ⟨linkMember, isRelation⟩ := mem_relations.1 member
  cases found : graph.entering? link.target with
  | none =>
      have missing := List.find?_eq_none.1 found link linkMember
      simp [isRelation] at missing
  | some first =>
      have firstMember := List.mem_of_find?_eq_some found
      have holds := List.find?_some found
      simp only [Bool.and_eq_true, decide_eq_true_eq] at holds
      rw [tree.once first firstMember link linkMember holds.1 isRelation holds.2]

theorem pathToRoot_step
    (tree : graph.Tree)
    {link : Link}
    (member : link ∈ graph.relations)
    {seen : List NodeId}
    (fresh : link.target ∉ seen) :
    graph.pathToRoot ⟨0⟩ link.target seen =
      (graph.pathToRoot ⟨0⟩ link.source (link.target :: seen)).map (link.id :: ·) :=
  pathToRoot_of_entering (tree.enters.notRoot link member) fresh (tree.entering?_eq member)

/-- A way up from the target of a link crosses the link and what a way up from
its source crosses. -/
theorem exists_crossed_iff
    (tree : graph.Tree)
    {link : Link}
    (member : link ∈ graph.relations)
    (crossed : LinkId) :
    (∃ other ∈ graph.relations,
        other.id = crossed ∧ Ascends graph.relations link.target other.target) ↔
      crossed = link.id ∨
        ∃ other ∈ graph.relations,
          other.id = crossed ∧ Ascends graph.relations link.source other.target := by
  constructor
  · rintro ⟨other, otherMember, named, ascends⟩
    rcases (tree.enters.ascends_target_iff member).1 ascends with same | above
    · rw [tree.enters.once other otherMember link member same] at named
      exact Or.inl named.symm
    · exact Or.inr ⟨other, otherMember, named, above⟩
  · rintro (rfl | ⟨other, otherMember, named, above⟩)
    · exact ⟨link, member, rfl, Ascends.here _⟩
    · exact ⟨other, otherMember, named, Ascends.up member above⟩

/-- Nodes seen on the way from a term up to the root have larger numbers, so the
search neither turns in a circle nor gets stuck. -/
theorem pathToRoot_ok
    (tree : graph.Tree)
    {id : NodeId}
    (seen : List NodeId)
    (isTerm : graph.IsTerm id)
    (below : ∀ passed ∈ seen, id.value < passed.value) :
    ∃ path,
      graph.pathToRoot ⟨0⟩ id seen = .ok path ∧
        ∀ crossed, crossed ∈ path ↔
          ∃ link ∈ graph.relations,
            link.id = crossed ∧ Ascends graph.relations id link.target := by
  induction number : id.value using Nat.strongRecOn generalizing id seen with
  | _ bound inductionHypothesis =>
      by_cases isRoot : id = ⟨0⟩
      · subst isRoot
        refine ⟨[], by rw [pathToRoot, if_pos rfl], ?_⟩
        intro crossed
        constructor
        · simp
        · rintro ⟨link, member, _, ascends⟩
          exact absurd (tree.enters.eq_of_ascends ascends) (tree.enters.notRoot link member)
      · obtain ⟨node, nodeMember, rfl, notValue⟩ := isTerm
        obtain ⟨link, member, target, _, sourceTerm⟩ :=
          tree.exists_relation nodeMember notValue isRoot
        rw [← target] at below number ⊢
        have smaller := tree.source_lt member
        have fresh : link.target ∉ seen := by
          intro passed
          exact Nat.lt_irrefl _ (below link.target passed)
        have sourceBelow : ∀ passed ∈ link.target :: seen,
            link.source.value < passed.value := by
          intro passed passedMember
          rcases List.mem_cons.1 passedMember with rfl | earlier
          · exact smaller
          · have above := below passed earlier
            omega
        obtain ⟨path, found, crossings⟩ :=
          inductionHypothesis link.source.value (number ▸ smaller) (link.target :: seen)
            sourceTerm sourceBelow rfl
        refine ⟨link.id :: path, ?_, ?_⟩
        · rw [tree.pathToRoot_step member fresh, found]
          rfl
        · intro crossed
          rw [List.mem_cons, crossings, tree.exists_crossed_iff member]

/-- Every term has a straight path to the root: the relationships on its way
up. -/
theorem linksToRoot_ok
    (tree : graph.Tree)
    {node : Node}
    (member : node ∈ graph.nodes)
    (notValue : node.kind ≠ .value) :
    ∃ path,
      graph.linksToRoot node.id = .ok path ∧
        ∀ crossed, crossed ∈ path ↔
          ∃ link ∈ graph.relations,
            link.id = crossed ∧ Ascends graph.relations node.id link.target := by
  obtain ⟨root, _, root_eq, _, rootId⟩ := tree.toCoherent.root_ok member
  obtain ⟨path, found, crossings⟩ :=
    tree.pathToRoot_ok [] ⟨node, member, rfl, notValue⟩ (by simp)
  refine ⟨path, ?_, crossings⟩
  rw [← rootId] at found
  simp only [linksToRoot, tree.toCoherent.node_of_mem member, root_eq, bind, Except.bind]
  exact found

/-! ## Relevant links -/

/-- What is crossed below an anchor or by a climb continues up to the root
through anchors and crossed links. -/
theorem upward_of_chosen
    (tree : graph.Tree)
    {target : NodeId} :
    ∀ link ∈ graph.chosenLinks ⟨0⟩ target,
      ∀ above ∈ graph.relations, above.target = link.source →
        above ∈ graph.chosenLinks ⟨0⟩ target := by
  have enters : Enters ⟨0⟩ (graph.relations.filter fun link => !graph.isAnchor target link) :=
    tree.enters.subset fun link member => (List.mem_filter.1 member).1
  have climbed := climbAll_climbed ⟨0⟩ (graph.relations.filter (graph.isAnchor target))
    (graph.relations.filter fun link => !graph.isAnchor target link)
  intro link member above aboveMember continues
  by_cases anchors : graph.isAnchor target above = true
  · exact List.mem_append_left _ (List.mem_filter.2 ⟨aboveMember, anchors⟩)
  · have pooled : above ∈ graph.relations.filter fun link => !graph.isAnchor target link :=
      List.mem_filter.2 ⟨aboveMember, by simpa using anchors⟩
    refine List.mem_append_right _ ?_
    rcases List.mem_append.1 member with anchor | between
    · exact climbed.mem_of_entering enters (List.mem_map_of_mem anchor) pooled continues
    · exact climbed.mem_of_continuing enters between pooled continues

/-- The links that a statement matches are those on the ways from its target and
from the bound nodes up to the root. -/
theorem mem_chosenLinks
    (tree : graph.Tree)
    {target : NodeId}
    (link : Link) :
    link ∈ graph.chosenLinks ⟨0⟩ target ↔
      link ∈ graph.relations ∧
        ∃ node ∈ graph.nodes,
          (node.id = target ∨ node.isBound = true) ∧
            Ascends graph.relations node.id link.target := by
  have climbed := climbAll_climbed ⟨0⟩ (graph.relations.filter (graph.isAnchor target))
    (graph.relations.filter fun link => !graph.isAnchor target link)
  constructor
  · intro member
    refine ⟨mem_relations_of_chosen member, ?_⟩
    rcases List.mem_append.1 member with anchor | between
    · obtain ⟨linkMember, anchors⟩ := List.mem_filter.1 anchor
      obtain ⟨node, nodeMember, named, holds⟩ :=
        (tree.toCoherent.isAnchor_iff linkMember).1 anchors
      refine ⟨node, nodeMember, holds, ?_⟩
      rw [named]
      exact Ascends.here _
    · obtain ⟨source, sourceMember, ascends⟩ := climbed.reached link between
      obtain ⟨anchor, anchorMember, rfl⟩ := List.mem_map.1 sourceMember
      obtain ⟨anchorRelation, anchors⟩ := List.mem_filter.1 anchorMember
      obtain ⟨node, nodeMember, named, holds⟩ :=
        (tree.toCoherent.isAnchor_iff anchorRelation).1 anchors
      refine ⟨node, nodeMember, holds, ?_⟩
      rw [named]
      refine Ascends.up anchorRelation (ascends.mono ?_)
      intro other otherMember
      exact (List.mem_filter.1 otherMember).1
  · rintro ⟨linkMember, node, nodeMember, holds, ascends⟩
    apply ascends.mem_of_upward tree.upward_of_chosen linkMember
    intro anchor anchorMember target
    refine List.mem_append_left _ (List.mem_filter.2 ⟨anchorMember, ?_⟩)
    exact (tree.toCoherent.isAnchor_iff anchorMember).2 ⟨node, nodeMember, target.symm, holds⟩

theorem mem_relevantLinks
    (tree : graph.Tree)
    (target : NodeId)
    (id : LinkId) :
    id ∈ graph.relevantLinks ⟨0⟩ target ↔
      ∃ link ∈ graph.relations,
        link.id = id ∧
          ∃ node ∈ graph.nodes,
            (node.id = target ∨ node.isBound = true) ∧
              Ascends graph.relations node.id link.target := by
  rw [mem_relevantLinks_iff_chosen]
  constructor
  · rintro ⟨link, chosen, named⟩
    obtain ⟨relation, holds⟩ := (tree.mem_chosenLinks link).1 chosen
    exact ⟨link, relation, named, holds⟩
  · rintro ⟨link, relation, named, holds⟩
    exact ⟨link, (tree.mem_chosenLinks link).2 ⟨relation, holds⟩, named⟩

/-- The same for a target that is a term; then all the ways start at terms. -/
theorem mem_relevantLinks_of_term
    (tree : graph.Tree)
    {target : Node}
    (member : target ∈ graph.nodes)
    (isTerm : target.kind ≠ .value)
    (id : LinkId) :
    id ∈ graph.relevantLinks ⟨0⟩ target.id ↔
      ∃ link ∈ graph.relations,
        link.id = id ∧
          ∃ node ∈ graph.nodes,
            node.kind ≠ .value ∧ (node = target ∨ node.isBound = true) ∧
              Ascends graph.relations node.id link.target := by
  rw [tree.mem_relevantLinks]
  constructor
  · rintro ⟨link, relation, named, node, nodeMember, holds, ascends⟩
    refine ⟨link, relation, named, node, nodeMember, ?_, ?_, ascends⟩
    · rcases holds with same | bound
      · rw [tree.toCoherent.eq_of_id_eq nodeMember member same]
        exact isTerm
      · exact tree.toCoherent.ne_value_of_isBound nodeMember bound
    · exact holds.imp_left (tree.toCoherent.eq_of_id_eq nodeMember member)
  · rintro ⟨link, relation, named, node, nodeMember, _, holds, ascends⟩
    exact ⟨link, relation, named, node, nodeMember, holds.imp_left (congrArg Node.id), ascends⟩

/-- The relevant links are those of the straight paths from the target and from
the bound nodes. -/
theorem mem_relevantLinks_iff_path
    (tree : graph.Tree)
    {target : Node}
    (member : target ∈ graph.nodes)
    (isTerm : target.kind ≠ .value)
    (id : LinkId) :
    id ∈ graph.relevantLinks ⟨0⟩ target.id ↔
      ∃ node ∈ graph.nodes,
        (node = target ∨ node.isBound = true) ∧
          ∃ path, graph.linksToRoot node.id = .ok path ∧ id ∈ path := by
  rw [tree.mem_relevantLinks_of_term member isTerm]
  constructor
  · rintro ⟨link, relation, named, node, nodeMember, notValue, holds, ascends⟩
    obtain ⟨path, found, crossings⟩ := tree.linksToRoot_ok nodeMember notValue
    have crossed := (crossings id).2 ⟨link, relation, named, ascends⟩
    exact ⟨node, nodeMember, holds, path, found, crossed⟩
  · rintro ⟨node, nodeMember, holds, path, found, crossed⟩
    have notValue : node.kind ≠ .value := by
      rcases holds with rfl | bound
      · exact isTerm
      · exact tree.toCoherent.ne_value_of_isBound nodeMember bound
    obtain ⟨straight, straightFound, crossings⟩ := tree.linksToRoot_ok nodeMember notValue
    rw [found] at straightFound
    injection straightFound with same
    subst same
    obtain ⟨link, relation, named, ascends⟩ := (crossings id).1 crossed
    exact ⟨link, relation, named, node, nodeMember, notValue, holds, ascends⟩

/-- A link is relevant if it is a relationship and the target or a bound node
is where it leads or below. -/
theorem mem_relevantLinks_iff_beneath
    (tree : graph.Tree)
    {target : Node}
    (member : target ∈ graph.nodes)
    (isTerm : target.kind ≠ .value)
    {link : Link}
    (linkMember : link ∈ graph.links) :
    link.id ∈ graph.relevantLinks ⟨0⟩ target.id ↔
      link.isRelation = true ∧
        ∃ node ∈ graph.nodes,
          (node = target ∨ node.isBound = true) ∧ graph.Beneath link.target node.id := by
  rw [tree.mem_relevantLinks_of_term member isTerm]
  constructor
  · rintro ⟨other, relation, same, node, nodeMember, notValue, holds, ascends⟩
    obtain ⟨otherMember, isRelation⟩ := mem_relations.1 relation
    have equal := tree.toCoherent.eq_of_link_id_eq otherMember linkMember same
    subst equal
    have beneath := (tree.ascends_iff_beneath ⟨node, nodeMember, rfl, notValue⟩).1 ascends
    exact ⟨isRelation, node, nodeMember, holds, beneath⟩
  · rintro ⟨isRelation, node, nodeMember, holds, beneath⟩
    have notValue : node.kind ≠ .value := by
      rcases holds with rfl | bound
      · exact isTerm
      · exact tree.toCoherent.ne_value_of_isBound nodeMember bound
    have ascends := (tree.ascends_iff_beneath ⟨node, nodeMember, rfl, notValue⟩).2 beneath
    exact ⟨link, mem_relations.2 ⟨linkMember, isRelation⟩, rfl, node, nodeMember, notValue,
      holds, ascends⟩

end Tree

theorem exists_link_of_mem_relevantLinks
    {root target : NodeId}
    {id : LinkId}
    (relevant : id ∈ graph.relevantLinks root target) :
    ∃ link ∈ graph.links, link.id = id := by
  obtain ⟨link, member, named⟩ := List.mem_map.1 relevant
  exact ⟨link, (List.mem_filter.1 member).1, named⟩

/-- Relevant links stand in the order in which they were made, each once. -/
theorem Coherent.relevantLinks_ordered
    (coherent : graph.Coherent)
    (root target : NodeId) :
    (graph.relevantLinks root target).Pairwise fun earlier later =>
      earlier.value < later.value := by
  unfold relevantLinks
  refine List.pairwise_map.2 ?_
  exact coherent.linksOrdered.sublist List.filter_sublist

end QueryGraph

namespace GraphEdit

open QueryGraph

/-- In a drawn graph every term has a straight path to the root, and the links
relevant for a term are those of its path and of the paths of the bound nodes,
each once and in the order in which they were made.  So a relationship is
selected exactly if the term or a bound node is its target or below it. -/
theorem relevantLinks_eq_paths
    (edits : List GraphEdit)
    (drawing : Drawing edits .empty)
    {target : Node}
    (member : target ∈ (run edits .empty).nodes)
    (isTerm : target.kind ≠ .value) :
    ∃ root, (run edits .empty).root = .ok root ∧
      (∀ node ∈ (run edits .empty).nodes, node.kind ≠ .value →
        ∃ path, (run edits .empty).linksToRoot node.id = .ok path) ∧
      (∀ id, id ∈ (run edits .empty).relevantLinks root.id target.id ↔
        ∃ node ∈ (run edits .empty).nodes,
          (node = target ∨ node.isBound = true) ∧
            ∃ path, (run edits .empty).linksToRoot node.id = .ok path ∧ id ∈ path) ∧
      ((run edits .empty).relevantLinks root.id target.id).Pairwise
        (fun earlier later => earlier.value < later.value) ∧
      ∀ link ∈ (run edits .empty).links,
        link.id ∈ (run edits .empty).relevantLinks root.id target.id ↔
          link.isRelation = true ∧
            ∃ node ∈ (run edits .empty).nodes,
              (node = target ∨ node.isBound = true) ∧
                (run edits .empty).Beneath link.target node.id := by
  have tree := run_tree edits wellFormed_empty tree_empty drawing
  obtain ⟨root, _, root_eq, _, rootId⟩ := tree.toCoherent.root_ok member
  refine ⟨root, root_eq, ?_, ?_, ?_, ?_⟩
  · intro node nodeMember notValue
    obtain ⟨path, found, _⟩ := tree.linksToRoot_ok nodeMember notValue
    exact ⟨path, found⟩
  · rw [rootId]
    exact tree.mem_relevantLinks_iff_path member isTerm
  · exact tree.toCoherent.relevantLinks_ordered root.id target.id
  · rw [rootId]
    intro link linkMember
    exact tree.mem_relevantLinks_iff_beneath member isTerm linkMember

/-- Two branches below a root, of which one is bound. -/
def twoBranches : List GraphEdit :=
  [.addRoot "Person", .addRelationship ⟨0⟩ "KNOWS" "Person" false,
    .addRelationship ⟨0⟩ "LIKES" "Thing" false, .addValue ⟨1⟩ [("name", .string "Ann")],
    .bindValue ⟨1⟩ ⟨5⟩]

theorem relevantLinks_twoBranches :
    Drawing twoBranches .empty ∧
      ∃ target ∈ (run twoBranches .empty).nodes, target.kind ≠ .value ∧
        ∃ root, (run twoBranches .empty).root = .ok root ∧
          ∀ id, id ∈ (run twoBranches .empty).relevantLinks root.id target.id ↔
            ∃ node ∈ (run twoBranches .empty).nodes,
              (node = target ∨ node.isBound = true) ∧
                ∃ path, (run twoBranches .empty).linksToRoot node.id = .ok path ∧ id ∈ path := by
  have drawing : Drawing twoBranches .empty := by decide +kernel
  have exists_term : ∃ target ∈ (run twoBranches .empty).nodes, target.kind ≠ .value := by
    decide +kernel
  obtain ⟨target, member, isTerm⟩ := exists_term
  obtain ⟨root, root_eq, _, paths, _⟩ := relevantLinks_eq_paths twoBranches drawing member isTerm
  exact ⟨drawing, target, member, isTerm, root, root_eq, paths⟩

end GraphEdit
end VisualQuery
