import VisualQuery.Proofs.Compiler.Relevance

/-!
# Selections that reach the root

On arbitrary graphs the links selected for a statement go on upwards from every
link among them, up to the root or to a node that no relationship enters.  So a
node that is to be matched and can be reached from the root is connected to it
by selected links, unless the selected links above it lead to a dead end or turn
in a cycle.  Diamonds and parallel links do no harm.  Dead ends and cycles do:
the climb takes the link created last, and may miss the root.
-/

namespace VisualQuery
namespace QueryGraph

variable {graph : QueryGraph} {links : List Link} {node top : NodeId}

/-! ## Ways up through arbitrary links -/

/-- A way up stays within nodes that links do not leave upwards. -/
theorem Ascends.keeps
    {property : NodeId → Prop}
    (passes : ∀ link ∈ links, property link.target → property link.source)
    (ascends : Ascends links node top)
    (holds : property node) :
    property top := by
  induction ascends with
  | here => exact holds
  | up member _ inductionHypothesis => exact inductionHypothesis (passes _ member holds)

theorem Ascends.step
    (source : NodeId)
    (linked : ∃ link ∈ links, link.source = source ∧ link.target = node)
    (above : Ascends links source top) :
    Ascends links node top := by
  obtain ⟨link, member, rfl, rfl⟩ := linked
  exact Ascends.up member above

/-- A way up ends where it starts, or begins with a link. -/
theorem Ascends.eq_or_first
    (ascends : Ascends links node top) :
    top = node ∨ ∃ link ∈ links, link.target = node := by
  cases ascends with
  | here => exact Or.inl rfl
  | up member _ => exact Or.inr ⟨_, member, rfl⟩

/-- A way up ends where it starts, or at the source of its last link. -/
theorem Ascends.eq_or_last
    (ascends : Ascends links node top) :
    top = node ∨ ∃ link ∈ links, link.source = top ∧ Ascends links node link.target := by
  induction ascends with
  | here => exact Or.inl rfl
  | @up link top member _ inductionHypothesis =>
      refine Or.inr ?_
      rcases inductionHypothesis with rfl | ⟨last, lastMember, source, above⟩
      · exact ⟨link, member, rfl, Ascends.here _⟩
      · exact ⟨last, lastMember, source, Ascends.up member above⟩

/-- If a link enters every node above a node, short of the root, then a way up
leads to the root or into a cycle.  The way is followed past the nodes seen;
each of them was left through a link that is still below. -/
theorem ascends_root_or_cycle_of_seen
    {root start : NodeId}
    (entered :
      ∀ node, Ascends links start node → node = root ∨ ∃ link ∈ links, link.target = node)
    {seen : List NodeId}
    (ascends : Ascends links start node)
    (passed : ∀ id ∈ seen, ∃ link ∈ links, link.target = id ∧ Ascends links link.source node) :
    Ascends links start root ∨
      ∃ link ∈ links, Ascends links start link.target ∧
        Ascends links link.source link.target := by
  induction number : unvisited seen (links.map Link.target) using Nat.strongRecOn
    generalizing node seen with
  | _ bound inductionHypothesis =>
      rcases entered node ascends with rfl | ⟨link, member, rfl⟩
      · exact Or.inl ascends
      · by_cases again : link.target ∈ seen
        · obtain ⟨first, firstMember, target, turns⟩ := passed link.target again
          rw [← target] at ascends turns
          exact Or.inr ⟨first, firstMember, ascends, turns⟩
        · have step : Ascends links link.target link.source :=
            Ascends.up member (Ascends.here _)
          have fewer : unvisited (link.target :: seen) (links.map Link.target) < bound :=
            number ▸ unvisited_cons_lt (List.mem_map_of_mem member) again
          refine inductionHypothesis _ fewer (ascends.trans step) ?_ rfl
          intro id isPassed
          rcases List.mem_cons.1 isPassed with rfl | earlier
          · exact ⟨link, member, rfl, Ascends.here _⟩
          · obtain ⟨other, otherMember, target, above⟩ := passed id earlier
            exact ⟨other, otherMember, target, above.trans step⟩

/-- The same from the start of the way. -/
theorem ascends_root_or_cycle
    {root start : NodeId}
    (entered :
      ∀ node, Ascends links start node → node = root ∨ ∃ link ∈ links, link.target = node) :
    Ascends links start root ∨
      ∃ link ∈ links, Ascends links start link.target ∧
        Ascends links link.source link.target :=
  ascends_root_or_cycle_of_seen entered (Ascends.here start) (by simp : ∀ id ∈ [], _)

/-! ## The links selected for a statement -/

/-- The links that a statement for a target selects. -/
def selection (root target : NodeId) (graph : QueryGraph) : List Link :=
  graph.links.filter fun link => link.id ∈ graph.relevantLinks root target

/-- They are the anchors and the links crossed from there. -/
theorem Coherent.mem_selection
    (coherent : graph.Coherent)
    {root target : NodeId}
    {link : Link} :
    link ∈ graph.selection root target ↔ link ∈ graph.chosenLinks root target := by
  rw [selection, List.mem_filter, decide_eq_true_eq, mem_relevantLinks_iff_chosen]
  constructor
  · rintro ⟨member, other, chosen, same⟩
    have otherMember := (mem_relations.1 (mem_relations_of_chosen chosen)).1
    rw [← coherent.eq_of_link_id_eq otherMember member same]
    exact chosen
  · intro chosen
    exact ⟨(mem_relations.1 (mem_relations_of_chosen chosen)).1, link, chosen, rfl⟩

/-- Short of the root, a selected link starts at a node that a selected link
enters, or no relationship at all. -/
theorem Coherent.selection_goesOn
    (coherent : graph.Coherent)
    {root target : NodeId}
    {link : Link}
    (member : link ∈ graph.selection root target) :
    link.source = root ∨ GoesOn graph.relations (graph.selection root target) link.source := by
  have climbed := climbAll_climbed root (graph.relations.filter (graph.isAnchor target))
    (graph.relations.filter fun link => !graph.isAnchor target link)
  -- What is not an anchor is in the pool, so the climb has looked for it.
  have lifts : ∀ id,
      GoesOn (graph.relations.filter fun link => !graph.isAnchor target link)
        (climbAll root (graph.relations.filter (graph.isAnchor target))
          (graph.relations.filter fun link => !graph.isAnchor target link)).1 id →
      GoesOn graph.relations (graph.selection root target) id := by
    rintro id (⟨above, crossed, enters⟩ | unentered)
    · exact Or.inl ⟨above, coherent.mem_selection.2 (List.mem_append_right _ crossed), enters⟩
    · by_cases anchored : ∃ above ∈ graph.relations.filter (graph.isAnchor target),
          above.target = id
      · obtain ⟨above, anchor, enters⟩ := anchored
        exact Or.inl ⟨above, coherent.mem_selection.2 (List.mem_append_left _ anchor), enters⟩
      · refine Or.inr fun above aboveMember enters => ?_
        cases anchors : graph.isAnchor target above with
        | true => exact anchored ⟨above, List.mem_filter.2 ⟨aboveMember, anchors⟩, enters⟩
        | false =>
            exact unentered above (List.mem_filter.2 ⟨aboveMember, by simp [anchors]⟩) enters
  rcases List.mem_append.1 (coherent.mem_selection.1 member) with anchor | crossed
  · exact Or.inr (lifts _ (climbed.entering _ (List.mem_map_of_mem anchor)))
  · exact (climbed.upward link crossed).imp_right (lifts _)

/-- Every relationship that enters the target or a bound node is selected. -/
theorem Coherent.mem_selection_of_entering
    (coherent : graph.Coherent)
    {root target : NodeId}
    {wanted : Node}
    (wantedMember : wanted ∈ graph.nodes)
    (isWanted : wanted.id = target ∨ wanted.isBound = true)
    {link : Link}
    (member : link ∈ graph.relations)
    (enters : link.target = wanted.id) :
    link ∈ graph.selection root target := by
  refine coherent.mem_selection.2 (List.mem_append_left _ (List.mem_filter.2 ⟨member, ?_⟩))
  exact (coherent.isAnchor_iff member).2 ⟨wanted, wantedMember, enters.symm, isWanted⟩

/-- A node to be matched that the root leads to is connected to the root by
selected links, or selected links above it lead to a dead end or turn in a
cycle. -/
theorem Coherent.selection_connects
    (coherent : graph.Coherent)
    {root target : NodeId}
    {wanted : Node}
    (wantedMember : wanted ∈ graph.nodes)
    (isWanted : wanted.id = target ∨ wanted.isBound = true)
    (reachable : Ascends graph.relations wanted.id root) :
    Ascends (graph.selection root target) wanted.id root ∨
      ∃ link ∈ graph.selection root target,
        Ascends (graph.selection root target) wanted.id link.target ∧
          ((link.source ≠ root ∧ ∀ above ∈ graph.relations, above.target ≠ link.source) ∨
            Ascends (graph.selection root target) link.source link.target) := by
  by_cases deadEnd : ∃ link ∈ graph.selection root target,
      Ascends (graph.selection root target) wanted.id link.target ∧
        link.source ≠ root ∧ ∀ above ∈ graph.relations, above.target ≠ link.source
  · obtain ⟨link, member, ascends, isDead⟩ := deadEnd
    exact Or.inr ⟨link, member, ascends, Or.inl isDead⟩
  · have entered : ∀ node, Ascends (graph.selection root target) wanted.id node →
        node = root ∨ ∃ link ∈ graph.selection root target, link.target = node := by
      intro node ascends
      by_cases isRoot : node = root
      · exact Or.inl isRoot
      · refine Or.inr ?_
        rcases ascends.eq_or_last with rfl | ⟨link, member, rfl, below⟩
        · rcases reachable.eq_or_first with same | ⟨link, member, enters⟩
          · exact absurd same.symm isRoot
          · exact ⟨link, coherent.mem_selection_of_entering wantedMember isWanted member enters,
              enters⟩
        · rcases coherent.selection_goesOn member with started | above | unentered
          · exact absurd started isRoot
          · exact above
          · exact absurd ⟨link, member, below, isRoot, unentered⟩ deadEnd
    rcases ascends_root_or_cycle entered with connected | ⟨link, member, ascends, turns⟩
    · exact Or.inl connected
    · exact Or.inr ⟨link, member, ascends, Or.inr turns⟩

end QueryGraph

namespace GraphEdit

open QueryGraph

/-- Whatever edits built a graph, and whatever its links look like: if a bound
node or the target can be reached from the root along relationships, then it can
be reached along those selected, unless selected ones above it start at a dead
end, where no relationship enters, or lie on a cycle. -/
theorem selection_connects_or_strays
    (edits : List GraphEdit)
    {root target : NodeId}
    {wanted : Node}
    (member : wanted ∈ (run edits .empty).nodes)
    (isWanted : wanted.id = target ∨ wanted.isBound = true)
    (reachable : Ascends (run edits .empty).relations wanted.id root) :
    Ascends ((run edits .empty).selection root target) wanted.id root ∨
      ∃ link ∈ (run edits .empty).selection root target,
        Ascends ((run edits .empty).selection root target) wanted.id link.target ∧
          ((link.source ≠ root ∧
              ∀ above ∈ (run edits .empty).relations, above.target ≠ link.source) ∨
            Ascends ((run edits .empty).selection root target) link.source link.target) :=
  (run_wellFormed edits).toCoherent.selection_connects member isWanted reachable

/-- A diamond: two branches below a root that lead to one term. -/
def diamond : List GraphEdit :=
  [.addRoot "Person",
    .addRelationship ⟨0⟩ "KNOWS" "Person" false,
    .addRelationship ⟨0⟩ "OWNS" "Account" false,
    .addRelationship ⟨1⟩ "PAID" "Invoice" false,
    .addLink ⟨3⟩ ⟨5⟩ .relation (some "PAID")]

theorem selection_connects_diamond :
    ∃ wanted ∈ (run diamond .empty).nodes,
      wanted.id = ⟨5⟩ ∧ Ascends (run diamond .empty).relations wanted.id ⟨0⟩ ∧
        (Ascends ((run diamond .empty).selection ⟨0⟩ ⟨5⟩) wanted.id ⟨0⟩ ∨
          ∃ link ∈ (run diamond .empty).selection ⟨0⟩ ⟨5⟩,
            Ascends ((run diamond .empty).selection ⟨0⟩ ⟨5⟩) wanted.id link.target ∧
              ((link.source ≠ ⟨0⟩ ∧
                  ∀ above ∈ (run diamond .empty).relations, above.target ≠ link.source) ∨
                Ascends ((run diamond .empty).selection ⟨0⟩ ⟨5⟩) link.source link.target)) := by
  obtain ⟨wanted, member, isTarget⟩ :
      ∃ wanted ∈ (run diamond .empty).nodes, wanted.id = ⟨5⟩ := by decide
  have reachable : Ascends (run diamond .empty).relations wanted.id ⟨0⟩ := by
    rw [isTarget]
    exact Ascends.step ⟨1⟩ (by decide) (Ascends.step ⟨0⟩ (by decide) (Ascends.here _))
  exact ⟨wanted, member, isTarget, reachable,
    selection_connects_or_strays diamond member (Or.inl isTarget) reachable⟩

/-- A line of terms below a root, with a link from the third back to the
second. -/
def turning : List GraphEdit :=
  [.addRoot "Person",
    .addRelationship ⟨0⟩ "KNOWS" "Person" false,
    .addRelationship ⟨1⟩ "OWNS" "Account" false,
    .addRelationship ⟨3⟩ "PAID" "Invoice" false,
    .addLink ⟨3⟩ ⟨1⟩ .relation (some "OWNED_BY")]

/-- A line of terms below a root, and a term that no relationship enters but
that leads to the middle of the line. -/
def dangling : List GraphEdit :=
  [.addRoot "Person",
    .addRelationship ⟨0⟩ "OWNS" "Account" false,
    .addRelationship ⟨1⟩ "PAID" "Invoice" false,
    .addNode ⟨0⟩ "Bank" false,
    .addLink ⟨5⟩ ⟨1⟩ .relation (some "HOLDS")]

/-- The climb from the target turns round in the cycle of the one graph, and
ends at the dead end of the other; both targets can be reached from the root,
but not along selected links. -/
theorem selection_misses_root :
    ((run turning .empty).nodes.any (fun node => node.id = ⟨5⟩) = true ∧
        Ascends (run turning .empty).relations ⟨5⟩ ⟨0⟩ ∧
        ¬ Ascends ((run turning .empty).selection ⟨0⟩ ⟨5⟩) ⟨5⟩ ⟨0⟩) ∧
      (run dangling .empty).nodes.any (fun node => node.id = ⟨3⟩) = true ∧
        Ascends (run dangling .empty).relations ⟨3⟩ ⟨0⟩ ∧
        ¬ Ascends ((run dangling .empty).selection ⟨0⟩ ⟨3⟩) ⟨3⟩ ⟨0⟩ := by
  refine ⟨⟨by decide, ?_, ?_⟩, by decide, ?_, ?_⟩
  · exact Ascends.step ⟨3⟩ (by decide) (Ascends.step ⟨1⟩ (by decide)
      (Ascends.step ⟨0⟩ (by decide) (Ascends.here _)))
  · intro connected
    have closed : ∀ link ∈ (run turning .empty).selection ⟨0⟩ ⟨5⟩,
        link.target ∈ [⟨5⟩, ⟨3⟩, ⟨1⟩] → link.source ∈ [(⟨5⟩ : NodeId), ⟨3⟩, ⟨1⟩] := by
      decide +kernel
    have stays := connected.keeps closed (by decide)
    exact absurd stays (by decide)
  · exact Ascends.step ⟨1⟩ (by decide) (Ascends.step ⟨0⟩ (by decide) (Ascends.here _))
  · intro connected
    have closed : ∀ link ∈ (run dangling .empty).selection ⟨0⟩ ⟨3⟩,
        link.target ∈ [⟨3⟩, ⟨1⟩, ⟨5⟩] → link.source ∈ [(⟨3⟩ : NodeId), ⟨1⟩, ⟨5⟩] := by
      decide +kernel
    have stays := connected.keeps closed (by decide)
    exact absurd stays (by decide)

end GraphEdit
end VisualQuery
