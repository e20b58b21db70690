import Mathlib.Data.List.Perm.Subperm
import VisualQuery.Proofs.Compiler.Relevance
import VisualQuery.Proofs.Graph.Acceptance

/-!
# Chains of relationships

A chain is drawn by going on from the term made last.  All its relationships lie
on the straight path from its end to the root, so statements about the end of a
chain have as many paths as wanted.
-/

namespace VisualQuery
namespace QueryGraph

theorem Beneath.mono
    {graph larger : QueryGraph}
    {top id : NodeId}
    (beneath : graph.Beneath top id)
    (nodes : ∀ node ∈ graph.nodes, node ∈ larger.nodes) :
    larger.Beneath top id := by
  induction beneath with
  | self => exact Beneath.self
  | child member isParent _ inductionHypothesis =>
      exact Beneath.child (nodes _ member) isParent inductionHypothesis

/-- All relationships lie on the way from one term up to the root. -/
structure Chained (label : String) (length : Nat) (graph : QueryGraph) (root last : Node) : Prop
    where
  isRoot : graph.root = .ok root
  labelled : root.label = label
  named : root.var = VariableNames.normalize label
  member : last ∈ graph.nodes
  isTerm : last.kind ≠ .value
  counted : graph.relations.length = length
  above : ∀ link ∈ graph.relations, graph.Beneath link.target last.id

/-- One more relationship from the last term. -/
theorem Chained.withTerm
    {label : String}
    {length : Nat}
    {graph : QueryGraph}
    {root last : Node}
    (chained : Chained label length graph root last)
    (relationship far : String)
    (isGroup : Bool) :
    Chained label (length + 1) (graph.withTerm last.id relationship far isGroup) root
      (graph.freshTerm last.id far isGroup) where
  isRoot := by
    have isRoot := chained.isRoot
    unfold QueryGraph.root at isRoot ⊢
    cases split : graph.nodes with
    | nil => simp [split] at isRoot
    | cons first rest => simpa [QueryGraph.withTerm, split] using isRoot
  labelled := chained.labelled
  named := chained.named
  member := List.mem_append_right _ (List.mem_singleton_self _)
  isTerm := kind_freshTerm_ne_value _ _ _
  counted := by
    have counted := chained.counted
    unfold relations at counted ⊢
    simp [QueryGraph.withTerm, List.filter_append, Link.isRelation, counted]
  above := by
    have made : graph.freshTerm last.id far isGroup ∈
        (graph.withTerm last.id relationship far isGroup).nodes :=
      List.mem_append_right _ (List.mem_singleton_self _)
    intro link member
    obtain ⟨linkMember, isRelation⟩ := mem_relations.1 member
    rcases List.mem_append.1 linkMember with old | new
    · have above := chained.above link (mem_relations.2 ⟨old, isRelation⟩)
      refine Beneath.child made rfl (above.mono ?_)
      intro node nodeMember
      exact List.mem_append_left _ nodeMember
    · rw [List.mem_singleton] at new
      subst new
      exact Beneath.self

/-- Below a root with any label a chain of any length can be drawn. -/
theorem exists_chain
    (label : String)
    (length : Nat) :
    ∃ edits root last,
      GraphEdit.Drawing edits .empty ∧
        Chained label length (GraphEdit.run edits .empty) root last := by
  induction length with
  | zero =>
      refine ⟨[.addRoot label], QueryGraph.empty.freshRoot label,
        QueryGraph.empty.freshRoot label, ⟨trivial, trivial⟩, ?_⟩
      exact
        { isRoot := rfl, labelled := rfl, named := rfl
          member := List.mem_singleton_self _
          isTerm := by simp [freshRoot]
          counted := rfl
          above := by
            intro link member
            exact absurd (mem_relations.1 member).1 List.not_mem_nil }
  | succ length inductionHypothesis =>
      obtain ⟨edits, root, last, drawing, chained⟩ := inductionHypothesis
      have coherent := (GraphEdit.run_wellFormed edits).toCoherent
      have accepted := coherent.addRelationship_accepted chained.member "" "" false
      have drawn : GraphEdit.Drawing (edits ++ [.addRelationship last.id "" "" false]) .empty := by
        refine GraphEdit.drawing_append.2 ⟨drawing, ?_, trivial⟩
        intro node member same
        rw [coherent.eq_of_id_eq member chained.member same]
        exact chained.isTerm
      have reached : GraphEdit.run (edits ++ [.addRelationship last.id "" "" false]) .empty =
          (GraphEdit.run edits .empty).withTerm last.id "" "" false := by
        rw [GraphEdit.run_append]
        show Step.after (Step.atomic _) _ = _
        rw [Step.after_atomic, accepted]
      have longer := chained.withTerm "" "" false
      rw [← reached] at longer
      exact ⟨_, root, _, drawn, longer⟩

/-- The straight path from the end of a chain crosses every relationship. -/
theorem Chained.exists_path
    {label : String}
    {length : Nat}
    {graph : QueryGraph}
    {root last : Node}
    (chained : Chained label length graph root last)
    (tree : graph.Tree) :
    ∃ path, graph.linksToRoot last.id = .ok path ∧ length ≤ path.length ∧
      ∀ id ∈ path, ∃ link ∈ graph.links, link.id = id := by
  obtain ⟨path, found, crossings⟩ := tree.linksToRoot_ok chained.member chained.isTerm
  refine ⟨path, found, ?_, ?_⟩
  · have distinct : (graph.relations.map Link.id).Nodup := by
      rw [List.Nodup, List.pairwise_map]
      apply (tree.toCoherent.linksOrdered.sublist List.filter_sublist).imp
      intro earlier later ordered same
      rw [same] at ordered
      exact Nat.lt_irrefl _ ordered
    have crossed : graph.relations.map Link.id ⊆ path := by
      intro id member
      obtain ⟨link, linkMember, rfl⟩ := List.mem_map.1 member
      refine (crossings link.id).2 ⟨link, linkMember, rfl, ?_⟩
      exact (tree.ascends_iff_beneath ⟨last, chained.member, rfl, chained.isTerm⟩).2
        (chained.above link linkMember)
    have fits := (List.subperm_of_subset distinct crossed).length_le
    rwa [List.length_map, chained.counted] at fits
  · intro id member
    obtain ⟨link, linkMember, named, _⟩ := (crossings id).1 member
    exact ⟨link, (mem_relations.1 linkMember).1, named⟩

end QueryGraph

end VisualQuery
