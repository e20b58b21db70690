import VisualQuery.Proofs.Graph.Building

/-!
# What every edit keeps

Every edit keeps a graph well-formed, and so does every sequence of edits.
With well-formedness comes the chain of parents that leads from every node to
the root.
-/

namespace VisualQuery
namespace GraphEdit

open QueryGraph

theorem apply_wellFormed
    (edit : GraphEdit)
    (graph : QueryGraph)
    (wellFormed : graph.WellFormed) :
    (edit.apply graph).WellFormed := by
  cases edit with
  | addRoot label =>
      refine Step.atomic_property wellFormed ?_
      intro id after accepted
      exact wellFormed.addRoot accepted
  | reset label => exact wellFormed_empty.pushRoot rfl label
  | clear => exact wellFormed_empty
  | generateVariable label => exact wellFormed.congr rfl rfl rfl
  | addNode parent label isGroup =>
      refine Step.atomic_property wellFormed ?_
      intro id after accepted
      exact wellFormed.addNode accepted
  | addRelationship parent relationship label isGroup =>
      refine Step.atomic_property wellFormed ?_
      intro id after accepted
      exact wellFormed.addRelationship accepted
  | addValue parent attributes =>
      refine Step.atomic_property wellFormed ?_
      intro id after accepted
      exact wellFormed.addValue accepted
  | addLink source target kind label =>
      refine Step.atomic_property wellFormed ?_
      intro id after accepted
      exact wellFormed.addLink accepted
  | removeNode node =>
      refine Step.atomicUnit_property wellFormed ?_
      intro after accepted
      exact wellFormed.removeNode accepted
  | removeLink link =>
      refine Step.atomicUnit_property wellFormed ?_
      intro after accepted
      exact wellFormed.removeLink accepted
  | removeValues node =>
      refine Step.atomic_property wellFormed ?_
      intro count after accepted
      exact wellFormed.removeValues accepted
  | bindValue node value =>
      refine Step.atomicUnit_property wellFormed ?_
      intro after accepted
      exact wellFormed.bindValue accepted
  | clearValue node =>
      refine Step.atomic_property wellFormed ?_
      intro cleared after accepted
      exact wellFormed.clearValue accepted
  | setImmutable node immutable =>
      refine Step.atomicUnit_property wellFormed ?_
      intro after accepted
      exact wellFormed.setImmutable accepted
  | addSchema schema => exact (addSchema_built schema wellFormed).wellFormed wellFormed
  | note node change =>
      apply wellFormed.modifyNode_of_value node (Node.InPlace.note change)
      intro other
      rfl

theorem run_wellFormed (edits : List GraphEdit) :
    (run edits .empty).WellFormed :=
  run_keeps apply_wellFormed edits wellFormed_empty

/-- Whatever edits build a graph, accepted or refused: numbers, root, parents,
links and bound values fit together, no value is orphaned, and going up from
parent to parent leads from every node to the root. -/
theorem run_empty_wellFormed_and_rooted (edits : List GraphEdit) :
    (run edits .empty).WellFormed ∧
      ∀ node ∈ (run edits .empty).nodes, (run edits .empty).Beneath ⟨0⟩ node.id := by
  have wellFormed := run_wellFormed edits
  refine ⟨wellFormed, ?_⟩
  intro node member
  exact wellFormed.toCoherent.beneath_root member

end GraphEdit
end VisualQuery
