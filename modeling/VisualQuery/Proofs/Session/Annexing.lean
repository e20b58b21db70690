import VisualQuery.Proofs.Graph.Annexing
import VisualQuery.Proofs.Session.Collapsing
import VisualQuery.Proofs.Session.Keeping

/-!
# Work below one node

While no old node lists values, the calls about new nodes work on new nodes only:
collapsing all listings unlists values of new nodes, and a value is chosen for
the new node that it was listed for.
-/

namespace VisualQuery
namespace QueryGraph

variable {first : Nat} {owner : NodeId} {base : QueryGraph}

/-- No old node lists values, so all listings are new. -/
theorem Annexed.isNew_of_mem_expandedNodes
    {graph : QueryGraph}
    (annexed : Annexed first owner base graph)
    (coherent : graph.Coherent)
    (unmarked : ∀ node ∈ base.nodes, node.valueExpanded = false)
    {id : NodeId}
    (listed : id ∈ Session.expandedNodes graph) :
    IsNew first base id := by
  intro node member named
  by_contra smaller
  have known := (annexed.nodes node (named ▸ Nat.lt_of_not_le smaller)).2 member
  have marked := Session.marked_of_mem_expandedNodes coherent known (named ▸ listed)
  rw [unmarked node member] at marked
  cases marked

/-- The moves on new nodes keep an annex. -/
theorem keptOn_annexed
    (unmarked : ∀ node ∈ base.nodes, node.valueExpanded = false) :
    KeptOn (IsNew first base) (IsNew first base) (Annexed first owner base) where
  note graph grown annexed id isNew change _ :=
    annexed.modifyNode grown (Node.InPlace.note change) fun node member named =>
      annexed.le_of_isNew member (named ▸ isNew)
  discover graph grown annexed id isNew relationships :=
    annexed.modifyNode grown (Node.InPlace.note fun notes => { notes with relationships })
      fun node member named => annexed.le_of_isNew member (named ▸ isNew)
  listings graph grown annexed id listed :=
    annexed.isNew_of_mem_expandedNodes grown.toCoherent unmarked listed
  removeValues graph grown annexed lister member isNew count after accepted :=
    annexed.removeValues grown member (annexed.le_of_isNew member isNew) accepted
  withShown graph grown annexed lister member isNew rows fits :=
    annexed.withShown grown member (annexed.le_of_isNew member isNew) fits
  bindValue graph grown annexed holder member isNew value after accepted :=
    annexed.bindValue grown member (annexed.le_of_isNew member isNew) accepted
  clearValue graph grown annexed id isNew cleared after accepted :=
    annexed.clearValue grown isNew accepted
  removeLink := by
    intro graph grown annexed link member isRelation isNew after accepted
    obtain ⟨source, sourceMember, named⟩ :=
      mem_nodeIds.1 (grown.toCoherent.linkEnds link member).1
    have newer := annexed.le_of_isNew sourceMember (named ▸ isNew)
    exact annexed.removeLink grown member isRelation (named ▸ newer) accepted
  addRelationship graph grown annexed parent isNew relationship label isGroup child after
      accepted :=
    annexed.addRelationship isNew accepted

end QueryGraph

namespace SessionCall

open QueryGraph

variable {first : Nat} {owner : NodeId} {base : QueryGraph}

/-- A call about a new node keeps an annex. -/
theorem apply_annexes
    (unmarked : ∀ node ∈ base.nodes, node.valueExpanded = false)
    {call : SessionCall}
    {id : NodeId}
    (isSubject : call.subject? = some id)
    (isNew : IsNew first base id)
    (session : Session) :
    Keeps (Annexed first owner base) session.graph (call.apply session).graph := by
  intro grown annexed
  refine apply_keeps (keptOn_annexed unmarked) isSubject isNew (fun _ => isNew) ?_ grown annexed
  -- A new value was listed for a new node, since old nodes have new terms below them only.
  rintro value lister rfl listed node member named
  obtain ⟨chosen, chosenMember, rfl, isValue, parent⟩ := Session.listedFor_ok listed
  injection isSubject with same
  rw [← same] at isNew
  by_contra older
  have newer := annexed.le_of_isNew chosenMember isNew
  exact (annexed.fringe chosen chosenMember newer lister parent (Nat.lt_of_not_le older)).2 isValue

/-- A sequence of calls about new nodes keeps an annex. -/
theorem run_annexes
    (unmarked : ∀ node ∈ base.nodes, node.valueExpanded = false)
    (calls : List SessionCall)
    (aboutNew : ∀ call ∈ calls, ∃ id, call.subject? = some id ∧ IsNew first base id)
    (session : Session) :
    Keeps (Annexed first owner base) session.graph (run calls session).graph := by
  induction calls generalizing session with
  | nil => exact refl_of (Keeps (Annexed first owner base)) session.graph
  | cons call rest inductionHypothesis =>
      obtain ⟨id, isSubject, isNew⟩ := aboutNew call List.mem_cons_self
      refine trans_of (Keeps (Annexed first owner base))
        (apply_annexes unmarked isSubject isNew session) ?_
      exact inductionHypothesis
        (fun later member => aboutNew later (List.mem_cons_of_mem _ member)) _

end SessionCall
end VisualQuery
