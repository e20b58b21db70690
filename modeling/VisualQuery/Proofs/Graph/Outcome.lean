import VisualQuery.Graph.Schema
import VisualQuery.Proofs.Graph.Coherence

/-!
# What accepted edits do

One statement for each edit that may be refused: what was checked, and the
graph afterwards.  Later arguments use these instead of the code of the edits.
-/

namespace VisualQuery
namespace QueryGraph

variable {graph : QueryGraph}

/-! ## Adding -/

/-- The node that a label is given below a parent. -/
def freshTerm
    (parent : NodeId)
    (label : String)
    (isGroup : Bool)
    (graph : QueryGraph) : Node where
  id := ⟨graph.nextId⟩
  kind := if isGroup then .group else .choose
  label := label
  var := (graph.names.next label).1
  parent := some parent

theorem kind_freshTerm_ne_value
    (parent : NodeId)
    (label : String)
    (isGroup : Bool) :
    (graph.freshTerm parent label isGroup).kind ≠ .value := by
  cases isGroup <;> simp [freshTerm]

/-- The root that a label is given. -/
def freshRoot (label : String) (graph : QueryGraph) : Node where
  id := ⟨graph.nextId⟩
  kind := .root
  label := label
  var := (graph.names.next label).1
  parent := none

/-- The value that attributes are given below a node. -/
def freshValue (owner : Node) (attributes : Row) (graph : QueryGraph) : Node where
  id := ⟨graph.nextId⟩
  kind := .value
  label := owner.label
  var := ""
  parent := some owner.id
  attributes := attributes
  internalId := (KeyedList.lookup? internalIdColumn attributes).bind PropertyValue.asInt?
  count := ((KeyedList.lookup? "count" attributes).bind PropertyValue.asCount?).getD 0

theorem pushRoot_eq
    (label : String)
    (graph : QueryGraph) :
    graph.pushRoot label =
      (⟨graph.nextId⟩,
        { nodes := graph.nodes ++ [graph.freshRoot label]
          links := graph.links
          nextId := graph.nextId + 1
          names := (graph.names.next label).2 }) := rfl

theorem addRoot_ok
    {label : String}
    {id : NodeId}
    {after : QueryGraph}
    (accepted : graph.addRoot label = .ok (id, after)) :
    graph.nodes = [] ∧ graph.pushRoot label = (id, after) := by
  unfold addRoot at accepted
  split at accepted
  · rename_i isEmpty
    injection accepted with same
    exact ⟨List.isEmpty_iff.1 isEmpty, same⟩
  · cases accepted

theorem addNode_ok
    {parent id : NodeId}
    {label : String}
    {isGroup : Bool}
    {after : QueryGraph}
    (accepted : graph.addNode parent label isGroup = .ok (id, after)) :
    (∃ owner ∈ graph.nodes, owner.id = parent) ∧
      id = ⟨graph.nextId⟩ ∧
      after =
        { nodes := graph.nodes ++ [graph.freshTerm parent label isGroup]
          links := graph.links
          nextId := graph.nextId + 1
          names := (graph.names.next label).2 } := by
  unfold addNode at accepted
  cases found : graph.node parent with
  | error error => rw [found] at accepted; cases accepted
  | ok owner =>
      rw [found] at accepted
      injection accepted with same
      injection same with id_eq after_eq
      exact ⟨⟨owner, mem_of_node found⟩, id_eq.symm, after_eq.symm⟩

theorem addLink_ok
    {source target : NodeId}
    {kind : LinkKind}
    {label : Option String}
    {id : LinkId}
    {after : QueryGraph}
    (accepted : graph.addLink source target kind label = .ok (id, after)) :
    source ∈ graph.nodeIds ∧ target ∈ graph.nodeIds ∧
      after =
        { graph with
          links := graph.links ++ [⟨⟨graph.nextId⟩, kind, source, target, label⟩]
          nextId := graph.nextId + 1 } := by
  unfold addLink at accepted
  cases foundSource : graph.node source with
  | error error => rw [foundSource] at accepted; cases accepted
  | ok sourceNode =>
      cases foundTarget : graph.node target with
      | error error => rw [foundSource, foundTarget] at accepted; cases accepted
      | ok targetNode =>
          rw [foundSource, foundTarget] at accepted
          injection accepted with same
          injection same with _ after_eq
          exact ⟨mem_nodeIds.2 ⟨sourceNode, mem_of_node foundSource⟩,
            mem_nodeIds.2 ⟨targetNode, mem_of_node foundTarget⟩, after_eq.symm⟩

/-- A relationship is a term and the link that leads to it. -/
theorem addRelationship_ok
    {parent child : NodeId}
    {relationship label : String}
    {isGroup : Bool}
    {after : QueryGraph}
    (accepted :
      graph.addRelationship parent relationship label isGroup = .ok (child, after)) :
    ∃ between link,
      graph.addNode parent label isGroup = .ok (child, between) ∧
        between.addLink parent child .relation (some relationship) = .ok (link, after) := by
  unfold addRelationship at accepted
  cases added : graph.addNode parent label isGroup with
  | error error => rw [added] at accepted; cases accepted
  | ok result =>
      obtain ⟨id, between⟩ := result
      cases linked : between.addLink parent id .relation (some relationship) with
      | error error =>
          simp only [added, linked, bind, Except.bind] at accepted
          cases accepted
      | ok result =>
          obtain ⟨link, reached⟩ := result
          simp only [added, linked, bind, Except.bind, pure, Except.pure] at accepted
          injection accepted with same
          injection same with id_eq after_eq
          subst id_eq after_eq
          exact ⟨between, link, rfl, linked⟩

/-- A value is a node and the link that lists it. -/
theorem addValue_ok
    {parent value : NodeId}
    {attributes : Row}
    {after : QueryGraph}
    (accepted : graph.addValue parent attributes = .ok (value, after)) :
    ∃ owner ∈ graph.nodes, ∃ link,
      owner.id = parent ∧ owner.kind.listsValues = true ∧ value = ⟨graph.nextId⟩ ∧
        addLink parent value .value none
          { graph with
            nodes := graph.nodes ++ [graph.freshValue owner attributes]
            nextId := graph.nextId + 1 } = .ok (link, after) := by
  unfold addValue at accepted
  cases found : graph.node parent with
  | error error => rw [found] at accepted; cases accepted
  | ok owner =>
      obtain ⟨member, named⟩ := mem_of_node found
      cases lists : owner.kind.listsValues with
      | false =>
          simp [found, lists, bind, Except.bind, throw, throwThe, MonadExceptOf.throw] at accepted
      | true =>
          subst named
          simp only [found, lists, bind, Except.bind, pure, Except.pure, pushNode,
            Bool.not_true, Bool.false_eq_true, if_false] at accepted
          refine ⟨owner, member, ?_⟩
          split at accepted
          · cases accepted
          · rename_i result linked
            injection accepted with same
            injection same with value_eq after_eq
            exact ⟨result.1, rfl, lists, value_eq.symm, by rw [← value_eq, ← after_eq]; exact linked⟩

/-! ## Removing -/

theorem removeNode_ok
    {id : NodeId}
    {after : QueryGraph}
    (accepted : graph.removeNode id = .ok after) :
    ∃ node ∈ graph.nodes,
      node.id = id ∧ node.kind ≠ .root ∧ after = graph.removeSubtree id := by
  unfold removeNode at accepted
  cases found : graph.node id with
  | error error => rw [found] at accepted; cases accepted
  | ok node =>
      obtain ⟨member, named⟩ := mem_of_node found
      refine ⟨node, member, named, ?_⟩
      by_cases isRoot : node.isRoot = true
      · simp [found, isRoot, bind, Except.bind, throw, throwThe, MonadExceptOf.throw] at accepted
      · simp only [found, isRoot, bind, Except.bind, pure, Except.pure, Bool.false_eq_true,
          if_false] at accepted
        injection accepted with same
        exact ⟨by simpa [Node.isRoot] using isRoot, same.symm⟩

theorem removeLink_ok
    {id : LinkId}
    {after : QueryGraph}
    (accepted : graph.removeLink id = .ok after) :
    ∃ link ∈ graph.links,
      link.id = id ∧ after = (graph.dropLink id).removeSubtree link.target := by
  unfold removeLink at accepted
  cases found : graph.link id with
  | error error => rw [found] at accepted; cases accepted
  | ok link =>
      obtain ⟨member, named⟩ := mem_of_link found
      rw [found] at accepted
      injection accepted with same
      exact ⟨link, member, named, same.symm⟩

/-- The links by which a node lists values. -/
def valueLinks (id : NodeId) (graph : QueryGraph) : List Link :=
  graph.links.filter fun link => link.source = id && link.kind = .value

theorem removeValues_ok
    {id : NodeId}
    {count : Nat}
    {after : QueryGraph}
    (accepted : graph.removeValues id = .ok (count, after)) :
    ∃ node ∈ graph.nodes,
      node.id = id ∧
        after =
          ((graph.valueLinks id).foldl (removeListed node.value) graph).modifyNode id
            fun node => { node with valueExpanded := false } := by
  unfold removeValues at accepted
  cases found : graph.node id with
  | error error => rw [found] at accepted; cases accepted
  | ok node =>
      obtain ⟨member, named⟩ := mem_of_node found
      rw [found] at accepted
      injection accepted with same
      injection same with _ after_eq
      exact ⟨node, member, named, after_eq.symm⟩

/-! ## Binding -/

/-- Drop the value bound before, if it is another one. -/
def dropPrevious (value : NodeId) (previous : Option NodeId) (graph : QueryGraph) :
    QueryGraph :=
  match previous with
  | some previous => if previous = value then graph else graph.dropDetached previous
  | none => graph

theorem bindValue_ok
    {node value : NodeId}
    {after : QueryGraph}
    (accepted : graph.bindValue node value = .ok after) :
    ∃ owner ∈ graph.nodes, ∃ candidate ∈ graph.nodes,
      owner.id = node ∧ candidate.id = value ∧ candidate.kind = .value ∧
        candidate.parent = some node ∧
        after =
          (graph.modifyNode node fun node => { node with value := some value }).dropPrevious
            value owner.value := by
  unfold bindValue at accepted
  cases foundOwner : graph.node node with
  | error error => rw [foundOwner] at accepted; cases accepted
  | ok owner =>
      cases foundCandidate : graph.node value with
      | error error => rw [foundOwner, foundCandidate] at accepted; cases accepted
      | ok candidate =>
          obtain ⟨ownerMember, ownerNamed⟩ := mem_of_node foundOwner
          obtain ⟨candidateMember, candidateNamed⟩ := mem_of_node foundCandidate
          refine ⟨owner, ownerMember, candidate, candidateMember, ownerNamed, candidateNamed, ?_⟩
          by_cases isValue : candidate.isValue = true
          · by_cases below : candidate.parent = some node
            · simp only [foundOwner, foundCandidate, isValue, below, bind, Except.bind, pure,
                Except.pure, Bool.not_true, Bool.false_eq_true, if_false, ne_eq,
                not_true_eq_false] at accepted
              refine ⟨by simpa [Node.isValue] using isValue, below, ?_⟩
              unfold dropPrevious
              cases bound : owner.value with
              | none =>
                  rw [bound] at accepted
                  injection accepted with same
                  exact same.symm
              | some previous =>
                  simp only [bound] at accepted
                  dsimp only
                  split at accepted <;> rename_i equal <;> injection accepted with same
                  · rw [if_pos equal, same]
                  · rw [if_neg equal, same]
            · simp [foundOwner, foundCandidate, isValue, below, bind, Except.bind, throw,
                throwThe, MonadExceptOf.throw] at accepted
          · simp [foundOwner, foundCandidate, isValue, bind, Except.bind, throw, throwThe,
              MonadExceptOf.throw] at accepted

theorem clearValue_ok
    {node : NodeId}
    {cleared : Bool}
    {after : QueryGraph}
    (accepted : graph.clearValue node = .ok (cleared, after)) :
    after = graph ∨
      ∃ owner ∈ graph.nodes, ∃ previous,
        owner.id = node ∧ owner.value = some previous ∧
          after =
            (graph.modifyNode node fun node => { node with value := none }).dropDetached
              previous := by
  unfold clearValue at accepted
  cases found : graph.node node with
  | error error => rw [found] at accepted; cases accepted
  | ok owner =>
      obtain ⟨member, named⟩ := mem_of_node found
      simp only [found, bind, Except.bind, pure, Except.pure] at accepted
      split at accepted
      · injection accepted with same
        injection same with _ after_eq
        exact Or.inl after_eq.symm
      · split at accepted
        · rename_i previous bound
          injection accepted with same
          injection same with _ after_eq
          exact Or.inr ⟨owner, member, previous, named, bound, after_eq.symm⟩
        · injection accepted with same
          injection same with _ after_eq
          exact Or.inl after_eq.symm

theorem setImmutable_ok
    {node : NodeId}
    {immutable : Bool}
    {after : QueryGraph}
    (accepted : graph.setImmutable node immutable = .ok after) :
    after = graph.modifyNode node fun node => { node with immutable } := by
  unfold setImmutable at accepted
  cases found : graph.node node with
  | error error => rw [found] at accepted; cases accepted
  | ok owner =>
      rw [found] at accepted
      injection accepted with same
      exact same.symm

/-! ## Schemas -/

/-- Add a value to a node and bind it. -/
def addBound (id : NodeId) (attributes : Row) : Step QueryGraph Unit := do
  let value ← Step.atomic (addValue id attributes)
  Step.atomicUnit (bindValue id value)

/-- Give a node the value of its schema, if there is one. -/
def addOptional (id : NodeId) : Option Row → Step QueryGraph Unit
  | some attributes => addBound id attributes
  | none => pure ()

/-- A schema is applied in three parts: value, pin and relationships. -/
theorem applySchema_mk
    (id : NodeId)
    (label : String)
    (value : Option Row)
    (immutable group : Bool)
    (rel : List (String × NodeSchema)) :
    applySchema id ⟨label, value, immutable, group, rel⟩ =
      addOptional id value >>= fun _ =>
        Step.atomicUnit (setImmutable id immutable) >>= fun _ =>
          applyRelations id rel := by
  unfold applySchema
  cases value with
  | none => simp [addOptional]
  | some attributes => simp [addOptional, addBound, bind_assoc]

end QueryGraph
end VisualQuery
