import VisualQuery.Proofs.Compiler.Relevance
import VisualQuery.Proofs.Graph.Listings
import VisualQuery.Proofs.Graph.Pruning

/-!
# What unlisting takes away

Nothing hangs from a value of a drawn graph, so a pruning that starts at values
takes these values alone.  Unlisting the values of a node therefore keeps all
terms, the node itself with its binding, and the value it is bound to; and so
does binding it to another value, apart from the value bound before.
-/

namespace VisualQuery

theorem NodeKind.ne_value_of_listsValues
    {kind : NodeKind}
    (lists : kind.listsValues = true) :
    kind ≠ .value := by
  rintro rfl
  cases lists

/-- A term as it was, up to what it is bound to and what is noted on it. -/
structure Node.SameTerm (left right : Node) : Prop where
  id : left.id = right.id
  kind : left.kind = right.kind
  label : left.label = right.label
  var : left.var = right.var
  immutable : left.immutable = right.immutable

namespace Node.SameTerm

theorem refl (node : Node) : SameTerm node node := ⟨rfl, rfl, rfl, rfl, rfl⟩

theorem trans
    {first second third : Node}
    (left : SameTerm first second)
    (right : SameTerm second third) :
    SameTerm first third :=
  ⟨left.id.trans right.id, left.kind.trans right.kind, left.label.trans right.label,
    left.var.trans right.var, left.immutable.trans right.immutable⟩

end Node.SameTerm

namespace QueryGraph

variable {graph after : QueryGraph} {change : Node → Node} {gone : NodeId → Prop}

/-- Every term is still there. -/
def KeepsTerms (before after : QueryGraph) : Prop :=
  ∀ node ∈ before.nodes, node.kind ≠ .value → ∃ kept ∈ after.nodes, kept.SameTerm node

namespace KeepsTerms

theorem refl (graph : QueryGraph) : KeepsTerms graph graph := by
  intro node member _
  exact ⟨node, member, Node.SameTerm.refl node⟩

theorem trans
    {first second third : QueryGraph}
    (left : KeepsTerms first second)
    (right : KeepsTerms second third) :
    KeepsTerms first third := by
  intro node member isTerm
  obtain ⟨between, betweenMember, same⟩ := left node member isTerm
  obtain ⟨kept, keptMember, sameBetween⟩ := right between betweenMember (same.kind ▸ isTerm)
  exact ⟨kept, keptMember, sameBetween.trans same⟩

end KeepsTerms

/-! ## Values are leaves -/

/-- Some numbers are those of values. -/
def AreValues (graph : QueryGraph) (ids : NodeId → Prop) : Prop :=
  ∀ id, ids id → ∃ value ∈ graph.nodes, value.id = id ∧ value.kind = .value

theorem Spare.areValues (owner : Node) : graph.AreValues (graph.Spare owner) := by
  rintro id ⟨_, value, member, named, isValue, _⟩
  exact ⟨value, member, named, isValue⟩

namespace Drawn

/-- What hangs from a node hangs from a term. -/
theorem isTerm_parent
    (drawn : graph.Drawn)
    {node : Node}
    (member : node ∈ graph.nodes)
    {parent : NodeId}
    (isParent : node.parent = some parent) :
    graph.IsTerm parent := by
  have coherent := drawn.wellFormed.toCoherent
  by_cases isValue : node.kind = .value
  · obtain ⟨owner, ownerMember, isOwner, lists⟩ := coherent.valueOwner node member isValue
    rw [isParent] at isOwner
    injection isOwner with same
    exact ⟨owner, ownerMember, same.symm, NodeKind.ne_value_of_listsValues lists⟩
  · obtain ⟨link, _, _, isSource, isTerm⟩ :=
      drawn.tree.exists_relation member isValue (coherent.id_ne_zero member isParent)
    rw [isParent] at isSource
    injection isSource with same
    exact same ▸ isTerm

/-- Only the value itself is beneath a value. -/
theorem eq_of_beneath_value
    (drawn : graph.Drawn)
    {value : Node}
    (member : value ∈ graph.nodes)
    (isValue : value.kind = .value)
    {id : NodeId}
    (beneath : graph.Beneath value.id id) :
    id = value.id := by
  induction beneath with
  | self => rfl
  | child nodeMember isParent _ inductionHypothesis =>
      obtain ⟨term, termMember, named, isTerm⟩ := drawn.isTerm_parent nodeMember isParent
      have same := drawn.wellFormed.eq_of_id_eq termMember member
        (named.trans inductionHypothesis)
      exact absurd (same ▸ isValue) isTerm

/-- A pruning that starts at values takes nothing else. -/
theorem mem_of_prunes
    (drawn : graph.Drawn)
    (prunes : Prunes change gone graph after)
    (values : graph.AreValues gone)
    {node : Node}
    (member : node ∈ graph.nodes)
    (stays : ¬ gone node.id) :
    change node ∈ after.nodes := by
  apply prunes.mem member
  intro top isGone beneath
  obtain ⟨value, valueMember, rfl, isValue⟩ := values top isGone
  rw [drawn.eq_of_beneath_value valueMember isValue beneath] at stays
  exact stays isGone

theorem keepsTerms
    (drawn : graph.Drawn)
    (prunes : Prunes change gone graph after)
    (values : graph.AreValues gone)
    (same : ∀ node, (change node).SameTerm node) :
    KeepsTerms graph after := by
  intro node member isTerm
  refine ⟨change node, drawn.mem_of_prunes prunes values member ?_, same node⟩
  intro isGone
  obtain ⟨value, valueMember, named, isValue⟩ := values node.id isGone
  rw [drawn.wellFormed.eq_of_id_eq valueMember member named] at isValue
  exact isTerm isValue

/-! ## Unlisting and binding -/

/-- Unlisting the values of a node is accepted.  All terms stay, the node itself
as it is except for the mark of the listing, and so does the value it is bound
to. -/
theorem removeValues_keeps
    (drawn : graph.Drawn)
    {owner : Node}
    (member : owner ∈ graph.nodes) :
    ∃ count after,
      graph.removeValues owner.id = .ok (count, after) ∧ KeepsTerms graph after ∧
        { owner with valueExpanded := false } ∈ after.nodes ∧
          ∀ value ∈ graph.nodes, owner.value = some value.id → value ∈ after.nodes := by
  have grown := drawn.grown
  obtain ⟨count, after, accepted⟩ :
      ∃ count after, graph.removeValues owner.id = .ok (count, after) :=
    ⟨_, _, grown.toCoherent.removeValues_accepted member⟩
  have prunes := (grown.prunes_removeValues member accepted).1
  have values := @Spare.areValues graph owner
  refine ⟨count, after, accepted, drawn.keepsTerms prunes values ?_,
    grown.mem_removeValues member accepted,
    fun value => grown.bound_mem_removeValues member accepted⟩
  intro node
  split <;> exact ⟨rfl, rfl, rfl, rfl, rfl⟩

/-- Binding a node to a value listed for it is accepted.  The node with its new
binding is there afterwards, and so is the value. -/
theorem bindValue_keeps
    (drawn : graph.Drawn)
    {owner value : Node}
    (ownerMember : owner ∈ graph.nodes)
    (valueMember : value ∈ graph.nodes)
    (isValue : value.kind = .value)
    (parent : value.parent = some owner.id) :
    ∃ after,
      graph.bindValue owner.id value.id = .ok after ∧
        { owner with value := some value.id } ∈ after.nodes ∧ value ∈ after.nodes := by
  have grown := drawn.grown
  have coherent := grown.toCoherent
  obtain ⟨after, accepted⟩ : ∃ after, graph.bindValue owner.id value.id = .ok after :=
    ⟨_, coherent.bindValue_accepted ownerMember valueMember isValue parent⟩
  refine ⟨after, accepted, grown.mem_bindValue ownerMember accepted, ?_⟩
  have stays := drawn.mem_of_prunes (grown.prunes_bindValue ownerMember accepted) (by
    rintro id ⟨bound, _⟩
    obtain ⟨previous, previousMember, named, isPrevious, _⟩ :=
      coherent.boundBelow owner ownerMember id bound
    exact ⟨previous, previousMember, named, isPrevious⟩) valueMember fun isGone => isGone.2.1 rfl
  rwa [if_neg (coherent.id_ne_parent valueMember parent)] at stays

end Drawn

end QueryGraph
end VisualQuery
