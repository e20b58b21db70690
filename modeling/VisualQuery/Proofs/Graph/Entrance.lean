import VisualQuery.Proofs.Graph.Moves

/-!
# What moves keep of terms and values

A term is made together with a relationship that enters it, and a removal takes
what its links lead to.  So as long as no bare node is added, relationships enter
all terms but the root, even those expanded from values.  Values themselves get
no variable.
-/

namespace VisualQuery
namespace QueryGraph

variable {graph before after : QueryGraph}

/-! ## Terms are entered -/

/-- A relationship enters a node. -/
def Entered (graph : QueryGraph) (id : NodeId) : Prop :=
  ∃ link ∈ graph.links, link.isRelation = true ∧ link.target = id

/-- Every term is entered except the root and perhaps one other. -/
def EnteredBut (graph : QueryGraph) (loose : NodeId) : Prop :=
  ∀ node ∈ graph.nodes, node.kind ≠ .value → node.kind ≠ .root →
    node.id = loose ∨ graph.Entered node.id

/-- Every term is entered except the root. -/
def TermsEntered (graph : QueryGraph) : Prop :=
  ∀ node ∈ graph.nodes, node.kind ≠ .value → node.kind ≠ .root → graph.Entered node.id

theorem TermsEntered.enteredBut
    (entered : graph.TermsEntered)
    (loose : NodeId) :
    graph.EnteredBut loose := by
  intro node member notValue notRoot
  exact Or.inr (entered node member notValue notRoot)

/-- Without a link at most its target is not entered. -/
theorem TermsEntered.enteredBut_dropLink
    (entered : graph.TermsEntered)
    (coherent : graph.Coherent)
    {link : Link}
    (member : link ∈ graph.links) :
    (graph.dropLink link.id).EnteredBut link.target := by
  intro node nodeMember notValue notRoot
  obtain ⟨other, otherMember, isRelation, target⟩ := entered node nodeMember notValue notRoot
  by_cases same : other.id = link.id
  · have equal := coherent.eq_of_link_id_eq otherMember member same
    exact Or.inl (by rw [← target, equal])
  · exact Or.inr ⟨other, mem_dropLink.2 ⟨otherMember, same⟩, isRelation, target⟩

/-- Removing what hangs from the only term that is not entered leaves every term
entered. -/
theorem EnteredBut.removeSubtree
    {id : NodeId}
    (entered : graph.EnteredBut id)
    (coherent : graph.Coherent) :
    (graph.removeSubtree id).TermsEntered := by
  have closed := reached_closed graph id
  intro node member notValue notRoot
  obtain ⟨old, oldMember, kept, rfl⟩ := mem_dropNodes.1 member
  rw [(Node.release_inPlace _).kind] at notValue notRoot
  rw [(Node.release_inPlace _).id]
  rcases entered old oldMember notValue notRoot with rfl | ⟨link, linkMember, isRelation, target⟩
  · exfalso
    apply kept
    apply mem_reached_of_mem_stack List.mem_cons_self
    exact (coherent.isRemovable_iff oldMember).2 notRoot
  · have linkKept := coherent.link_kept closed oldMember kept linkMember target notRoot
    exact ⟨link, linkKept, isRelation, target⟩

theorem Move.termsEntered
    (move : Move before after)
    (coherent : before.Coherent)
    (entered : before.TermsEntered) :
    after.TermsEntered := by
  cases move with
  | start roots => exact fun node member _ notRoot => absurd (roots node member) notRoot
  | @sprout _ made link nodes links target kind _ =>
      intro node member notValue notRoot
      rw [nodes] at member
      rw [Entered, links]
      rcases List.mem_append.1 member with old | new
      · obtain ⟨edge, edgeMember, holds⟩ := entered node old notValue notRoot
        exact ⟨edge, List.mem_append_left _ edgeMember, holds⟩
      · obtain rfl := List.mem_singleton.1 new
        have isRelation : link.isRelation = true := by
          rw [← Bool.not_eq_false, kind]
          exact notValue
        exact ⟨link, List.mem_append_right _ (List.mem_singleton_self _), isRelation, target⟩
  | change inPlace nodes links =>
      intro node member notValue notRoot
      rw [nodes] at member
      obtain ⟨old, oldMember, rfl⟩ := List.mem_map.1 member
      rw [inPlace.kind] at notValue notRoot
      rw [inPlace.id, Entered, links]
      exact entered old oldMember notValue notRoot
  | unlist isValue =>
      intro node member notValue notRoot
      obtain ⟨edge, edgeMember, isRelation, target⟩ := entered node member notValue notRoot
      refine ⟨edge, mem_dropLink.2 ⟨edgeMember, ?_⟩, isRelation, target⟩
      intro same
      rw [isValue edge edgeMember same] at isRelation
      cases isRelation
  | @cut link member =>
      exact (entered.enteredBut_dropLink coherent member).removeSubtree (coherent.dropLink link.id)
  | prune id => exact (entered.enteredBut id).removeSubtree coherent

theorem Moved.termsEntered
    (moved : Moved before after)
    (coherent : before.Coherent)
    (entered : before.TermsEntered) :
    after.TermsEntered :=
  Moved.keeps (fun _ _ between move => move.termsEntered between) moved coherent entered

/-! ## Values are unnamed -/

/-- Values have no variable. -/
def ValuesUnnamed (graph : QueryGraph) : Prop :=
  ∀ node ∈ graph.nodes, node.kind = .value → node.var = ""

theorem ValuesUnnamed.removeSubtree
    (unnamed : graph.ValuesUnnamed)
    (id : NodeId) :
    (graph.removeSubtree id).ValuesUnnamed := by
  intro node member isValue
  obtain ⟨old, oldMember, _, rfl⟩ := mem_dropNodes.1 member
  rw [(Node.release_inPlace _).kind] at isValue
  rw [(Node.release_inPlace _).var]
  exact unnamed old oldMember isValue

theorem Move.valuesUnnamed
    (move : Move before after)
    (unnamed : before.ValuesUnnamed) :
    after.ValuesUnnamed := by
  cases move with
  | start roots =>
      intro node member isValue
      rw [roots node member] at isValue
      cases isValue
  | sprout nodes _ _ _ madeUnnamed =>
      intro node member isValue
      rw [nodes] at member
      rcases List.mem_append.1 member with old | new
      · exact unnamed node old isValue
      · obtain rfl := List.mem_singleton.1 new
        exact madeUnnamed isValue
  | change inPlace nodes _ =>
      intro node member isValue
      rw [nodes] at member
      obtain ⟨old, oldMember, rfl⟩ := List.mem_map.1 member
      rw [inPlace.kind] at isValue
      rw [inPlace.var]
      exact unnamed old oldMember isValue
  | unlist _ => exact unnamed
  | @cut link _ =>
      have cut : (before.dropLink link.id).ValuesUnnamed := unnamed
      exact cut.removeSubtree link.target
  | prune id => exact unnamed.removeSubtree id

end QueryGraph

namespace GraphEdit

open QueryGraph

/-- In a graph made by plain edits a relationship enters every term but the
root. -/
theorem run_termsEntered
    (edits : List GraphEdit)
    (plain : ∀ edit ∈ edits, edit.isPlain = true) :
    (run edits .empty).TermsEntered :=
  run_moved_keeps (fun _ _ coherent move => move.termsEntered coherent) edits wellFormed_empty
    (by simp [TermsEntered, QueryGraph.empty]) plain

/-- In a graph made by plain edits no value has a variable. -/
theorem run_valuesUnnamed
    (edits : List GraphEdit)
    (plain : ∀ edit ∈ edits, edit.isPlain = true) :
    (run edits .empty).ValuesUnnamed :=
  run_moved_keeps (fun _ _ _ move => move.valuesUnnamed) edits wellFormed_empty
    (by simp [ValuesUnnamed, QueryGraph.empty]) plain

end GraphEdit
end VisualQuery
