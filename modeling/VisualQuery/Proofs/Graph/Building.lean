import Mathlib.Logic.Relation
import VisualQuery.Proofs.Graph.Values

/-!
# Schemas built step by step

What a schema does to a graph is done by accepted edits, one after the other:
the root, relationships from terms, values, their bindings and pins.  No node
is bound twice, so no edit on the way removes anything.  A property kept by
these edits is kept by a schema, wherever it is refused.
-/

namespace VisualQuery
namespace QueryGraph

variable {graph before after : QueryGraph}

/-- A number names a node that is not a value. -/
def IsTerm (graph : QueryGraph) (id : NodeId) : Prop :=
  ∃ node ∈ graph.nodes, node.id = id ∧ node.kind ≠ .value

/-- Nodes with a number are not bound to a value. -/
def Unbound (graph : QueryGraph) (id : NodeId) : Prop :=
  ∀ node ∈ graph.nodes, node.id = id → node.value = none

/-- One edit on the way of a schema. -/
inductive Builds : QueryGraph → QueryGraph → Prop
  | addRoot
      {before after : QueryGraph}
      {label : String}
      {root : NodeId}
      (accepted : before.addRoot label = .ok (root, after)) :
      Builds before after
  | addRelationship
      {before after : QueryGraph}
      {parent child : NodeId}
      {relationship label : String}
      {isGroup : Bool}
      (isTerm : before.IsTerm parent)
      (accepted :
        before.addRelationship parent relationship label isGroup = .ok (child, after)) :
      Builds before after
  | addValue
      {before after : QueryGraph}
      {parent value : NodeId}
      {attributes : Row}
      (accepted : before.addValue parent attributes = .ok (value, after)) :
      Builds before after
  | bindValue
      {before after : QueryGraph}
      {node value : NodeId}
      (unbound : before.Unbound node)
      (accepted : before.bindValue node value = .ok after) :
      Builds before after
  | setImmutable
      {before after : QueryGraph}
      {node : NodeId}
      {immutable : Bool}
      (accepted : before.setImmutable node immutable = .ok after) :
      Builds before after

/-- Edits on the way of a schema, one after the other. -/
abbrev Built : QueryGraph → QueryGraph → Prop := Relation.ReflTransGen Builds

/-! ## What building keeps -/

theorem Builds.wellFormed
    (builds : Builds before after)
    (wellFormed : before.WellFormed) :
    after.WellFormed := by
  cases builds with
  | addRoot accepted => exact wellFormed.addRoot accepted
  | addRelationship isTerm accepted => exact wellFormed.addRelationship accepted
  | addValue accepted => exact wellFormed.addValue accepted
  | bindValue unbound accepted => exact wellFormed.bindValue accepted
  | setImmutable accepted => exact wellFormed.setImmutable accepted

theorem Built.wellFormed
    (built : Built before after)
    (wellFormed : before.WellFormed) :
    after.WellFormed := by
  induction built with
  | refl => exact wellFormed
  | tail earlier builds inductionHypothesis => exact builds.wellFormed inductionHypothesis

/-- Binding a node that has no value drops none. -/
theorem bindValue_ok_of_unbound
    {node value : NodeId}
    (unbound : before.Unbound node)
    (accepted : before.bindValue node value = .ok after) :
    after = before.modifyNode node fun node => { node with value := some value } := by
  obtain ⟨owner, member, candidate, _, named, _, _, _, rfl⟩ := bindValue_ok accepted
  rw [unbound owner member named, dropPrevious]

theorem IsTerm.append
    {id : NodeId}
    (isTerm : before.IsTerm id)
    {made : Node}
    (nodes : after.nodes = before.nodes ++ [made]) :
    after.IsTerm id := by
  obtain ⟨node, member, holds⟩ := isTerm
  refine ⟨node, ?_, holds⟩
  rw [nodes]
  exact List.mem_append_left _ member

theorem IsTerm.modifyNode
    {id : NodeId}
    (isTerm : graph.IsTerm id)
    {change : Node → Node}
    (inPlace : Node.InPlace change)
    (changed : NodeId) :
    (graph.modifyNode changed change).IsTerm id := by
  obtain ⟨node, member, named, kind⟩ := isTerm
  have changes := inPlace.ite fun node => node.id = changed
  rw [modifyNode_eq_mapNodes]
  refine ⟨_, mem_mapNodes.2 ⟨node, member, rfl⟩, ?_, ?_⟩
  · rw [changes.id]
    exact named
  · rw [changes.kind]
    exact kind

/-- Terms stay. -/
theorem Builds.isTerm
    {id : NodeId}
    (builds : Builds before after)
    (isTerm : before.IsTerm id) :
    after.IsTerm id := by
  cases builds with
  | addRoot accepted =>
      obtain ⟨empty, _⟩ := addRoot_ok accepted
      obtain ⟨node, member, _⟩ := isTerm
      rw [empty] at member
      simp at member
  | addRelationship fromTerm accepted =>
      obtain ⟨between, link, added, linked⟩ := addRelationship_ok accepted
      obtain ⟨_, _, rfl⟩ := addNode_ok added
      obtain ⟨_, _, rfl⟩ := addLink_ok linked
      exact isTerm.append rfl
  | addValue accepted =>
      obtain ⟨owner, _, link, _, _, _, linked⟩ := addValue_ok accepted
      obtain ⟨_, _, rfl⟩ := addLink_ok linked
      exact isTerm.append rfl
  | bindValue unbound accepted =>
      rw [bindValue_ok_of_unbound unbound accepted]
      exact isTerm.modifyNode (Node.InPlace.setValue _) _
  | setImmutable accepted =>
      rw [setImmutable_ok accepted]
      exact isTerm.modifyNode (Node.InPlace.setImmutable _) _

theorem Built.isTerm
    {id : NodeId}
    (built : Built before after)
    (isTerm : before.IsTerm id) :
    after.IsTerm id := by
  induction built with
  | refl => exact isTerm
  | tail earlier builds inductionHypothesis => exact builds.isTerm inductionHypothesis

/-! ## The node being built -/

/-- A new value binds nothing. -/
theorem Unbound.addValue
    {id parent value : NodeId}
    {attributes : Row}
    (unbound : before.Unbound id)
    (accepted : before.addValue parent attributes = .ok (value, after)) :
    after.Unbound id := by
  obtain ⟨owner, _, link, _, _, _, linked⟩ := addValue_ok accepted
  obtain ⟨_, _, rfl⟩ := addLink_ok linked
  intro node member named
  rcases List.mem_append.1 member with old | new
  · exact unbound node old named
  · rw [List.mem_singleton] at new
    rw [new]
    rfl

/-- The root just made is an unbound term. -/
theorem addRoot_made
    {label : String}
    {root : NodeId}
    (accepted : before.addRoot label = .ok (root, after)) :
    after.IsTerm root ∧ after.Unbound root := by
  obtain ⟨empty, pushed⟩ := addRoot_ok accepted
  rw [pushRoot_eq, empty] at pushed
  injection pushed with root_eq after_eq
  subst root_eq after_eq
  constructor
  · refine ⟨before.freshRoot label, by simp, rfl, ?_⟩
    simp [freshRoot]
  · intro node member _
    rw [List.nil_append, List.mem_singleton] at member
    rw [member]
    rfl

/-- The far end of a relationship just made is an unbound term. -/
theorem addRelationship_made
    (coherent : before.Coherent)
    {parent child : NodeId}
    {relationship label : String}
    {isGroup : Bool}
    (accepted :
      before.addRelationship parent relationship label isGroup = .ok (child, after)) :
    after.IsTerm child ∧ after.Unbound child := by
  obtain ⟨between, link, added, linked⟩ := addRelationship_ok accepted
  obtain ⟨_, rfl, rfl⟩ := addNode_ok added
  obtain ⟨_, _, rfl⟩ := addLink_ok linked
  constructor
  · exact ⟨before.freshTerm parent label isGroup, by simp, rfl, kind_freshTerm_ne_value _ _ _⟩
  · intro node member named
    rcases List.mem_append.1 member with old | new
    · have below := coherent.nodesBelow node old
      rw [named] at below
      exact absurd below (Nat.lt_irrefl _)
    · rw [List.mem_singleton] at new
      rw [new]
      rfl

/-! ## Schemas -/

theorem addOptional_built
    {id : NodeId}
    (unbound : graph.Unbound id)
    (value : Option Row) :
    Built graph ((addOptional id value).after graph) := by
  cases value with
  | none => exact Relation.ReflTransGen.refl
  | some attributes =>
      simp only [addOptional, addBound, Step.after_atomic_bind]
      split
      · rename_i value listed accepted
        have added := Relation.ReflTransGen.single (Builds.addValue accepted)
        rcases Step.after_atomicUnit_cases (bindValue id value) listed with bound | unchanged
        · exact added.tail (Builds.bindValue (unbound.addValue accepted) bound)
        · rw [unchanged]
          exact added
      · exact Relation.ReflTransGen.refl

theorem setImmutable_built
    (id : NodeId)
    (immutable : Bool)
    (graph : QueryGraph) :
    Built graph ((Step.atomicUnit (setImmutable id immutable)).after graph) := by
  rcases Step.after_atomicUnit_cases (setImmutable id immutable) graph with taken | unchanged
  · exact Relation.ReflTransGen.single (Builds.setImmutable taken)
  · rw [unchanged]

/-- A property of well-formed graphs that the stretches of a schema keep: a
relationship, a value with its binding, and a pin. -/
structure Upheld (property : QueryGraph → Prop) : Prop where
  relationship :
    ∀ {before after parent child relationship label isGroup},
      before.WellFormed →
        before.addRelationship parent relationship label isGroup = .ok (child, after) →
          property before → property after
  value :
    ∀ {graph id} value, graph.WellFormed → graph.Unbound id → property graph →
      property ((addOptional id value).after graph)
  pin :
    ∀ {graph} id immutable, graph.WellFormed → property graph →
      property ((Step.atomicUnit (setImmutable id immutable)).after graph)

/-- A graph was built from another one and has a property. -/
def BuiltWith (property : QueryGraph → Prop) (before after : QueryGraph) : Prop :=
  Built before after ∧ property after

/-- What follows a step builds on what the step has built. -/
theorem BuiltWith.bind
    {property : QueryGraph → Prop}
    {α β : Type}
    {step : Step QueryGraph α}
    {next : α → Step QueryGraph β}
    (first : BuiltWith property graph (step.after graph))
    (second :
      ∀ answer, property (step.after graph) →
        BuiltWith property (step.after graph) ((next answer).after (step.after graph))) :
    BuiltWith property graph ((step >>= next).after graph) := by
  rw [Step.after_bind]
  split
  · rename_i answer _
    obtain ⟨built, holds⟩ := second answer first.2
    exact ⟨first.1.trans built, holds⟩
  · exact first

mutual

/-- A schema is applied to an unbound term by accepted edits, and what they
uphold holds after it. -/
theorem applySchema_upholds
    {property : QueryGraph → Prop}
    (upheld : Upheld property)
    (schema : NodeSchema)
    {graph : QueryGraph}
    (wellFormed : graph.WellFormed)
    {id : NodeId}
    (isTerm : graph.IsTerm id)
    (unbound : graph.Unbound id)
    (holds : property graph) :
    BuiltWith property graph ((applySchema id schema).after graph) := by
  obtain ⟨label, value, immutable, group, rel⟩ := schema
  rw [applySchema_mk]
  have valued := addOptional_built unbound value
  have valuedWellFormed := valued.wellFormed wellFormed
  apply BuiltWith.bind ⟨valued, upheld.value value wellFormed unbound holds⟩
  intro _ holdsValued
  have pinned := setImmutable_built id immutable ((addOptional id value).after graph)
  apply BuiltWith.bind ⟨pinned, upheld.pin id immutable valuedWellFormed holdsValued⟩
  intro _ holdsPinned
  apply applyRelations_upholds upheld rel
  · exact pinned.wellFormed valuedWellFormed
  · exact pinned.isTerm (valued.isTerm isTerm)
  · exact holdsPinned

theorem applyRelations_upholds
    {property : QueryGraph → Prop}
    (upheld : Upheld property)
    (relations : List (String × NodeSchema))
    {graph : QueryGraph}
    (wellFormed : graph.WellFormed)
    {id : NodeId}
    (isTerm : graph.IsTerm id)
    (holds : property graph) :
    BuiltWith property graph ((applyRelations id relations).after graph) := by
  match relations with
  | [] => exact ⟨Relation.ReflTransGen.refl, holds⟩
  | (relationship, node) :: rest =>
      unfold applyRelations
      rw [Step.after_atomic_bind]
      split
      · rename_i child reached accepted
        have added := Relation.ReflTransGen.single (Builds.addRelationship isTerm accepted)
        have reachedWellFormed := wellFormed.addRelationship accepted
        obtain ⟨childTerm, childUnbound⟩ :=
          addRelationship_made wellFormed.toCoherent accepted
        have applied := applySchema_upholds upheld node reachedWellFormed childTerm childUnbound
          (upheld.relationship wellFormed accepted holds)
        obtain ⟨built, holdsAfter⟩ := applied.bind fun _ holdsApplied =>
          applyRelations_upholds upheld rest (applied.1.wellFormed reachedWellFormed)
            (applied.1.isTerm (Built.isTerm added isTerm)) holdsApplied
        exact ⟨added.trans built, holdsAfter⟩
      · exact ⟨Relation.ReflTransGen.refl, holds⟩

end

/-- A whole schema is built by accepted edits, wherever it is refused, and what
they uphold holds after it if it holds of a root alone. -/
theorem addSchema_upholds
    {property : QueryGraph → Prop}
    (upheld : Upheld property)
    (schema : NodeSchema)
    (wellFormed : graph.WellFormed)
    (holds : property graph)
    (rooted : ∀ root reached, graph.addRoot schema.label = .ok (root, reached) → property reached) :
    BuiltWith property graph ((addSchema schema).after graph) := by
  unfold addSchema
  rw [Step.after_atomic_bind]
  split
  · rename_i root reached accepted
    have added := Relation.ReflTransGen.single (Builds.addRoot accepted)
    obtain ⟨isTerm, unbound⟩ := addRoot_made accepted
    have applied := applySchema_upholds upheld schema (wellFormed.addRoot accepted) isTerm unbound
      (rooted root reached accepted)
    obtain ⟨built, holdsAfter⟩ :
        BuiltWith property reached
          ((applySchema root schema >>= fun _ => pure root).after reached) :=
      applied.bind fun _ holdsApplied => ⟨Relation.ReflTransGen.refl, holdsApplied⟩
    exact ⟨added.trans built, holdsAfter⟩
  · exact ⟨Relation.ReflTransGen.refl, holds⟩

theorem upheld_true : Upheld fun _ => True :=
  ⟨fun _ _ _ => trivial, fun _ _ _ _ => trivial, fun _ _ _ _ => trivial⟩

theorem applySchema_built
    (schema : NodeSchema)
    (wellFormed : graph.WellFormed)
    {id : NodeId}
    (isTerm : graph.IsTerm id)
    (unbound : graph.Unbound id) :
    Built graph ((applySchema id schema).after graph) :=
  (applySchema_upholds upheld_true schema wellFormed isTerm unbound trivial).1

theorem addSchema_built
    (schema : NodeSchema)
    (wellFormed : graph.WellFormed) :
    Built graph ((addSchema schema).after graph) :=
  (addSchema_upholds upheld_true schema wellFormed trivial fun _ _ _ => trivial).1

end QueryGraph
end VisualQuery
