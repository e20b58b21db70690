import Mathlib.Order.Defs.Unbundled
import VisualQuery.Proofs.Graph.Cutting
import VisualQuery.Proofs.Graph.History

/-!
# Numbers are handed out once

Until a graph is started over the counter of numbers never goes back, and every
new node gets a number that no node had before.  So a node that still bears an
old number is still the node that bore it.
-/

namespace VisualQuery
namespace QueryGraph

variable {graph before between after : QueryGraph}

/-- The counter does not go back, and old numbers belong to old nodes. -/
structure AgesInto (before after : QueryGraph) : Prop where
  nextId : before.nextId ≤ after.nextId
  old :
    ∀ node ∈ after.nodes, node.id.value < before.nextId →
      ∃ former ∈ before.nodes, node.IsStill former

namespace AgesInto

theorem refl (graph : QueryGraph) : AgesInto graph graph :=
  ⟨Nat.le_refl _, fun node member _ => ⟨node, member, Node.IsStill.refl node⟩⟩

theorem trans
    (first : AgesInto before between)
    (second : AgesInto between after) :
    AgesInto before after where
  nextId := Nat.le_trans first.nextId second.nextId
  old := by
    intro node member isOld
    obtain ⟨middle, middleMember, late⟩ :=
      second.old node member (Nat.lt_of_lt_of_le isOld first.nextId)
    obtain ⟨former, formerMember, early⟩ := first.old middle middleMember (late.id ▸ isOld)
    exact ⟨former, formerMember, late.trans early⟩

theorem of_cuts
    {dropped : Link → Prop}
    (cuts : Cuts dropped before after) :
    AgesInto before after :=
  ⟨Nat.le_of_eq cuts.nextId.symm, fun node member _ => cuts.nodes node member⟩

/-- A node made under the next number. -/
theorem of_append
    (made : Node)
    (nodes : after.nodes = before.nodes ++ [made])
    (numbered : made.id.value = before.nextId)
    (nextId : before.nextId ≤ after.nextId) :
    AgesInto before after := by
  refine ⟨nextId, ?_⟩
  intro node member isOld
  rw [nodes] at member
  rcases List.mem_append.1 member with old | new
  · exact ⟨node, old, Node.IsStill.refl node⟩
  · rw [List.mem_singleton.1 new, numbered] at isOld
    exact absurd isOld (Nat.lt_irrefl _)

/-! ## Adding -/

theorem addRoot
    {label : String}
    {root : NodeId}
    (accepted : before.addRoot label = .ok (root, after)) :
    AgesInto before after := by
  obtain ⟨_, pushed⟩ := addRoot_ok accepted
  injection pushed with _ after_eq
  subst after_eq
  exact of_append (before.freshRoot label) rfl rfl (Nat.le_succ _)

theorem addNode
    {parent id : NodeId}
    {label : String}
    {isGroup : Bool}
    (accepted : before.addNode parent label isGroup = .ok (id, after)) :
    AgesInto before after := by
  obtain ⟨_, _, rfl⟩ := addNode_ok accepted
  exact of_append (before.freshTerm parent label isGroup) rfl rfl (Nat.le_succ _)

theorem addLink
    {source target : NodeId}
    {kind : LinkKind}
    {label : Option String}
    {id : LinkId}
    (accepted : before.addLink source target kind label = .ok (id, after)) :
    AgesInto before after := by
  obtain ⟨_, _, rfl⟩ := addLink_ok accepted
  exact ⟨Nat.le_succ _, fun node member _ => ⟨node, member, Node.IsStill.refl node⟩⟩

theorem addRelationship
    {parent child : NodeId}
    {relationship label : String}
    {isGroup : Bool}
    (accepted :
      before.addRelationship parent relationship label isGroup = .ok (child, after)) :
    AgesInto before after := by
  obtain ⟨between, link, added, linked⟩ := addRelationship_ok accepted
  exact (addNode added).trans (addLink linked)

theorem addValue
    {parent value : NodeId}
    {attributes : Row}
    (accepted : before.addValue parent attributes = .ok (value, after)) :
    AgesInto before after := by
  obtain ⟨owner, _, link, _, _, _, linked⟩ := addValue_ok accepted
  exact (of_append (before.freshValue owner attributes) rfl rfl (Nat.le_succ _)).trans
    (addLink linked)

end AgesInto

/-! ## Schemas -/

theorem Builds.agesInto
    (builds : Builds before after)
    (coherent : before.Coherent) :
    AgesInto before after := by
  cases builds with
  | addRoot accepted => exact AgesInto.addRoot accepted
  | addRelationship isTerm accepted => exact AgesInto.addRelationship accepted
  | addValue accepted => exact AgesInto.addValue accepted
  | bindValue unbound accepted => exact AgesInto.of_cuts (Cuts.bindValue coherent accepted)
  | setImmutable accepted => exact AgesInto.of_cuts (Cuts.setImmutable coherent accepted)

theorem Built.agesInto
    (built : Built before after)
    (wellFormed : before.WellFormed) :
    AgesInto before after := by
  induction built with
  | refl => exact AgesInto.refl before
  | tail earlier builds inductionHypothesis =>
      have reached := Built.wellFormed earlier wellFormed
      exact inductionHypothesis.trans (builds.agesInto reached.toCoherent)

end QueryGraph

namespace GraphEdit

open QueryGraph

/-- Every edit but a restart lets a graph age. -/
theorem apply_agesInto
    (edit : GraphEdit)
    {graph : QueryGraph}
    (wellFormed : graph.WellFormed)
    (steady : edit.restarts = false) :
    AgesInto graph (edit.apply graph) := by
  have coherent := wellFormed.toCoherent
  have stays := AgesInto.refl graph
  cases edit with
  | reset label => cases steady
  | clear => cases steady
  | generateVariable label => exact ⟨stays.nextId, stays.old⟩
  | addRoot label => exact Step.atomic_property stays fun _ _ => AgesInto.addRoot
  | addNode parent label isGroup =>
      exact Step.atomic_property stays fun _ _ => AgesInto.addNode
  | addRelationship parent relationship label isGroup =>
      exact Step.atomic_property stays fun _ _ => AgesInto.addRelationship
  | addValue parent attributes =>
      exact Step.atomic_property stays fun _ _ => AgesInto.addValue
  | addLink source target kind label =>
      exact Step.atomic_property stays fun _ _ => AgesInto.addLink
  | removeNode node =>
      refine Step.atomicUnit_property stays ?_
      intro after accepted
      exact AgesInto.of_cuts (Cuts.removeNode coherent accepted)
  | removeLink link =>
      refine Step.atomicUnit_property stays ?_
      intro after accepted
      exact AgesInto.of_cuts (Cuts.removeLink coherent accepted)
  | removeValues node =>
      refine Step.atomic_property stays ?_
      intro count after accepted
      obtain ⟨owner, member, rfl, _⟩ := removeValues_ok accepted
      exact AgesInto.of_cuts (Cuts.removeValues coherent member accepted)
  | bindValue node value =>
      refine Step.atomicUnit_property stays ?_
      intro after accepted
      exact AgesInto.of_cuts (Cuts.bindValue coherent accepted)
  | clearValue node =>
      refine Step.atomic_property stays ?_
      intro cleared after accepted
      exact AgesInto.of_cuts (Cuts.clearValue coherent accepted)
  | setImmutable node immutable =>
      refine Step.atomicUnit_property stays ?_
      intro after accepted
      exact AgesInto.of_cuts (Cuts.setImmutable coherent accepted)
  | addSchema schema => exact (addSchema_built schema wellFormed).agesInto wellFormed
  | note node change =>
      exact AgesInto.of_cuts (Cuts.modifyNode coherent (Node.InPlace.note change) node)

end GraphEdit

/-! ## Graphs that live on -/

namespace QueryGraph

variable {before between after : QueryGraph}

/-- A well-formed graph ages, and stays well-formed. -/
def LivesOn (before after : QueryGraph) : Prop :=
  before.WellFormed → after.WellFormed ∧ AgesInto before after

instance : IsPreorder QueryGraph LivesOn where
  refl graph wellFormed := ⟨wellFormed, AgesInto.refl graph⟩
  trans first second third early late wellFormed := by
    obtain ⟨middleWellFormed, ages⟩ := early wellFormed
    obtain ⟨lastWellFormed, agesOn⟩ := late middleWellFormed
    exact ⟨lastWellFormed, ages.trans agesOn⟩

end QueryGraph

namespace GraphEdit

open QueryGraph

theorem apply_livesOn
    (edit : GraphEdit)
    (graph : QueryGraph)
    (steady : edit.restarts = false) :
    LivesOn graph (edit.apply graph) :=
  fun wellFormed => ⟨apply_wellFormed edit graph wellFormed,
    apply_agesInto edit wellFormed steady⟩

theorem run_livesOn
    (edits : List GraphEdit)
    (graph : QueryGraph)
    (steady : ∀ edit ∈ edits, edit.restarts = false) :
    LivesOn graph (run edits graph) := by
  induction edits generalizing graph with
  | nil => exact refl_of LivesOn graph
  | cons edit rest inductionHypothesis =>
      refine trans_of LivesOn (apply_livesOn edit graph (steady edit List.mem_cons_self)) ?_
      exact inductionHypothesis _ fun later member => steady later (List.mem_cons_of_mem _ member)

end GraphEdit
end VisualQuery
