import VisualQuery.Proofs.Graph.Invariance

/-!
# Grown graphs

A relationship is made together with the term that it leads to, and a value
together with the link that lists it.  So unless bare nodes and links are added,
every link leads from the parent of its target, relationships to terms and the
other links to values, and has the number that follows the number of its target.
Edits that only take away keep this, since they leave no link without its
target.
-/

namespace VisualQuery

theorem Link.isRelation_iff {link : Link} :
    link.isRelation = true ↔ link.kind = .relation := by
  simp [Link.isRelation]

theorem Link.isRelation_eq_false_iff {link : Link} :
    link.isRelation = false ↔ link.kind = .value := by
  cases kind : link.kind <;> simp [isRelation, kind]

namespace QueryGraph

variable {graph before after : QueryGraph}

/-! ## Taking away -/

/-- No link is new, and the targets of those that stay are still where they
were. -/
structure Trims (before after : QueryGraph) : Prop where
  links : ∀ link ∈ after.links, link ∈ before.links
  targets :
    ∀ link ∈ after.links, ∀ node ∈ before.nodes, node.id = link.target →
      ∃ kept ∈ after.nodes,
        kept.id = node.id ∧ kept.kind = node.kind ∧ kept.parent = node.parent

namespace Trims

theorem refl (graph : QueryGraph) : Trims graph graph where
  links := fun _ member => member
  targets := fun _ _ node member _ => ⟨node, member, rfl, rfl, rfl⟩

theorem trans
    {first second third : QueryGraph}
    (left : Trims first second)
    (right : Trims second third) :
    Trims first third where
  links := fun link member => left.links link (right.links link member)
  targets := by
    intro link member node nodeMember named
    obtain ⟨between, betweenMember, sameId, sameKind, sameParent⟩ :=
      left.targets link (right.links link member) node nodeMember named
    obtain ⟨kept, keptMember, keptId, keptKind, keptParent⟩ :=
      right.targets link member between betweenMember (sameId.trans named)
    exact ⟨kept, keptMember, keptId.trans sameId, keptKind.trans sameKind,
      keptParent.trans sameParent⟩

theorem mapNodes
    {change : Node → Node}
    (inPlace : Node.InPlace change)
    (graph : QueryGraph) :
    Trims graph (graph.mapNodes change) where
  links := fun _ member => member
  targets := fun _ _ node member _ =>
    ⟨change node, mem_mapNodes.2 ⟨node, member, rfl⟩, inPlace.id node, inPlace.kind node,
      inPlace.parent node⟩

theorem modifyNode
    {change : Node → Node}
    (inPlace : Node.InPlace change)
    (id : NodeId)
    (graph : QueryGraph) :
    Trims graph (graph.modifyNode id change) := by
  rw [modifyNode_eq_mapNodes]
  exact mapNodes (inPlace.ite _) graph

theorem dropLink
    (id : LinkId)
    (graph : QueryGraph) :
    Trims graph (graph.dropLink id) where
  links := fun _ member => (mem_dropLink.1 member).1
  targets := fun _ _ node member _ => ⟨node, member, rfl, rfl, rfl⟩

theorem removeSubtree
    (id : NodeId)
    (graph : QueryGraph) :
    Trims graph (graph.removeSubtree id) where
  links := fun _ member => (mem_dropNodes_links.1 member).1
  targets := by
    intro link member node nodeMember named
    have kept := (mem_dropNodes_links.1 member).2.2
    have inPlace := Node.release_inPlace (graph.reached [id] [])
    exact ⟨_, mem_dropNodes.2 ⟨node, nodeMember, named ▸ kept, rfl⟩, inPlace.id node,
      inPlace.kind node, inPlace.parent node⟩

theorem dropDetached
    (id : NodeId)
    (graph : QueryGraph) :
    Trims graph (graph.dropDetached id) := by
  unfold QueryGraph.dropDetached
  split
  · exact refl graph
  · exact removeSubtree id graph

theorem dropPrevious
    (value : NodeId)
    (previous : Option NodeId)
    (graph : QueryGraph) :
    Trims graph (graph.dropPrevious value previous) := by
  unfold QueryGraph.dropPrevious
  split
  · split
    · exact refl graph
    · exact dropDetached _ graph
  · exact refl graph

theorem removeListed
    (bound : Option NodeId)
    (link : Link)
    (graph : QueryGraph) :
    Trims graph (graph.removeListed bound link) := by
  unfold QueryGraph.removeListed
  split
  · exact dropLink link.id graph
  · exact removeSubtree link.target graph

theorem foldl_removeListed
    (bound : Option NodeId)
    (listed : List Link)
    (graph : QueryGraph) :
    Trims graph (listed.foldl (QueryGraph.removeListed bound) graph) := by
  induction listed generalizing graph with
  | nil => exact refl graph
  | cons link rest inductionHypothesis =>
      exact (removeListed bound link graph).trans (inductionHypothesis _)

theorem removeNode
    {id : NodeId}
    (accepted : graph.removeNode id = .ok after) :
    Trims graph after := by
  obtain ⟨_, _, _, _, rfl⟩ := removeNode_ok accepted
  exact removeSubtree id graph

theorem removeLink
    {id : LinkId}
    (accepted : graph.removeLink id = .ok after) :
    Trims graph after := by
  obtain ⟨link, _, _, rfl⟩ := removeLink_ok accepted
  exact (dropLink id graph).trans (removeSubtree link.target _)

theorem removeValues
    {id : NodeId}
    {count : Nat}
    (accepted : graph.removeValues id = .ok (count, after)) :
    Trims graph after := by
  obtain ⟨node, _, _, rfl⟩ := removeValues_ok accepted
  exact (foldl_removeListed _ _ graph).trans
    (modifyNode (Node.InPlace.setValueExpanded false) id _)

theorem bindValue
    {node value : NodeId}
    (accepted : graph.bindValue node value = .ok after) :
    Trims graph after := by
  obtain ⟨owner, _, candidate, _, _, _, _, _, rfl⟩ := bindValue_ok accepted
  exact (modifyNode (Node.InPlace.setValue _) node graph).trans (dropPrevious _ _ _)

theorem clearValue
    {node : NodeId}
    {cleared : Bool}
    (accepted : graph.clearValue node = .ok (cleared, after)) :
    Trims graph after := by
  rcases clearValue_ok accepted with rfl | ⟨owner, _, previous, _, _, rfl⟩
  · exact refl _
  · exact (modifyNode (Node.InPlace.setValue none) node graph).trans (dropDetached _ _)

theorem setImmutable
    {node : NodeId}
    {immutable : Bool}
    (accepted : graph.setImmutable node immutable = .ok after) :
    Trims graph after := by
  rw [setImmutable_ok accepted]
  exact modifyNode (Node.InPlace.setImmutable immutable) node graph

end Trims

/-! ## Plain steps -/

/-- What edits do to nodes and links unless they add bare ones: take some away,
start over without links, or make a node with the link that leads to it from its
parent. -/
inductive PlainStep (before after : QueryGraph) : Prop
  | trim (trims : Trims before after)
  | start (unlinked : after.links = [])
  | sprout
      {made : Node}
      {link : Link}
      (nodes : after.nodes = before.nodes ++ [made])
      (links : after.links = before.links ++ [link])
      (named : made.id = link.target)
      (parent : made.parent = some link.source)
      (kind : link.isRelation = false ↔ made.kind = .value)
      (number : link.id.value = link.target.value + 1)

namespace PlainStep

theorem addRoot
    (coherent : before.Coherent)
    {label : String}
    {root : NodeId}
    (accepted : before.addRoot label = .ok (root, after)) :
    PlainStep before after := by
  obtain ⟨empty, pushed⟩ := addRoot_ok accepted
  injection pushed with _ after_eq
  subst after_eq
  exact PlainStep.start (coherent.links_eq_nil empty)

theorem addRelationship
    {parent child : NodeId}
    {relationship label : String}
    {isGroup : Bool}
    (accepted :
      before.addRelationship parent relationship label isGroup = .ok (child, after)) :
    PlainStep before after := by
  obtain ⟨between, link, added, linked⟩ := addRelationship_ok accepted
  obtain ⟨_, rfl, rfl⟩ := addNode_ok added
  obtain ⟨_, _, rfl⟩ := addLink_ok linked
  refine PlainStep.sprout rfl rfl rfl rfl ?_ rfl
  cases isGroup <;> simp [freshTerm, Link.isRelation]

theorem addValue
    {parent value : NodeId}
    {attributes : Row}
    (accepted : before.addValue parent attributes = .ok (value, after)) :
    PlainStep before after := by
  obtain ⟨owner, _, link, rfl, _, rfl, linked⟩ := addValue_ok accepted
  obtain ⟨_, _, rfl⟩ := addLink_ok linked
  exact PlainStep.sprout rfl rfl rfl rfl (by simp [freshValue, Link.isRelation]) rfl

theorem of_builds
    (coherent : before.Coherent)
    (builds : Builds before after) :
    PlainStep before after := by
  cases builds with
  | addRoot accepted => exact addRoot coherent accepted
  | addRelationship isTerm accepted => exact addRelationship accepted
  | addValue accepted => exact addValue accepted
  | bindValue unbound accepted => exact PlainStep.trim (Trims.bindValue accepted)
  | setImmutable accepted => exact PlainStep.trim (Trims.setImmutable accepted)

end PlainStep

/-- A property kept by plain steps is kept while a schema is built. -/
theorem Built.keeps
    {property : QueryGraph → Prop}
    (step : ∀ before after, PlainStep before after → property before → property after)
    (wellFormed : before.WellFormed)
    (holds : property before)
    (built : Built before after) :
    property after := by
  induction built with
  | refl => exact holds
  | tail earlier last inductionHypothesis =>
      have coherent := (Built.wellFormed earlier wellFormed).toCoherent
      exact step _ _ (PlainStep.of_builds coherent last) inductionHypothesis

/-! ## Links that follow descent -/

/-- Every link leads from the parent of its target: to a term if it is a
relationship, and else to a value. -/
def Stems (graph : QueryGraph) : Prop :=
  ∀ link ∈ graph.links, ∃ target ∈ graph.nodes,
    target.id = link.target ∧ target.parent = some link.source ∧
      (link.isRelation = false ↔ target.kind = .value)

/-- A well-formed graph whose links follow descent. -/
structure Grown (graph : QueryGraph) : Prop extends WellFormed graph where
  stems : graph.Stems

theorem PlainStep.stems
    (step : PlainStep before after)
    (stems : before.Stems) :
    after.Stems := by
  intro link member
  cases step with
  | trim trims =>
      obtain ⟨target, targetMember, named, parent, kind⟩ := stems link (trims.links link member)
      obtain ⟨kept, keptMember, sameId, sameKind, sameParent⟩ :=
        trims.targets link member target targetMember named
      exact ⟨kept, keptMember, sameId.trans named, sameParent.trans parent, sameKind ▸ kind⟩
  | start unlinked =>
      rw [unlinked] at member
      simp at member
  | @sprout made sprouted nodes links named parent kind _ =>
      rw [nodes]
      rw [links] at member
      rcases List.mem_append.1 member with old | new
      · obtain ⟨target, targetMember, holds⟩ := stems link old
        exact ⟨target, List.mem_append_left _ targetMember, holds⟩
      · rw [List.mem_singleton.1 new]
        exact ⟨made, by simp, named, parent, kind⟩

namespace Stems

theorem trim
    (stems : before.Stems)
    (trims : Trims before after) :
    after.Stems :=
  (PlainStep.trim trims).stems stems

theorem addRelationship
    (stems : before.Stems)
    {parent child : NodeId}
    {relationship label : String}
    {isGroup : Bool}
    (accepted :
      before.addRelationship parent relationship label isGroup = .ok (child, after)) :
    after.Stems :=
  (PlainStep.addRelationship accepted).stems stems

theorem addValue
    (stems : before.Stems)
    {parent value : NodeId}
    {attributes : Row}
    (accepted : before.addValue parent attributes = .ok (value, after)) :
    after.Stems :=
  (PlainStep.addValue accepted).stems stems

end Stems

theorem grown_empty : Grown empty :=
  ⟨wellFormed_empty, by simp [Stems, empty]⟩

/-! ## Numbers of links -/

/-- Every link has the number that follows the number of its target. -/
def LinksFollow (graph : QueryGraph) : Prop :=
  ∀ link ∈ graph.links, link.id.value = link.target.value + 1

theorem PlainStep.linksFollow
    (step : PlainStep before after)
    (follow : before.LinksFollow) :
    after.LinksFollow := by
  intro link member
  cases step with
  | trim trims => exact follow link (trims.links link member)
  | start unlinked =>
      rw [unlinked] at member
      simp at member
  | sprout nodes links named parent kind number =>
      rw [links] at member
      rcases List.mem_append.1 member with old | new
      · exact follow link old
      · rw [List.mem_singleton.1 new]
        exact number

end QueryGraph

/-! ## Edits -/

namespace GraphEdit

open QueryGraph

/-- An edit adds neither a bare node nor a bare link. -/
def isPlain : GraphEdit → Bool
  | .addNode _ _ _ | .addLink _ _ _ _ => false
  | _ => true

/-- A property kept by plain steps is kept by plain edits. -/
theorem apply_keeps
    {property : QueryGraph → Prop}
    (step : ∀ before after, PlainStep before after → property before → property after)
    (edit : GraphEdit)
    {graph : QueryGraph}
    (wellFormed : graph.WellFormed)
    (holds : property graph)
    (plain : edit.isPlain = true) :
    property (edit.apply graph) := by
  have trimmed {after : QueryGraph} (trims : Trims graph after) : property after :=
    step graph after (PlainStep.trim trims) holds
  cases edit with
  | addRoot label =>
      refine Step.atomic_property holds ?_
      intro id after accepted
      exact step graph after (PlainStep.addRoot wellFormed.toCoherent accepted) holds
  | reset label => exact step graph _ (PlainStep.start rfl) holds
  | clear => exact step graph _ (PlainStep.start rfl) holds
  | generateVariable label =>
      exact trimmed
        ⟨fun _ member => member, fun _ _ node member _ => ⟨node, member, rfl, rfl, rfl⟩⟩
  | addNode parent label isGroup => cases plain
  | addRelationship parent relationship label isGroup =>
      refine Step.atomic_property holds ?_
      intro id after accepted
      exact step graph after (PlainStep.addRelationship accepted) holds
  | addValue parent attributes =>
      refine Step.atomic_property holds ?_
      intro id after accepted
      exact step graph after (PlainStep.addValue accepted) holds
  | addLink source target kind label => cases plain
  | removeNode node =>
      refine Step.atomicUnit_property holds ?_
      intro after accepted
      exact trimmed (Trims.removeNode accepted)
  | removeLink link =>
      refine Step.atomicUnit_property holds ?_
      intro after accepted
      exact trimmed (Trims.removeLink accepted)
  | removeValues node =>
      refine Step.atomic_property holds ?_
      intro count after accepted
      exact trimmed (Trims.removeValues accepted)
  | bindValue node value =>
      refine Step.atomicUnit_property holds ?_
      intro after accepted
      exact trimmed (Trims.bindValue accepted)
  | clearValue node =>
      refine Step.atomic_property holds ?_
      intro cleared after accepted
      exact trimmed (Trims.clearValue accepted)
  | setImmutable node immutable =>
      refine Step.atomicUnit_property holds ?_
      intro after accepted
      exact trimmed (Trims.setImmutable accepted)
  | addSchema schema => exact Built.keeps step wellFormed holds (addSchema_built schema wellFormed)
  | note node change => exact trimmed (Trims.modifyNode (Node.InPlace.note change) node graph)

/-- And so it is by any sequence of them. -/
theorem run_plain_keeps
    {property : QueryGraph → Prop}
    (step : ∀ before after, PlainStep before after → property before → property after)
    (edits : List GraphEdit)
    {graph : QueryGraph}
    (wellFormed : graph.WellFormed)
    (holds : property graph)
    (plain : ∀ edit ∈ edits, edit.isPlain = true) :
    property (run edits graph) := by
  induction edits generalizing graph with
  | nil => exact holds
  | cons edit rest inductionHypothesis =>
      apply inductionHypothesis
      · exact apply_wellFormed edit graph wellFormed
      · exact apply_keeps step edit wellFormed holds (plain edit List.mem_cons_self)
      · intro later member
        exact plain later (List.mem_cons_of_mem _ member)

/-- A plain edit keeps links on the line of descent. -/
theorem apply_stems
    (edit : GraphEdit)
    {graph : QueryGraph}
    (wellFormed : graph.WellFormed)
    (stems : graph.Stems)
    (plain : edit.isPlain = true) :
    (edit.apply graph).Stems :=
  apply_keeps (fun _ _ step => step.stems) edit wellFormed stems plain

/-- Plain edits keep a graph grown. -/
theorem run_grown
    (edits : List GraphEdit)
    {graph : QueryGraph}
    (grown : graph.Grown)
    (plain : ∀ edit ∈ edits, edit.isPlain = true) :
    (run edits graph).Grown :=
  ⟨run_keeps apply_wellFormed edits grown.toWellFormed,
    run_plain_keeps (fun _ _ step => step.stems) edits grown.toWellFormed grown.stems plain⟩

/-- In a graph made by plain edits every link follows its target in number. -/
theorem run_linksFollow
    (edits : List GraphEdit)
    (plain : ∀ edit ∈ edits, edit.isPlain = true) :
    (run edits .empty).LinksFollow :=
  run_plain_keeps (fun _ _ step => step.linksFollow) edits wellFormed_empty
    (by simp [LinksFollow, QueryGraph.empty]) plain

end GraphEdit
end VisualQuery
