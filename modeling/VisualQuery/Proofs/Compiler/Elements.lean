import VisualQuery.Proofs.Compiler.Picture
import VisualQuery.Proofs.KeyedList

/-!
# What nodes and links contribute

Compiling a list of links of a coherent graph succeeds, and every fragment
belongs to the root or to one of the links.  The pattern of a node, with the
predicates and the parameters that come with it, asks for the label of the node
and for its bound value.
-/

namespace VisualQuery

/-- A walk that fails for no item collects the results of the items. -/
theorem exists_mapM_ok
    {α β ε : Type}
    {f : α → Except ε β}
    (items : List α)
    (succeeds : ∀ item ∈ items, ∃ result, f item = .ok result) :
    ∃ results, items.mapM f = .ok results ∧
      ∀ result, result ∈ results ↔ ∃ item ∈ items, f item = .ok result := by
  induction items with
  | nil => exact ⟨[], rfl, by simp⟩
  | cons head tail inductionHypothesis =>
      obtain ⟨first, found⟩ := succeeds head List.mem_cons_self
      obtain ⟨others, collected, members⟩ := inductionHypothesis fun item member =>
        succeeds item (List.mem_cons_of_mem _ member)
      refine ⟨first :: others, ?_, ?_⟩
      · rw [List.mapM_cons, found, collected]
        rfl
      · intro result
        rw [List.mem_cons, members]
        simp only [List.mem_cons, exists_eq_or_imp, found, Except.ok.injEq]
        rw [eq_comm]

namespace Compiler

open Cypher

variable {metadata : LabelMetadata} {graph : QueryGraph}

/-! ## Compiling links -/

/-- The fragment of the link at a position. -/
def fragmentAt
    (metadata : LabelMetadata)
    (graph : QueryGraph)
    (direction : Direction)
    (selected : NodeId)
    (constrain : Bool)
    (entry : LinkId × Nat) : Except QueryError Fragment := do
  let link ← graph.link entry.1
  let source ← graph.node link.source
  let target ← graph.node link.target
  pure (linkFragment metadata graph direction entry.2 link source target
    (constrain && target.id ≠ selected))

/-- Compiling is a lookup of the root and one walk over the links. -/
theorem compileElements_eq
    (direction : Direction)
    (root selected : NodeId)
    (links : List LinkId)
    (constraintNeeded excludeRoot : Bool) :
    compileElements metadata graph direction root selected links constraintNeeded excludeRoot =
      graph.node root >>= fun rootNode =>
        links.zipIdx.mapM (fragmentAt metadata graph direction selected
            (constraintNeeded || rootNode.immutable)) >>= fun paths =>
          pure (.ofFragments
            (rootFragment metadata graph rootNode
              ((constraintNeeded || rootNode.immutable) && !excludeRoot)) paths) := rfl

theorem compile_eq
    (direction : Direction)
    (root selected : NodeId)
    (links : List LinkId) :
    compile metadata graph direction root selected links true =
      graph.node root >>= fun rootNode =>
        links.zipIdx.mapM (fragmentAt metadata graph direction selected true) >>= fun paths =>
          pure (.ofFragments (rootFragment metadata graph rootNode true) paths) :=
  compileElements_eq direction root selected links true false

/-- A link with its ends, at a position of a list of links. -/
structure StandsAt
    (graph : QueryGraph)
    (links : List LinkId)
    (index : Nat)
    (link : Link)
    (source target : Node) : Prop where
  linkMember : link ∈ graph.links
  sourceMember : source ∈ graph.nodes
  targetMember : target ∈ graph.nodes
  sourceNamed : source.id = link.source
  targetNamed : target.id = link.target
  position : links[index]? = some link.id

theorem StandsAt.fragmentAt_eq
    {links : List LinkId}
    {index : Nat}
    {link : Link}
    {source target : Node}
    (stands : StandsAt graph links index link source target)
    (coherent : graph.Coherent)
    (direction : Direction)
    (selected : NodeId) :
    fragmentAt metadata graph direction selected true (link.id, index) =
      .ok (linkFragment metadata graph direction index link source target
        (target.id ≠ selected)) := by
  have foundSource := coherent.node_of_mem stands.sourceMember
  have foundTarget := coherent.node_of_mem stands.targetMember
  rw [stands.sourceNamed] at foundSource
  rw [stands.targetNamed] at foundTarget
  simp only [fragmentAt, coherent.link_of_mem stands.linkMember, foundSource, foundTarget, bind,
    Except.bind, pure, Except.pure, Bool.true_and]

/-- Every known link of a list stands at its position with its ends. -/
theorem exists_standsAt
    (coherent : graph.Coherent)
    {links : List LinkId}
    (known : ∀ id ∈ links, ∃ link ∈ graph.links, link.id = id)
    {entry : LinkId × Nat}
    (member : entry ∈ links.zipIdx) :
    ∃ link source target,
      link.id = entry.1 ∧ StandsAt graph links entry.2 link source target := by
  have position : links[entry.2]? = some entry.1 := List.mem_zipIdx_iff_getElem?.1 member
  obtain ⟨link, linkMember, named⟩ := known entry.1 (List.mem_of_getElem? position)
  obtain ⟨sourceKnown, targetKnown⟩ := coherent.linkEnds link linkMember
  obtain ⟨source, sourceMember, sourceNamed⟩ := QueryGraph.mem_nodeIds.1 sourceKnown
  obtain ⟨target, targetMember, targetNamed⟩ := QueryGraph.mem_nodeIds.1 targetKnown
  refine ⟨link, source, target, named, linkMember, sourceMember, targetMember, sourceNamed,
    targetNamed, ?_⟩
  rw [named]
  exact position

/-- Compiling links of a coherent graph succeeds, with one fragment for each. -/
theorem compile_ok
    (metadata : LabelMetadata)
    (coherent : graph.Coherent)
    {root : Node}
    (member : root ∈ graph.nodes)
    (direction : Direction)
    (selected : NodeId)
    {links : List LinkId}
    (known : ∀ id ∈ links, ∃ link ∈ graph.links, link.id = id) :
    ∃ paths,
      compile metadata graph direction root.id selected links true =
          .ok (.ofFragments (rootFragment metadata graph root true) paths) ∧
        ∀ fragment, fragment ∈ paths ↔
          ∃ index link source target,
            StandsAt graph links index link source target ∧
              fragment = linkFragment metadata graph direction index link source target
                (target.id ≠ selected) := by
  have succeeds : ∀ entry ∈ links.zipIdx, ∃ fragment,
      fragmentAt metadata graph direction selected true entry = .ok fragment := by
    rintro ⟨id, index⟩ entryMember
    obtain ⟨link, source, target, rfl, stands⟩ := exists_standsAt coherent known entryMember
    exact ⟨_, stands.fragmentAt_eq coherent direction selected⟩
  obtain ⟨paths, collected, members⟩ := exists_mapM_ok links.zipIdx succeeds
  refine ⟨paths, ?_, ?_⟩
  · rw [compile_eq, coherent.node_of_mem member, collected]
    rfl
  · intro fragment
    rw [members]
    constructor
    · rintro ⟨⟨id, index⟩, entryMember, found⟩
      obtain ⟨link, source, target, rfl, stands⟩ := exists_standsAt coherent known entryMember
      rw [stands.fragmentAt_eq coherent direction selected] at found
      injection found with same
      exact ⟨index, link, source, target, stands, same.symm⟩
    · rintro ⟨index, link, source, target, stands, rfl⟩
      have entryMember : (link.id, index) ∈ links.zipIdx :=
        List.mem_zipIdx_iff_getElem?.2 stands.position
      exact ⟨_, entryMember, stands.fragmentAt_eq coherent direction selected⟩

/-! ## Constrained patterns -/

@[simp] theorem nodePattern_var (node : Node) :
    (nodePattern metadata graph node true).1.var = node.var := by
  unfold nodePattern
  cases graph.boundValue? node with
  | none => rfl
  | some value =>
      simp only [if_true, constrainedPattern]
      cases (metadata.resolve node.label).constraintAttribute <;> rfl

/-- The parameters of a node come from its bound value and a property. -/
theorem exists_of_mem_bindings
    {node : Node}
    {binding : String × PropertyValue}
    (member : binding ∈ (nodePattern metadata graph node true).2.2) :
    ∃ value name,
      graph.boundValue? node = some value ∧
        (metadata.resolve node.label).constraintAttribute = .property name ∧
          binding = (parameterName node name, (value.attribute? name).getD .null) := by
  unfold nodePattern at member
  cases bound : graph.boundValue? node with
  | none =>
      rw [bound] at member
      simp at member
  | some value =>
      simp only [bound, if_true, constrainedPattern] at member
      cases constraint : (metadata.resolve node.label).constraintAttribute with
      | internalId =>
          rw [constraint] at member
          simp at member
      | property name =>
          rw [constraint] at member
          exact ⟨value, name, rfl, rfl, List.mem_singleton.1 member⟩

section

variable
  {database : Database}
  {parameters : Parameters}
  {assignment : Assignment database}
  {node : Node}
  {stored : database.Node}

/-- The plain pattern of a node asks for its label. -/
theorem labeled_iff (assigned : assignment node.var = .node stored) :
    (labeled node).Matches parameters assignment stored ↔
      database.hasLabel stored node.label := by
  constructor
  · intro matching
    exact matching.label node.label rfl
  · intro label
    refine ⟨assigned, ?_, by simp [labeled]⟩
    intro required same
    injection same with same
    exact same ▸ label

/-- A constraint by a property asks for what a value has under it, and for
nothing that is missing or `null`. -/
theorem constrained_iff
    {value : Node}
    {name parameter : String}
    (assigned : assignment node.var = .node stored)
    (known :
      KeyedList.lookup? parameter parameters = some ((value.attribute? name).getD .null)) :
    NodePattern.Matches parameters assignment
        { labeled node with constraint := some ⟨name, parameter⟩ } stored ↔
      database.hasLabel stored node.label ∧
        ∃ sought, value.attribute? name = some sought ∧ sought ≠ .null ∧
          database.property stored name = sought := by
  constructor
  · intro matching
    have label := matching.label node.label rfl
    obtain ⟨sought, found, notNull, equal⟩ := matching.constraint ⟨name, parameter⟩ rfl
    rw [known] at found
    injection found with same
    refine ⟨label, sought, ?_, notNull, equal⟩
    cases kept : value.attribute? name with
    | none =>
        rw [kept] at same
        exact absurd same.symm notNull
    | some held =>
        rw [kept] at same
        exact congrArg some same
  · rintro ⟨label, sought, kept, notNull, equal⟩
    have plain : (labeled node).Matches parameters assignment stored :=
      (labeled_iff assigned).2 label
    refine ⟨assigned, plain.label, ?_⟩
    intro required same
    injection same with same
    subst same
    refine ⟨sought, ?_, notNull, equal⟩
    rw [known, kept]
    rfl

/-- With its parameters in place, the pattern of a node and its predicates hold
of a node of the database that has the label and meets the bound value. -/
theorem nodePattern_iff
    {judge : Judge database}
    {stands : String → database.Node → Prop}
    (assigned : assignment node.var = .node stored)
    (stocked :
      ∀ binding ∈ (nodePattern metadata graph node true).2.2,
        KeyedList.lookup? binding.1 parameters = some binding.2) :
    ((nodePattern metadata graph node true).1.Matches parameters assignment stored ∧
        ∀ predicate ∈ (nodePattern metadata graph node true).2.1,
          predicate.Holds assignment judge stands) ↔
      database.hasLabel stored node.label ∧
        ∀ value, graph.boundValue? node = some value →
          Meets metadata node.label value stored := by
  unfold nodePattern at stocked ⊢
  cases bound : graph.boundValue? node with
  | none => simp [labeled_iff assigned]
  | some value =>
      simp only [bound, if_true, constrainedPattern] at stocked ⊢
      simp only [Option.some.injEq, forall_eq', Meets]
      cases constraint : (metadata.resolve node.label).constraintAttribute with
      | internalId => simp [labeled_iff assigned, Predicate.Holds, assigned]
      | property name =>
          simp only [constraint] at stocked ⊢
          have known := stocked _ (List.mem_singleton_self _)
          simp [constrained_iff assigned known]

end

end Compiler
end VisualQuery
