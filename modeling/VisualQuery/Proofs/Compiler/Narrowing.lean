import Mathlib.Data.List.Sort
import VisualQuery.Proofs.Compiler.OwnValue
import VisualQuery.Proofs.Compiler.Scoping
import VisualQuery.Proofs.Graph.Acceptance

/-!
# Binding narrows the result

Binding a value to a node of a drawn graph adds links to the result statement and
constraints to the patterns of the node.  What the statement matched and required
before, it matches and requires after, in the same order; only the paths are
numbered anew.
-/

namespace VisualQuery

/-- The same link, with ends that may be bound to something else. -/
def Hop.rebind (id : NodeId) (value : Option NodeId) (hop : Hop) : Hop where
  link := hop.link
  source := hop.source.rebind id value
  target := hop.target.rebind id value

namespace QueryGraph

variable {graph : QueryGraph} {id value : NodeId}

/-- A bound node stays bound when a value is bound to some node. -/
theorem isBound_rebind
    {node : Node}
    (bound : node.isBound = true) :
    (node.rebind id (some value)).isBound = true := by
  unfold Node.rebind
  split
  · rfl
  · exact bound

/-- A link that is relevant stays so when a value is bound to a node. -/
theorem Tree.mem_relevantLinks_withValue
    (tree : graph.Tree)
    (boundTree : (graph.withValue id (some value)).Tree)
    {target : NodeId}
    {link : LinkId}
    (relevant : link ∈ graph.relevantLinks ⟨0⟩ target) :
    link ∈ (graph.withValue id (some value)).relevantLinks ⟨0⟩ target := by
  obtain ⟨found, member, named, node, nodeMember, wanted, ascends⟩ :=
    (tree.mem_relevantLinks target link).1 relevant
  refine (boundTree.mem_relevantLinks target link).2
    ⟨found, member, named, node.rebind id (some value), ?_, ?_, ?_⟩
  · exact List.mem_map_of_mem nodeMember
  · exact wanted.imp (Node.rebind_id.trans ·) isBound_rebind
  · rw [Node.rebind_id]
    exact ascends

/-- Relevant links stand in the order of their numbers, so more of them keep the
order. -/
theorem Tree.relevantLinks_sublist
    (tree : graph.Tree)
    (boundTree : (graph.withValue id (some value)).Tree)
    (target : NodeId) :
    (graph.relevantLinks ⟨0⟩ target).Sublist
      ((graph.withValue id (some value)).relevantLinks ⟨0⟩ target) := by
  have ordered := tree.toCoherent.relevantLinks_ordered ⟨0⟩ target
  have boundOrdered := boundTree.toCoherent.relevantLinks_ordered ⟨0⟩ target
  have distinct : (graph.relevantLinks ⟨0⟩ target).Nodup := by
    refine ordered.imp fun below same => ?_
    rw [same] at below
    exact Nat.lt_irrefl _ below
  have contained := List.subperm_of_subset distinct fun link relevant =>
    tree.mem_relevantLinks_withValue boundTree relevant
  have : Std.Antisymm fun earlier later : LinkId => earlier.value < later.value :=
    ⟨fun _ _ below above => absurd below (Nat.lt_asymm above)⟩
  exact List.sublist_of_subperm_of_pairwise contained ordered boundOrdered

/-- A free node of a tree takes a value listed for it, and the graph stays a
tree. -/
theorem Tree.bindValue_of_unbound
    (tree : graph.Tree)
    {owner candidate : Node}
    (member : owner ∈ graph.nodes)
    (unbound : owner.value = none)
    (candidateMember : candidate ∈ graph.nodes)
    (isValue : candidate.kind = .value)
    (listed : candidate.parent = some owner.id) :
    graph.bindValue owner.id candidate.id = .ok (graph.withValue owner.id (some candidate.id)) ∧
      (graph.withValue owner.id (some candidate.id)).Tree := by
  have accepted :=
    tree.toCoherent.bindValue_accepted member candidateMember isValue listed
  rw [unbound] at accepted
  refine ⟨accepted, tree.setValue owner.id (some candidate.id) ?_⟩
  rintro _ ⟨⟩
  exact ⟨candidate, candidateMember, rfl, isValue, listed⟩

/-- The hop of a link after a value is bound. -/
theorem hop_withValue
    {bound : Option NodeId}
    (link : LinkId) :
    (graph.withValue id bound).hop link = (graph.hop link).map (Hop.rebind id bound) := by
  unfold hop
  rw [link_withValue]
  cases graph.link link with
  | error failure => rfl
  | ok found =>
      simp only [bind, Except.bind, node_withValue]
      cases graph.node found.source with
      | error failure => rfl
      | ok source =>
          cases graph.node found.target <;> rfl

/-- The hops of links after a value is bound. -/
theorem hops_withValue
    (id : NodeId)
    (bound : Option NodeId)
    {links : List LinkId}
    {hops : List Hop}
    (found : links.mapM graph.hop = .ok hops) :
    links.mapM (graph.withValue id bound).hop = .ok (hops.map (Hop.rebind id bound)) := by
  refine mapM_eq_ok_iff.2 (List.forall₂_map_right_iff.2 ((mapM_eq_ok_iff.1 found).imp ?_))
  intro link hop isHop
  rw [hop_withValue, isHop]
  rfl

/-- Fewer links have fewer hops, in the same order. -/
theorem exists_hops_sublist
    {fewer links : List LinkId}
    (sublist : fewer.Sublist links)
    {hops : List Hop}
    (found : links.mapM graph.hop = .ok hops) :
    ∃ fewerHops, fewer.mapM graph.hop = .ok fewerHops ∧ fewerHops.Sublist hops := by
  simp only [mapM_eq_ok_iff] at found ⊢
  induction sublist generalizing hops with
  | slnil => exact ⟨[], .nil, List.nil_sublist _⟩
  | cons link _ inductionHypothesis =>
      obtain ⟨hop, rest, _, others, rfl⟩ := List.forall₂_cons_left_iff.1 found
      obtain ⟨fewerHops, isHops, below⟩ := inductionHypothesis others
      exact ⟨fewerHops, isHops, below.cons hop⟩
  | cons_cons link _ inductionHypothesis =>
      obtain ⟨hop, rest, isHop, others, rfl⟩ := List.forall₂_cons_left_iff.1 found
      obtain ⟨fewerHops, isHops, below⟩ := inductionHypothesis others
      exact ⟨hop :: fewerHops, .cons isHop isHops, below.cons_cons hop⟩

end QueryGraph

/-- Items that stay, with more of them in between, come in order still when they
are numbered anew. -/
theorem sublistForall₂_map_zipIdx
    {α β γ : Type}
    {relation : β → γ → Prop}
    {before : α × Nat → β}
    {after : α × Nat → γ}
    {fewer items : List α}
    (sublist : fewer.Sublist items)
    (stays :
      ∀ item ∈ items, ∀ earlier later, relation (before (item, earlier)) (after (item, later)))
    (earlier later : Nat) :
    List.SublistForall₂ relation ((fewer.zipIdx earlier).map before)
      ((items.zipIdx later).map after) := by
  induction sublist generalizing earlier later with
  | slnil => exact .nil
  | cons item _ inductionHypothesis =>
      rw [List.zipIdx_cons, List.map_cons]
      exact .cons_right (inductionHypothesis (List.forall_mem_cons.1 stays).2 earlier (later + 1))
  | cons_cons item _ inductionHypothesis =>
      obtain ⟨first, others⟩ := List.forall_mem_cons.1 stays
      rw [List.zipIdx_cons, List.zipIdx_cons, List.map_cons, List.map_cons]
      exact .cons (first earlier later) (inductionHypothesis others (earlier + 1) (later + 1))

namespace Compiler

open Cypher

variable {metadata : LabelMetadata} {graph : QueryGraph}

/-- A pattern that stays, or the plain pattern of a node that gains a
constraint. -/
inductive Gains (node : Node) : NodePattern → NodePattern → Prop where
  | same (pattern : NodePattern) : Gains node pattern pattern
  | constraint (gained : PropertyConstraint) :
      Gains node (labeled node) { labeled node with constraint := some gained }

/-- An element that stays but for the number of its relationship and a constraint
that the pattern of a node gains. -/
inductive Narrows (node : Node) : MatchElement → MatchElement → Prop where
  | node
      {before after : NodePattern}
      (gains : Gains node before after) :
      Narrows node (.node before) (.node after)
  | path
      {source before after : NodePattern}
      {earlier later : Nat}
      {name : Option String}
      {direction : Direction}
      (gains : Gains node before after) :
      Narrows node (.path source ⟨relationVariable earlier, name, direction⟩ before)
        (.path source ⟨relationVariable later, name, direction⟩ after)

/-- A fragment that stays with its predicates, or more of them. -/
structure FragmentNarrows (node : Node) (before after : Fragment) : Prop where
  element : Narrows node before.element after.element
  predicates : before.predicates.Sublist after.predicates

/-- Whatever its value, a node has its plain pattern or gains a constraint. -/
theorem gains_nodePattern
    {node other : Node}
    (same : labeled other = labeled node)
    (constrain : Bool) :
    Gains node (labeled node) (nodePattern metadata graph other constrain).1 := by
  unfold nodePattern
  cases graph.boundValue? other with
  | none => exact same ▸ .same _
  | some value =>
      cases constrain with
      | false => exact same ▸ .same _
      | true =>
          simp only [if_true, constrainedPattern]
          cases (metadata.resolve other.label).constraintAttribute with
          | internalId => exact same ▸ .same _
          | property name =>
              show Gains node (labeled node) { labeled other with constraint := some _ }
              rw [same]
              exact .constraint _

/-- Binding a free node changes its own pattern only, and takes no predicate
away. -/
theorem nodePattern_narrows
    (metadata : LabelMetadata)
    (coherent : graph.Coherent)
    {node other : Node}
    (member : node ∈ graph.nodes)
    (unbound : node.value = none)
    (otherMember : other ∈ graph.nodes)
    (value : Option NodeId)
    (constrain : Bool) :
    Gains node (nodePattern metadata graph other constrain).1
        (nodePattern metadata (graph.withValue node.id value) (other.rebind node.id value)
          constrain).1 ∧
      (nodePattern metadata graph other constrain).2.1.Sublist
        (nodePattern metadata (graph.withValue node.id value) (other.rebind node.id value)
          constrain).2.1 := by
  by_cases own : other.id = node.id
  · obtain rfl := coherent.eq_of_id_eq otherMember member own
    have free : nodePattern metadata graph other constrain = (labeled other, [], []) := by
      simp [nodePattern, QueryGraph.boundValue?, unbound]
    rw [free]
    exact ⟨gains_nodePattern (labeled_rebind other) constrain, List.nil_sublist _⟩
  · rw [nodePattern_withValue fun same => absurd same own]
    exact ⟨.same _, List.Sublist.refl _⟩

theorem rootFragment_narrows
    (coherent : graph.Coherent)
    {node root : Node}
    (member : node ∈ graph.nodes)
    (unbound : node.value = none)
    (rootMember : root ∈ graph.nodes)
    (value : Option NodeId)
    (constrain : Bool) :
    FragmentNarrows node (rootFragment metadata graph root constrain)
      (rootFragment metadata (graph.withValue node.id value) (root.rebind node.id value)
        constrain) := by
  obtain ⟨gains, more⟩ :=
    nodePattern_narrows metadata coherent member unbound rootMember value constrain
  refine ⟨.node gains, ?_⟩
  simp only [rootFragment, predefined_rebind]
  exact (List.Sublist.refl _).append more

theorem hopFragment_narrows
    (coherent : graph.Coherent)
    {node : Node}
    (member : node ∈ graph.nodes)
    (unbound : node.value = none)
    {hop : Hop}
    (hopMember : hop.target ∈ graph.nodes)
    (value : Option NodeId)
    (direction : Direction)
    (selected : NodeId)
    (constrain : Bool)
    (earlier later : Nat) :
    FragmentNarrows node
      (hopFragment metadata graph direction selected constrain (hop, earlier))
      (hopFragment metadata (graph.withValue node.id value) direction selected constrain
        (hop.rebind node.id value, later)) := by
  obtain ⟨gains, more⟩ := nodePattern_narrows metadata coherent member unbound hopMember value
    (constrain && hop.target.id ≠ selected)
  simp only [hopFragment, linkFragment, Hop.rebind, labeled_rebind, predefined_rebind,
    Node.rebind_id]
  exact ⟨.path gains, (List.Sublist.refl _).append more⟩

/-- The root and hops among others, before a free node is bound, and the root and
all the hops after. -/
theorem fragments_narrow
    (metadata : LabelMetadata)
    (coherent : graph.Coherent)
    {node root : Node}
    (member : node ∈ graph.nodes)
    (unbound : node.value = none)
    (rootMember : root ∈ graph.nodes)
    {links : List LinkId}
    {fewer hops : List Hop}
    (found : links.mapM graph.hop = .ok hops)
    (sublist : fewer.Sublist hops)
    (value : Option NodeId)
    (direction : Direction)
    (selected : NodeId)
    (constrain : Bool) :
    List.SublistForall₂ (FragmentNarrows node)
      (rootFragment metadata graph root constrain ::
        fewer.zipIdx.map (hopFragment metadata graph direction selected constrain))
      (rootFragment metadata (graph.withValue node.id value) (root.rebind node.id value) constrain ::
        (hops.map (Hop.rebind node.id value)).zipIdx.map
          (hopFragment metadata (graph.withValue node.id value) direction selected constrain)) := by
  refine .cons (rootFragment_narrows coherent member unbound rootMember value constrain) ?_
  rw [List.zipIdx_map, List.map_map]
  refine sublistForall₂_map_zipIdx sublist (fun hop hopMember earlier later => ?_) 0 0
  exact hopFragment_narrows coherent member unbound (mem_hops found hopMember).2 value direction
    selected constrain earlier later

theorem matched_narrows
    {node : Node}
    {before after : List Fragment}
    (narrow : List.SublistForall₂ (FragmentNarrows node) before after) :
    List.SublistForall₂ (Narrows node) (before.map Fragment.element)
      (after.map Fragment.element) := by
  induction narrow with
  | nil => exact .nil
  | cons narrows _ inductionHypothesis => exact .cons narrows.element inductionHypothesis
  | cons_right _ inductionHypothesis => exact .cons_right inductionHypothesis

theorem predicates_narrow
    {node : Node}
    {before after : List Fragment}
    (narrow : List.SublistForall₂ (FragmentNarrows node) before after) :
    (before.flatMap Fragment.predicates).Sublist (after.flatMap Fragment.predicates) := by
  induction narrow with
  | nil => exact List.nil_sublist _
  | cons narrows _ inductionHypothesis =>
      rw [List.flatMap_cons, List.flatMap_cons]
      exact narrows.predicates.append inductionHypothesis
  | cons_right _ inductionHypothesis =>
      rw [List.flatMap_cons]
      exact inductionHypothesis.trans (List.sublist_append_right _ _)

/-- The result statement of a root and its hops. -/
theorem resultParts_of_hops
    (context : QueryContext)
    {root : Node}
    (isRoot : context.graph.root = .ok root)
    (found : context.graph.node root.id = .ok root)
    {hops : List Hop}
    (areHops :
      (context.graph.relevantLinks root.id root.id).mapM context.graph.hop = .ok hops) :
    ∃ query, context.resultParts = .ok (root, query) ∧
      query.matched =
        (rootFragment context.metadata context.graph root true ::
          hops.zipIdx.map (hopFragment context.metadata context.graph context.direction root.id
            true)).map Fragment.element ∧
      query.predicates =
        (rootFragment context.metadata context.graph root true ::
          hops.zipIdx.map (hopFragment context.metadata context.graph context.direction root.id
            true)).flatMap Fragment.predicates := by
  have compiled := compileElements_ok context.metadata found areHops context.direction root.id
    true false
  simp only [QueryContext.resultParts, QueryContext.rootElements, isRoot, compile, compiled, bind,
    Except.bind, pure, Except.pure]
  exact ⟨_, rfl, rfl, rfl⟩

/-- When a value is bound to a free node of a tree, the result statement keeps its
elements and its predicates in order. -/
theorem resultParts_narrow
    (tree : graph.Tree)
    {node root : Node}
    (member : node ∈ graph.nodes)
    (unbound : node.value = none)
    {value : NodeId}
    (boundTree : (graph.withValue node.id (some value)).Tree)
    (isRoot : graph.root = .ok root)
    (metadata : LabelMetadata)
    (options : QueryOptions) :
    ∃ query boundQuery,
      QueryContext.resultParts ⟨graph, metadata, options⟩ = .ok (root, query) ∧
      QueryContext.resultParts ⟨graph.withValue node.id (some value), metadata, options⟩ =
        .ok (root.rebind node.id (some value), boundQuery) ∧
      List.SublistForall₂ (Narrows node) query.matched boundQuery.matched ∧
      query.predicates.Sublist boundQuery.predicates := by
  have coherent := tree.toCoherent
  obtain ⟨rootMember, rootKind⟩ := QueryGraph.mem_of_root isRoot
  have found := coherent.node_of_mem rootMember
  have boundIsRoot : (graph.withValue node.id (some value)).root =
      .ok (root.rebind node.id (some value)) := by
    rw [QueryGraph.root_withValue, isRoot]
    rfl
  have sameId : (root.rebind node.id (some value)).id = root.id := Node.rebind_id
  have boundFound : (graph.withValue node.id (some value)).node
      (root.rebind node.id (some value)).id = .ok (root.rebind node.id (some value)) := by
    rw [sameId, QueryGraph.node_withValue, found]
    rfl
  -- The hops before are some of the hops after.
  have more := tree.relevantLinks_sublist boundTree root.id
  rw [← (coherent.id_eq_of_isRoot rootMember rootKind).1] at more
  have known : ∀ id ∈ (graph.withValue node.id (some value)).relevantLinks root.id root.id,
      ∃ link ∈ graph.links, link.id = id := by
    intro id relevant
    obtain ⟨link, linkMember, named⟩ := QueryGraph.exists_link_of_mem_relevantLinks relevant
    exact ⟨link, linkMember, named⟩
  obtain ⟨hops, areHops⟩ := coherent.exists_hops known
  obtain ⟨fewerHops, areFewer, fewer⟩ := QueryGraph.exists_hops_sublist more areHops
  have areBound := QueryGraph.hops_withValue node.id (some value) areHops
  rw [← sameId] at areBound
  obtain ⟨query, built, matched, predicates⟩ :=
    resultParts_of_hops ⟨graph, metadata, options⟩ isRoot found areFewer
  obtain ⟨boundQuery, boundBuilt, boundMatched, boundPredicates⟩ :=
    resultParts_of_hops ⟨graph.withValue node.id (some value), metadata, options⟩ boundIsRoot
      boundFound areBound
  have narrow := fragments_narrow metadata coherent member unbound rootMember areHops fewer
    (some value) (QueryContext.direction ⟨graph, metadata, options⟩) root.id true
  refine ⟨query, boundQuery, built, boundBuilt, ?_, ?_⟩
  · rw [matched, boundMatched, sameId]
    exact matched_narrows narrow
  · rw [predicates, boundPredicates, sameId]
    exact predicates_narrow narrow

end Compiler

namespace GraphEdit

open QueryGraph Compiler

/-- In a graph drawn without bare nodes and links, with metadata without hooks,
binding a listed value to a free node only narrows the result.  The links selected
before are selected after in the same order; the elements matched before are
matched after in the same order, with other numbers of their relationships and
with constraints on the bound node; and the predicates from before stay in
order. -/
theorem bindValue_narrows_result
    (edits : List GraphEdit)
    (drawing : Drawing edits .empty)
    (metadata : LabelMetadata)
    (unhooked : ∀ label, (metadata.resolve label).hooks = {})
    (options : QueryOptions)
    {node value : Node}
    (member : node ∈ (run edits .empty).nodes)
    (unbound : node.value = none)
    (valueMember : value ∈ (run edits .empty).nodes)
    (isValue : value.kind = .value)
    (listed : value.parent = some node.id) :
    ∃ (bound : QueryGraph) (root boundRoot : Node) (query boundQuery : Cypher.Query),
      (run edits .empty).bindValue node.id value.id = .ok bound ∧
      (run edits .empty).root = .ok root ∧ bound.root = .ok boundRoot ∧
      ((run edits .empty).relevantLinks root.id root.id).Sublist
        (bound.relevantLinks boundRoot.id boundRoot.id) ∧
      QueryContext.resultParts ⟨run edits .empty, metadata, options⟩ = .ok (root, query) ∧
      QueryContext.resultQuery ⟨run edits .empty, metadata, options⟩ = .ok query.toStructure ∧
      QueryContext.resultParts ⟨bound, metadata, options⟩ = .ok (boundRoot, boundQuery) ∧
      QueryContext.resultQuery ⟨bound, metadata, options⟩ = .ok boundQuery.toStructure ∧
      List.SublistForall₂ (Narrows node) query.matched boundQuery.matched ∧
      query.predicates.Sublist boundQuery.predicates := by
  have tree : (run edits .empty).Tree := run_tree edits wellFormed_empty tree_empty drawing
  obtain ⟨accepted, boundTree⟩ :=
    tree.bindValue_of_unbound member unbound valueMember isValue listed
  obtain ⟨root, _, isRoot, _, rootId⟩ := tree.toCoherent.root_ok member
  obtain ⟨query, boundQuery, built, boundBuilt, matched, predicates⟩ :=
    resultParts_narrow tree member unbound boundTree isRoot metadata options
  refine ⟨_, root, root.rebind node.id (some value.id), query, boundQuery, accepted, isRoot, ?_, ?_,
    built, ?_, boundBuilt, ?_, matched, predicates⟩
  · rw [root_withValue, isRoot]
    rfl
  · rw [Node.rebind_id, rootId]
    exact tree.relevantLinks_sublist boundTree ⟨0⟩
  · have parts : QueryContext.parts ⟨run edits .empty, metadata, options⟩ .results = _ := built
    exact QueryContext.statement_ok unhooked parts
  · have parts : QueryContext.parts
        ⟨(run edits .empty).withValue node.id (some value.id), metadata, options⟩ .results = _ :=
      boundBuilt
    exact QueryContext.statement_ok unhooked parts

/-- Two branches below a root: a person that nothing is bound to but a value is
listed for, and an account that was made later and is bound. -/
def halfBound : List GraphEdit :=
  [.addRoot "Person",
    .addRelationship ⟨0⟩ "KNOWS" "Person" false,
    .addRelationship ⟨0⟩ "OWNS" "Account" false,
    .addValue ⟨3⟩ [("name", .string "Giro")],
    .bindValue ⟨3⟩ ⟨5⟩,
    .addValue ⟨1⟩ [("name", .string "Ann")]]

theorem bindValue_narrows_halfBound :
    Drawing halfBound .empty ∧
      (∀ label, (LabelRegistry.empty.metadata.resolve label).hooks = {}) ∧
      ∃ node ∈ (run halfBound .empty).nodes, node.value = none ∧
        ∃ value ∈ (run halfBound .empty).nodes,
          value.kind = .value ∧ value.parent = some node.id ∧
          ∃ (bound : QueryGraph) (query boundQuery : Cypher.Query),
            (run halfBound .empty).bindValue node.id value.id = .ok bound ∧
            QueryContext.resultQuery ⟨run halfBound .empty, LabelRegistry.empty.metadata, {}⟩ =
              .ok query.toStructure ∧
            QueryContext.resultQuery ⟨bound, LabelRegistry.empty.metadata, {}⟩ =
              .ok boundQuery.toStructure ∧
            List.SublistForall₂ (Narrows node) query.matched boundQuery.matched ∧
            query.predicates.Sublist boundQuery.predicates := by
  have drawing : Drawing halfBound .empty := by decide +kernel
  obtain ⟨node, member, unbound, value, valueMember, isValue, listed⟩ :
      ∃ node ∈ (run halfBound .empty).nodes, node.value = none ∧
        ∃ value ∈ (run halfBound .empty).nodes,
          value.kind = .value ∧ value.parent = some node.id := by
    decide +kernel
  obtain ⟨bound, _, _, query, boundQuery, accepted, _, _, _, _, before, _, after, matched,
      predicates⟩ :=
    bindValue_narrows_result halfBound drawing LabelRegistry.empty.metadata
      LabelRegistry.hooks_resolve_empty {} member unbound valueMember isValue listed
  exact ⟨drawing, LabelRegistry.hooks_resolve_empty, node, member, unbound, value, valueMember,
    isValue, listed, bound, query, boundQuery, accepted, before, after, matched, predicates⟩

end GraphEdit
end VisualQuery
