import Mathlib.Data.List.Forall2
import VisualQuery.Proofs.Compiler.Elements

/-!
# Statements hop by hop

Compiling looks up the root, and for every link the link itself and its two
ends.  It succeeds exactly if they all exist, and then the match clause holds
the pattern of the root and, link by link, the patterns of source and target.
-/

namespace VisualQuery

/-- Two parts succeed together if each succeeds. -/
theorem bind_eq_ok_iff
    {α β ε : Type}
    {first : Except ε α}
    {next : α → Except ε β}
    {result : β} :
    first >>= next = .ok result ↔ ∃ answer, first = .ok answer ∧ next answer = .ok result := by
  cases first <;> simp [bind, Except.bind]

/-- A walk succeeds with results that belong to the items one by one. -/
theorem mapM_eq_ok_iff
    {α β ε : Type}
    {f : α → Except ε β}
    {items : List α}
    {results : List β} :
    items.mapM f = .ok results ↔
      List.Forall₂ (fun item result => f item = .ok result) items results := by
  induction items generalizing results with
  | nil => cases results <;> simp [pure, Except.pure]
  | cons item rest inductionHypothesis =>
      rw [List.mapM_cons]
      cases results with
      | nil =>
          cases f item <;> simp [bind, Except.bind]
          cases rest.mapM f <;> simp [pure, Except.pure]
      | cons result others =>
          rw [List.forall₂_cons, ← inductionHypothesis]
          cases f item with
          | error failure => simp [bind, Except.bind]
          | ok first =>
              cases rest.mapM f with
              | error failure => simp [bind, Except.bind]
              | ok collected => simp [bind, Except.bind, pure, Except.pure]

/-- A link with its two ends. -/
structure Hop where
  link : Link
  source : Node
  target : Node

namespace QueryGraph

/-- Look up a link and its ends. -/
def hop (graph : QueryGraph) (id : LinkId) : Except QueryError Hop := do
  let link ← graph.link id
  let source ← graph.node link.source
  let target ← graph.node link.target
  pure ⟨link, source, target⟩

/-- In a coherent graph every link has its ends. -/
theorem Coherent.hop_of_mem
    {graph : QueryGraph}
    (coherent : graph.Coherent)
    {link : Link}
    (member : link ∈ graph.links) :
    ∃ source ∈ graph.nodes, ∃ target ∈ graph.nodes,
      source.id = link.source ∧ target.id = link.target ∧
        graph.hop link.id = .ok ⟨link, source, target⟩ := by
  obtain ⟨sourceKnown, targetKnown⟩ := coherent.linkEnds link member
  obtain ⟨source, sourceMember, sourceNamed⟩ := mem_nodeIds.1 sourceKnown
  obtain ⟨target, targetMember, targetNamed⟩ := mem_nodeIds.1 targetKnown
  refine ⟨source, sourceMember, target, targetMember, sourceNamed, targetNamed, ?_⟩
  have foundSource := coherent.node_of_mem sourceMember
  have foundTarget := coherent.node_of_mem targetMember
  rw [sourceNamed] at foundSource
  rw [targetNamed] at foundTarget
  simp only [hop, coherent.link_of_mem member, foundSource, foundTarget, bind, Except.bind, pure,
    Except.pure]

theorem Coherent.exists_hops
    {graph : QueryGraph}
    (coherent : graph.Coherent)
    {links : List LinkId}
    (known : ∀ id ∈ links, ∃ link ∈ graph.links, link.id = id) :
    ∃ hops, links.mapM graph.hop = .ok hops := by
  have succeeds : ∀ id ∈ links, ∃ hop, graph.hop id = .ok hop := by
    intro id member
    obtain ⟨link, linkMember, rfl⟩ := known id member
    obtain ⟨source, _, target, _, _, _, found⟩ := coherent.hop_of_mem linkMember
    exact ⟨_, found⟩
  obtain ⟨hops, collected, _⟩ := exists_mapM_ok links succeeds
  exact ⟨hops, collected⟩

theorem hop_ok
    {graph : QueryGraph}
    {id : LinkId}
    {found : Hop}
    (accepted : graph.hop id = .ok found) :
    found.link ∈ graph.links ∧ found.source ∈ graph.nodes ∧ found.target ∈ graph.nodes ∧
      found.link.id = id ∧ found.source.id = found.link.source ∧
        found.target.id = found.link.target := by
  simp only [hop, bind_eq_ok_iff, pure, Except.pure, Except.ok.injEq] at accepted
  obtain ⟨link, foundLink, source, foundSource, target, foundTarget, rfl⟩ := accepted
  obtain ⟨linkMember, named⟩ := mem_of_link foundLink
  obtain ⟨sourceMember, sourceNamed⟩ := mem_of_node foundSource
  obtain ⟨targetMember, targetNamed⟩ := mem_of_node foundTarget
  exact ⟨linkMember, sourceMember, targetMember, named, sourceNamed, targetNamed⟩

/-- The hop at a position belongs to the link at that position. -/
theorem hop_at
    {graph : QueryGraph}
    {links : List LinkId}
    {hops : List Hop}
    (found : links.mapM graph.hop = .ok hops)
    {index : Nat}
    {hop : Hop}
    (position : hops[index]? = some hop) :
    links[index]? = some hop.link.id ∧ hop.link ∈ graph.links ∧
      hop.source ∈ graph.nodes ∧ hop.target ∈ graph.nodes ∧
      hop.source.id = hop.link.source ∧ hop.target.id = hop.link.target := by
  obtain ⟨below, rfl⟩ := List.getElem?_eq_some_iff.1 position
  have pairs := mapM_eq_ok_iff.1 found
  have linkBelow : index < links.length := pairs.length_eq ▸ below
  have accepted := (List.forall₂_iff_get.1 pairs).2 index linkBelow below
  obtain ⟨linkMember, source, target, named, sourceNamed, targetNamed⟩ := hop_ok accepted
  refine ⟨List.getElem?_eq_some_iff.2 ⟨linkBelow, ?_⟩, linkMember, source, target, sourceNamed,
    targetNamed⟩
  exact named.symm

theorem exists_hop_at
    {graph : QueryGraph}
    {links : List LinkId}
    {hops : List Hop}
    (found : links.mapM graph.hop = .ok hops)
    {id : LinkId}
    (member : id ∈ links) :
    ∃ (index : Nat) (hop : Hop), hops[index]? = some hop ∧ hop.link.id = id := by
  obtain ⟨index, below, rfl⟩ := List.mem_iff_getElem.1 member
  have pairs := mapM_eq_ok_iff.1 found
  have hopBelow : index < hops.length := pairs.length_eq ▸ below
  have accepted := (List.forall₂_iff_get.1 pairs).2 index below hopBelow
  exact ⟨index, hops[index], List.getElem?_eq_getElem hopBelow, (hop_ok accepted).2.2.2.1⟩

end QueryGraph

namespace Cypher

/-- The node patterns of an element of the match clause. -/
def MatchElement.patterns : MatchElement → List NodePattern
  | .node pattern => [pattern]
  | .path source _ target => [source, target]

/-- The node patterns of a match clause, in the order in which they are
written. -/
def nodePatterns (matched : List MatchElement) : List NodePattern :=
  matched.flatMap MatchElement.patterns

end Cypher

namespace Compiler

open Cypher

variable {metadata : LabelMetadata} {graph : QueryGraph}

/-- What a hop contributes at a position. -/
def hopFragment
    (metadata : LabelMetadata)
    (graph : QueryGraph)
    (direction : Direction)
    (selected : NodeId)
    (constrain : Bool)
    (entry : Hop × Nat) : Fragment :=
  linkFragment metadata graph direction entry.2 entry.1.link entry.1.source entry.1.target
    (constrain && entry.1.target.id ≠ selected)

theorem fragmentAt_eq
    (direction : Direction)
    (selected : NodeId)
    (constrain : Bool)
    (entry : LinkId × Nat) :
    fragmentAt metadata graph direction selected constrain entry =
      graph.hop entry.1 >>= fun hop =>
        pure (hopFragment metadata graph direction selected constrain (hop, entry.2)) := by
  simp only [fragmentAt, QueryGraph.hop, hopFragment, bind_assoc, pure_bind]

/-- The fragments of a list of links are those of its hops. -/
theorem mapM_fragmentAt
    (direction : Direction)
    (selected : NodeId)
    (constrain : Bool)
    (links : List LinkId)
    (start : Nat) :
    (links.zipIdx start).mapM (fragmentAt metadata graph direction selected constrain) =
      links.mapM graph.hop >>= fun hops =>
        pure ((hops.zipIdx start).map
          (hopFragment metadata graph direction selected constrain)) := by
  induction links generalizing start with
  | nil => rfl
  | cons id rest inductionHypothesis =>
      simp only [List.zipIdx_cons, List.mapM_cons, inductionHypothesis, fragmentAt_eq, bind_assoc,
        pure_bind, List.map_cons]

/-- What the hops contribute to a part of a statement, whatever their positions. -/
theorem flatMap_hops
    {α : Type}
    {direction : Direction}
    {selected : NodeId}
    {constrain : Bool}
    (part : Fragment → List α)
    (ofHop : Hop → List α)
    (contributes :
      ∀ hop index,
        part (hopFragment metadata graph direction selected constrain (hop, index)) = ofHop hop)
    (hops : List Hop)
    (start : Nat) :
    ((hops.zipIdx start).map
        (hopFragment metadata graph direction selected constrain)).flatMap part =
      hops.flatMap ofHop := by
  induction hops generalizing start with
  | nil => rfl
  | cons hop rest inductionHypothesis =>
      rw [List.zipIdx_cons, List.map_cons, List.flatMap_cons, inductionHypothesis, contributes,
        List.flatMap_cons]

/-- Compiling is a lookup of the root and of the hops. -/
theorem compileElements_hops
    (direction : Direction)
    (root selected : NodeId)
    (links : List LinkId)
    (constraintNeeded excludeRoot : Bool) :
    compileElements metadata graph direction root selected links constraintNeeded excludeRoot =
      graph.node root >>= fun rootNode =>
        links.mapM graph.hop >>= fun hops =>
          pure (.ofFragments
            (rootFragment metadata graph rootNode
              ((constraintNeeded || rootNode.immutable) && !excludeRoot))
            (hops.zipIdx.map (hopFragment metadata graph direction selected
              (constraintNeeded || rootNode.immutable)))) := by
  simp only [compileElements_eq, mapM_fragmentAt, bind_assoc, pure_bind]

/-- Whatever the flags, compiling known links below a known root succeeds. -/
theorem compileElements_ok
    (metadata : LabelMetadata)
    {root : Node}
    (isRoot : graph.node root.id = .ok root)
    {links : List LinkId}
    {hops : List Hop}
    (found : links.mapM graph.hop = .ok hops)
    (direction : Direction)
    (selected : NodeId)
    (constraintNeeded excludeRoot : Bool) :
    compileElements metadata graph direction root.id selected links constraintNeeded excludeRoot =
      .ok (.ofFragments
        (rootFragment metadata graph root
          ((constraintNeeded || root.immutable) && !excludeRoot))
        (hops.zipIdx.map (hopFragment metadata graph direction selected
          (constraintNeeded || root.immutable)))) := by
  rw [compileElements_hops, isRoot, found]
  rfl

/-- Compiling succeeds only if root and hops are there. -/
theorem exists_of_compileElements_ok
    {direction : Direction}
    {root selected : NodeId}
    {links : List LinkId}
    {constraintNeeded excludeRoot : Bool}
    {elements : QueryElements}
    (compiled :
      compileElements metadata graph direction root selected links constraintNeeded excludeRoot =
        .ok elements) :
    ∃ rootNode hops,
      graph.node root = .ok rootNode ∧ links.mapM graph.hop = .ok hops ∧
        elements =
          .ofFragments
            (rootFragment metadata graph rootNode
              ((constraintNeeded || rootNode.immutable) && !excludeRoot))
            (hops.zipIdx.map (hopFragment metadata graph direction selected
              (constraintNeeded || rootNode.immutable))) := by
  simp only [compileElements_hops, bind_eq_ok_iff, pure, Except.pure, Except.ok.injEq] at compiled
  obtain ⟨rootNode, isRoot, hops, found, rfl⟩ := compiled
  exact ⟨rootNode, hops, isRoot, found, rfl⟩

end Compiler
end VisualQuery
