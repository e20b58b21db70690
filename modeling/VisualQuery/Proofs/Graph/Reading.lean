import Mathlib.Data.List.Forall2
import VisualQuery.Proofs.Graph.Acceptance
import VisualQuery.Proofs.Graph.Building

/-!
# Reading a schema back

Reading goes from a term along its relationships, in the order in which they
were made, and notes the description of every term with the nodes and links it
met.  A schema is loaded exactly if no group below its root carries a value, and
then reading from the root gives the schema back and meets the whole graph.
-/

namespace VisualQuery

/-! ## What can be loaded -/

namespace NodeSchema

mutual

/-- All nodes strictly below a schema. -/
def descendants : NodeSchema → List NodeSchema
  | ⟨_, _, _, _, rel⟩ => relationDescendants rel

/-- The nodes at the ends of relationships with all nodes below them. -/
def relationDescendants : List (String × NodeSchema) → List NodeSchema
  | [] => []
  | (_, node) :: rest => node :: descendants node ++ relationDescendants rest

end

/-- A group with a value. -/
def isValuedGroup (node : NodeSchema) : Bool := node.group && node.value.isSome

/-- No node strictly below the top is a group with a value. -/
def Loadable (schema : NodeSchema) : Prop :=
  ∀ node ∈ schema.descendants, node.isValuedGroup = false

instance (schema : NodeSchema) : Decidable schema.Loadable :=
  inferInstanceAs (Decidable (∀ node ∈ schema.descendants, node.isValuedGroup = false))

mutual

/-- What is built of a schema that is refused: everything that stands before the
first group with a value, and that group without it. -/
def loadablePart : NodeSchema → NodeSchema
  | ⟨label, value, immutable, group, rel⟩ =>
    ⟨label, value, immutable, group, loadableRelations rel⟩

/-- What is built of some relationships, of which one is refused. -/
def loadableRelations : List (String × NodeSchema) → List (String × NodeSchema)
  | [] => []
  | (relationship, node) :: rest =>
    if node.isValuedGroup then [(relationship, { label := node.label, group := true })]
    else if node.Loadable then (relationship, node) :: loadableRelations rest
    else [(relationship, loadablePart node)]

end

end NodeSchema

/-! ## Reading -/

/-- What is read off a graph below a term: its description, and the nodes and
links in the order in which they were met. -/
structure Reading where
  schema : NodeSchema
  nodes : List NodeId
  links : List LinkId

namespace QueryGraph

/-- The links that leave a node, in creation order. -/
def linksFrom (id : NodeId) (graph : QueryGraph) : List Link :=
  graph.links.filter fun link => link.source = id

/-- The links by which a node lists the value it is bound to. -/
def bindingLinks (node : Node) (graph : QueryGraph) : List Link :=
  (graph.linksFrom node.id).filter fun link => link.kind = .value && some link.target = node.value

/-- Nodes met below relationships. -/
def branchNodes (branches : List (String × Reading)) : List NodeId :=
  branches.flatMap fun branch => branch.2.nodes

/-- Links met below relationships. -/
def branchLinks (branches : List (String × Reading)) : List LinkId :=
  branches.flatMap fun branch => branch.2.links

/-- What is read at a term whose relationships were read. -/
def readNode (node : Node) (branches : List (String × Reading)) (graph : QueryGraph) :
    Reading where
  schema :=
    { label := node.label
      value := (graph.boundValue? node).map Node.attributes
      immutable := node.immutable
      group := node.kind = .group
      rel := branches.map fun branch => (branch.1, branch.2.schema) }
  nodes := node.id :: ((graph.boundValue? node).map Node.id).toList ++ branchNodes branches
  links := (graph.bindingLinks node).map Link.id ++ branchLinks branches

/-- What is read along a relationship. -/
def readBranch (read : NodeId → Option Reading) (link : Link) : Option (String × Reading) := do
  let label ← link.label
  let below ← read link.target
  pure (label, { below with links := link.id :: below.links })

/-- Read a term with all that is below it, down to some depth. -/
def read (graph : QueryGraph) : Nat → NodeId → Option Reading
  | 0, _ => none
  | depth + 1, id => do
    let node ← graph.node? id
    if node.isValue then none
    else
      let relations := (graph.linksFrom id).filter Link.isRelation
      let branches ← relations.mapM (readBranch (read graph depth))
      pure (graph.readNode node branches)

/-- Read a term with all that is below it.  A walk that repeats no node is no
longer than the graph has nodes. -/
def reading (graph : QueryGraph) (id : NodeId) : Option Reading :=
  graph.read graph.nodes.length id

/-- Reading a list of relationships reads each of them. -/
theorem mapM_eq_some_iff
    {α β : Type}
    {f : α → Option β}
    {items : List α}
    {results : List β} :
    items.mapM f = some results ↔
      List.Forall₂ (fun item result => f item = some result) items results := by
  induction items generalizing results with
  | nil => cases results <;> simp
  | cons item rest inductionHypothesis =>
      rw [List.mapM_cons]
      cases results with
      | nil =>
          cases f item <;> simp
          cases rest.mapM f <;> simp
      | cons result others =>
          rw [List.forall₂_cons, ← inductionHypothesis]
          cases f item with
          | none => simp
          | some first =>
              cases rest.mapM f with
              | none => simp
              | some collected => simp

theorem readBranch_eq_some_iff
    {read : NodeId → Option Reading}
    {link : Link}
    {branch : String × Reading} :
    readBranch read link = some branch ↔
      ∃ label below,
        link.label = some label ∧ read link.target = some below ∧
          branch = (label, { below with links := link.id :: below.links }) := by
  simp only [readBranch, Option.bind_eq_bind, Option.bind_eq_some_iff, Option.pure_def,
    Option.some.injEq]
  constructor
  · rintro ⟨label, labelled, below, seen, rfl⟩
    exact ⟨label, below, labelled, seen, rfl⟩
  · rintro ⟨label, below, labelled, seen, rfl⟩
    exact ⟨label, labelled, below, seen, rfl⟩

/-- A term is read by reading its relationships. -/
theorem read_succ_eq_some_iff
    {graph : QueryGraph}
    {depth : Nat}
    {id : NodeId}
    {reading : Reading} :
    graph.read (depth + 1) id = some reading ↔
      ∃ node branches,
        graph.node? id = some node ∧ node.kind ≠ .value ∧
          List.Forall₂ (fun link branch => readBranch (graph.read depth) link = some branch)
            ((graph.linksFrom id).filter Link.isRelation) branches ∧
          reading = graph.readNode node branches := by
  unfold read
  cases found : graph.node? id with
  | none => simp
  | some node =>
      by_cases isValue : node.kind = .value
      · simp [Node.isValue, isValue]
      · simp only [Option.bind_eq_bind, Option.bind_some, Node.isValue, isValue, decide_false,
          Bool.false_eq_true, if_false, Option.bind_eq_some_iff, mapM_eq_some_iff, Option.pure_def,
          Option.some.injEq]
        constructor
        · rintro ⟨branches, collected, rfl⟩
          exact ⟨node, branches, rfl, isValue, collected, rfl⟩
        · rintro ⟨_, branches, rfl, _, collected, rfl⟩
          exact ⟨branches, collected, rfl⟩

/-- The value bound to a node is found in another graph that holds it too. -/
theorem Coherent.boundValue?_eq
    {before after : QueryGraph}
    (coherent : before.Coherent)
    (afterCoherent : after.Coherent)
    {node : Node}
    (member : node ∈ before.nodes)
    (kept : ∀ value ∈ before.nodes, before.boundValue? node = some value → value ∈ after.nodes) :
    after.boundValue? node = before.boundValue? node := by
  cases bound : node.value with
  | none => simp [boundValue?, bound]
  | some number =>
      obtain ⟨value, valueMember, rfl, _⟩ := coherent.boundBelow node member number bound
      have found : before.boundValue? node = some value := by
        simp [boundValue?, bound, coherent.node?_of_mem valueMember]
      have there := kept value valueMember found
      rw [found]
      simp [boundValue?, bound, afterCoherent.node?_of_mem there]

/-! ## Growing in one place -/

/-- A graph grows at a node: every other node stays as it is, and what is new
leaves that node or a new one. -/
structure GrowsAt (id : NodeId) (before after : QueryGraph) : Prop where
  nodes : ∀ node ∈ before.nodes, node.id ≠ id → node ∈ after.nodes
  ids : ∀ other ∈ before.nodeIds, other ∈ after.nodeIds
  links :
    ∃ made, after.links = before.links ++ made ∧
      ∀ link ∈ made, link.source = id ∨ link.source ∉ before.nodeIds

namespace GrowsAt

variable {id : NodeId} {before between after : QueryGraph}

/-- Growing goes on at the node, or at one that was not there yet. -/
theorem trans
    {other : NodeId}
    (first : GrowsAt id before between)
    (second : GrowsAt other between after)
    (place : other = id ∨ other ∉ before.nodeIds) :
    GrowsAt id before after where
  nodes := by
    intro node member apart
    apply second.nodes node (first.nodes node member apart)
    rintro rfl
    rcases place with same | fresh
    · exact apart same
    · exact fresh (mem_nodeIds.2 ⟨node, member, rfl⟩)
  ids := by
    intro candidate member
    exact second.ids candidate (first.ids candidate member)
  links := by
    obtain ⟨made, links, sources⟩ := first.links
    obtain ⟨later, laterLinks, laterSources⟩ := second.links
    refine ⟨made ++ later, by rw [laterLinks, links, List.append_assoc], ?_⟩
    intro link member
    rcases List.mem_append.1 member with early | late
    · exact sources link early
    · rcases laterSources link late with here | fresh
      · rw [here]
        exact place
      · exact Or.inr fun known => fresh (first.ids _ known)

/-- The links that leave other nodes stay. -/
theorem linksFrom
    (grows : GrowsAt id before after)
    {other : NodeId}
    (member : other ∈ before.nodeIds)
    (apart : other ≠ id) :
    after.linksFrom other = before.linksFrom other := by
  obtain ⟨made, links, sources⟩ := grows.links
  have none : made.filter (fun link => link.source = other) = [] := by
    rw [List.filter_eq_nil_iff]
    intro link linkMember leaves
    have source : link.source = other := by simpa using leaves
    rcases sources link linkMember with here | fresh
    · exact apart (source.symm.trans here)
    · exact fresh (source ▸ member)
  unfold QueryGraph.linksFrom
  rw [links, List.filter_append, none, List.append_nil]

/-- What was read without meeting the node is read again. -/
theorem read
    (grows : GrowsAt id before after)
    (coherent : before.Coherent)
    (afterCoherent : after.Coherent)
    {depth : Nat}
    {top : NodeId}
    {reading : Reading}
    (seen : before.read depth top = some reading)
    (apart : id ∉ reading.nodes) :
    after.read depth top = some reading := by
  induction depth generalizing top reading with
  | zero => simp [QueryGraph.read] at seen
  | succ depth inductionHypothesis =>
      obtain ⟨node, branches, found, isTerm, collected, rfl⟩ := read_succ_eq_some_iff.1 seen
      obtain ⟨member, rfl⟩ := mem_of_node? found
      have here : node.id ≠ id := by
        rintro rfl
        exact apart (by simp [readNode])
      have links := grows.linksFrom (mem_nodeIds.2 ⟨node, member, rfl⟩) here
      have value := coherent.boundValue?_eq afterCoherent member (by
        intro value valueMember bound
        apply grows.nodes value valueMember
        rintro rfl
        exact apart (by simp [readNode, bound]))
      refine read_succ_eq_some_iff.2 ⟨node, branches, ?_, isTerm, ?_, ?_⟩
      · exact afterCoherent.node?_of_mem (grows.nodes node member here)
      · rw [links]
        obtain ⟨lengths, pairs⟩ := List.forall₂_iff_zip.1 collected
        refine List.forall₂_iff_zip.2 ⟨lengths, ?_⟩
        intro link branch paired
        obtain ⟨label, below, labelled, belowSeen, rfl⟩ := readBranch_eq_some_iff.1 (pairs paired)
        have met := (List.of_mem_zip paired).2
        refine readBranch_eq_some_iff.2 ⟨label, below, labelled, ?_, rfl⟩
        apply inductionHypothesis belowSeen
        intro below
        apply apart
        simp only [readNode, branchNodes, List.mem_append, List.mem_flatMap]
        exact Or.inr ⟨_, met, below⟩
      · simp [readNode, value, bindingLinks, links]

end GrowsAt

end QueryGraph
end VisualQuery
