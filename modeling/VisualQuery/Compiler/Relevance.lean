import VisualQuery.Graph.Basic
import VisualQuery.Unvisited

/-!
# Links a statement has to match

A statement matches the links that lead to bound nodes and to its target, and
the links that connect those to the root.  Only relationships take part.  Two
searches climb towards the root: `relevantLinks` consumes a shared pool of
connecting links and prefers the link created last; `linksToRoot` follows the
link created first and reports where it gets stuck.
-/

namespace VisualQuery

/-- Take the last element that satisfies a test out of a list. -/
def extractLast? {α : Type} (test : α → Bool) : List α → Option (α × List α)
  | [] => none
  | head :: tail =>
    match extractLast? test tail with
    | some (found, rest) => some (found, head :: rest)
    | none => if test head then some (head, tail) else none

/-- Extraction shortens a list by one. -/
theorem length_of_extractLast?
    {α : Type}
    {test : α → Bool}
    {items rest : List α}
    {found : α}
    (extracted : extractLast? test items = some (found, rest)) :
    items.length = rest.length + 1 := by
  induction items generalizing found rest with
  | nil => simp [extractLast?] at extracted
  | cons head tail inductionHypothesis =>
      unfold extractLast? at extracted
      split at extracted
      · rename_i inner innerRest innerFound
        simp only [Option.some.injEq, Prod.mk.injEq] at extracted
        obtain ⟨rfl, rfl⟩ := extracted
        simp [inductionHypothesis innerFound]
      · split at extracted
        · simp only [Option.some.injEq, Prod.mk.injEq] at extracted
          obtain ⟨_, rfl⟩ := extracted
          simp
        · simp at extracted

namespace QueryGraph

/-- Climb from a node towards the root along links of a pool.  The result
lists the links crossed and the links left in the pool. -/
def climb (root source : NodeId) (pool : List Link) : List Link × List Link :=
  match _found : extractLast? (fun link => link.target = source) pool with
  | none => ([], pool)
  | some (link, rest) =>
    if link.source = root then ([link], rest)
    else
      let (crossed, left) := climb root link.source rest
      (link :: crossed, left)
termination_by pool.length
decreasing_by
  have shorter := length_of_extractLast? _found
  omega

/-- Whether a link leads to a bound node or to the target of a statement. -/
def isAnchor (target : NodeId) (graph : QueryGraph) (link : Link) : Bool :=
  link.target = target ||
    match graph.node? link.target with
    | some node => node.isBound
    | none => false

/-- Relationship links in creation order. -/
def relations (graph : QueryGraph) : List Link := graph.links.filter Link.isRelation

/-- Climb from the source of every anchor in turn; later climbs find in the
pool what earlier ones left. -/
def climbAll (root : NodeId) (anchors pool : List Link) : List Link × List Link :=
  anchors.foldl
    (fun (crossed, pool) anchor =>
      let (more, left) := climb root anchor.source pool
      (crossed ++ more, left))
    ([], pool)

/-- Links needed to reach every bound node and the target, in creation order. -/
def relevantLinks (root target : NodeId) (graph : QueryGraph) : List LinkId :=
  let anchors := graph.relations.filter (graph.isAnchor target)
  let pool := graph.relations.filter fun link => !graph.isAnchor target link
  let (crossed, _) := climbAll root anchors pool
  let selected := (anchors ++ crossed).map Link.id
  (graph.links.filter fun link => link.id ∈ selected).map Link.id

/-- Targets of all links. -/
def targets (graph : QueryGraph) : List NodeId := graph.links.map Link.target

/-- The relationship link created first among those that enter a node. -/
def entering? (id : NodeId) (graph : QueryGraph) : Option Link :=
  graph.links.find? fun link => link.isRelation && link.target = id

theorem mem_targets_of_entering?
    {graph : QueryGraph}
    {id : NodeId}
    {link : Link}
    (found : graph.entering? id = some link) :
    id ∈ graph.targets := by
  have member := List.mem_of_find?_eq_some found
  have holds := List.find?_some found
  simp only [Bool.and_eq_true, decide_eq_true_eq] at holds
  exact List.mem_map.2 ⟨link, member, holds.2⟩

/-- Follow entering links from a node up to the root. -/
def pathToRoot (root : NodeId) (graph : QueryGraph) (current : NodeId) (seen : List NodeId) :
    Except QueryError (List LinkId) :=
  if current = root then .ok []
  else if _fresh : current ∈ seen then .error (.cyclicGraph current)
  else
    match _found : graph.entering? current with
    | none => .error (.detachedNode current)
    | some link =>
      (pathToRoot root graph link.source (current :: seen)).map (link.id :: ·)
termination_by unvisited seen graph.targets
decreasing_by exact unvisited_cons_lt (mem_targets_of_entering? _found) _fresh

/-- The straight path of relationships from a node up to the root. -/
def linksToRoot (id : NodeId) (graph : QueryGraph) : Except QueryError (List LinkId) := do
  let _ ← graph.node id
  let root ← graph.root
  graph.pathToRoot root.id id []

end QueryGraph
end VisualQuery
