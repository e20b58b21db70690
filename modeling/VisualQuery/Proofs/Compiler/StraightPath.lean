import VisualQuery.Proofs.Compiler.Relevance

/-!
# The straight path on arbitrary graphs

From a node the walk up steps to the source of the relationship created first
among those that enter the node, and stops at the root.  Where edits have drawn
links freely, several relationships may enter a node or none, and the walk may
reach the root, end at a node that nothing enters, or come back to a node it has
left.  The search for the straight path returns in each case, and its answer says
which of them holds.
-/

namespace VisualQuery
namespace QueryGraph

variable {graph : QueryGraph} {root id top : NodeId} {crossed : List Link}

/-! ## The relationship created first -/

/-- A relationship enters a node, and the others that do were created later. -/
structure FirstInto (graph : QueryGraph) (id : NodeId) (link : Link) : Prop where
  member : link ∈ graph.relations
  enters : link.target = id
  first : ∀ other ∈ graph.relations, other.target = id → link.id.value ≤ other.id.value

theorem FirstInto.eq
    (coherent : graph.Coherent)
    {left right : Link}
    (isLeft : graph.FirstInto id left)
    (isRight : graph.FirstInto id right) :
    left = right := by
  have leftFirst := isLeft.first right isRight.member isRight.enters
  have rightFirst := isRight.first left isLeft.member isLeft.enters
  have same : left.id.value = right.id.value := Nat.le_antisymm leftFirst rightFirst
  exact coherent.eq_of_link_id_eq (mem_relations.1 isLeft.member).1
    (mem_relations.1 isRight.member).1 (congrArg LinkId.mk same)

/-- Links stand in the order of their creation, so the search takes the one
created first. -/
theorem Coherent.firstInto_of_entering?
    (coherent : graph.Coherent)
    {link : Link}
    (found : graph.entering? id = some link) :
    graph.FirstInto id link := by
  obtain ⟨holds, before, after, links_eq, passed⟩ := List.find?_eq_some_iff_append.1 found
  simp only [Bool.and_eq_true, decide_eq_true_eq] at holds
  refine ⟨mem_relations.2 ⟨List.mem_of_find?_eq_some found, holds.1⟩, holds.2, ?_⟩
  intro other member enters
  obtain ⟨otherMember, isRelation⟩ := mem_relations.1 member
  have ordered := coherent.linksOrdered
  rw [links_eq] at otherMember ordered
  rcases List.mem_append.1 otherMember with earlier | later
  · have skipped := passed other earlier
    simp [isRelation, enters] at skipped
  · rcases List.mem_cons.1 later with rfl | later
    · exact Nat.le_refl _
    · have orderedAfter := (List.pairwise_append.1 ordered).2.1
      exact Nat.le_of_lt ((List.pairwise_cons.1 orderedAfter).1 other later)

theorem entering?_eq_none_iff :
    graph.entering? id = none ↔ ¬ graph.Entered id := by
  rw [entering?, List.find?_eq_none]
  constructor
  · rintro missing ⟨link, member, isRelation, enters⟩
    exact missing link member (by simp [isRelation, enters])
  · intro unentered link member holds
    simp only [Bool.and_eq_true, decide_eq_true_eq] at holds
    exact unentered ⟨link, member, holds⟩

theorem Coherent.entering?_eq_some_iff
    (coherent : graph.Coherent)
    {link : Link} :
    graph.entering? id = some link ↔ graph.FirstInto id link := by
  constructor
  · exact coherent.firstInto_of_entering?
  · intro first
    cases found : graph.entering? id with
    | none =>
        obtain ⟨member, isRelation⟩ := mem_relations.1 first.member
        exact absurd ⟨link, member, isRelation, first.enters⟩ (entering?_eq_none_iff.1 found)
    | some other => rw [(coherent.firstInto_of_entering? found).eq coherent first]

/-! ## The walk up -/

/-- The walk from a node up to another, with the links crossed in order.  From
each node short of the root it steps to the source of the relationship created
first among those that enter it. -/
inductive Walk (graph : QueryGraph) (root : NodeId) : NodeId → List Link → NodeId → Prop where
  | stay (id : NodeId) : Walk graph root id [] id
  | step {id top : NodeId} {link : Link} {crossed : List Link}
      (short : id ≠ root)
      (first : graph.FirstInto id link)
      (above : Walk graph root link.source crossed top) :
      Walk graph root id (link :: crossed) top

/-- The links crossed join end to end, from the start of the walk to its end. -/
theorem Walk.joined
    (walk : graph.Walk root id crossed top) :
    crossed.map Link.target ++ [top] = id :: crossed.map Link.source := by
  induction walk with
  | stay => rfl
  | step _ first _ inductionHypothesis =>
      rw [List.map_cons, List.cons_append, inductionHypothesis, first.enters, List.map_cons]

theorem Walk.mem_links
    (walk : graph.Walk root id crossed top) :
    ∀ link ∈ crossed, link ∈ graph.links := by
  induction walk with
  | stay => simp
  | step _ first _ inductionHypothesis =>
      rw [List.forall_mem_cons]
      exact ⟨(mem_relations.1 first.member).1, inductionHypothesis⟩

/-- A link crossed starts where another one leads, or at the end of the walk. -/
theorem Walk.source_mem
    (walk : graph.Walk root id crossed top)
    {link : Link}
    (member : link ∈ crossed) :
    link.source = top ∨ ∃ above ∈ crossed, above.target = link.source := by
  have passed : link.source ∈ crossed.map Link.target ++ [top] := by
    rw [walk.joined]
    exact List.mem_cons_of_mem _ (List.mem_map_of_mem member)
  rcases List.mem_append.1 passed with isTarget | isTop
  · exact Or.inr (List.mem_map.1 isTarget)
  · exact Or.inl (List.mem_singleton.1 isTop)

/-- The walk leaves no node but short of the root. -/
theorem Walk.target_ne_root
    (walk : graph.Walk root id crossed top) :
    root ∉ crossed.map Link.target := by
  induction walk with
  | stay => simp
  | step short first _ inductionHypothesis =>
      rw [List.map_cons, List.mem_cons, first.enters, not_or]
      exact ⟨short.symm, inductionHypothesis⟩

/-- A node visited on the way divides the walk in two. -/
theorem Walk.exists_split
    (walk : graph.Walk root id crossed top)
    {visited : NodeId}
    (member : visited ∈ crossed.map Link.target ++ [top]) :
    ∃ before after, graph.Walk root id before visited ∧ graph.Walk root visited after top := by
  induction walk with
  | stay id =>
      rw [List.map_nil, List.nil_append, List.mem_singleton] at member
      subst member
      exact ⟨[], [], .stay _, .stay _⟩
  | @step id top link crossed short first above inductionHypothesis =>
      rw [List.map_cons, List.cons_append, List.mem_cons] at member
      rcases member with rfl | later
      · rw [first.enters]
        exact ⟨[], link :: crossed, .stay _, .step short first above⟩
      · obtain ⟨before, after, below, onwards⟩ := inductionHypothesis later
        exact ⟨link :: before, after, .step short first below, onwards⟩

/-! ## Walks that cannot go on -/

/-- No walk goes on from the root or from a node that no relationship enters. -/
def IsEnd (graph : QueryGraph) (root top : NodeId) : Prop :=
  top = root ∨ ¬ graph.Entered top

theorem IsEnd.eq_nil
    (isEnd : graph.IsEnd root id)
    (walk : graph.Walk root id crossed top) :
    crossed = [] := by
  cases walk with
  | stay => rfl
  | step short first _ =>
      rcases isEnd with isRoot | unentered
      · exact absurd isRoot short
      · obtain ⟨member, isRelation⟩ := mem_relations.1 first.member
        exact absurd ⟨_, member, isRelation, first.enters⟩ unentered

/-- Every walk from a node is the beginning of the one that cannot go on. -/
theorem Walk.exists_append
    (coherent : graph.Coherent)
    {whole : List Link}
    {final : NodeId}
    (complete : graph.Walk root id whole final)
    (isEnd : graph.IsEnd root final)
    (walk : graph.Walk root id crossed top) :
    ∃ rest, whole = crossed ++ rest ∧ graph.Walk root top rest final := by
  induction walk generalizing whole with
  | stay => exact ⟨whole, rfl, complete⟩
  | step short first _ inductionHypothesis =>
      cases complete with
      | stay => exact absurd (isEnd.eq_nil (.step short first (.stay _))) (by simp)
      | step _ again above =>
          obtain rfl := first.eq coherent again
          obtain ⟨rest, rfl, onwards⟩ := inductionHypothesis above
          exact ⟨rest, rfl, onwards⟩

/-- A walk that cannot go on starts at no circle: it would begin with the
circle and go on from where it started, again and again. -/
theorem Walk.circle_eq_nil
    (coherent : graph.Coherent)
    (walk : graph.Walk root id crossed top)
    (isEnd : graph.IsEnd root top)
    {circle : List Link}
    (turns : graph.Walk root id circle id) :
    circle = [] := by
  induction number : crossed.length using Nat.strongRecOn generalizing crossed with
  | _ length inductionHypothesis =>
      obtain ⟨rest, rfl, onwards⟩ := walk.exists_append coherent isEnd turns
      by_contra notEmpty
      have shorter : rest.length < length := by
        have positive := List.length_pos_iff.2 notEmpty
        rw [← number, List.length_append]
        omega
      exact notEmpty (inductionHypothesis rest.length shorter onwards rfl)

/-- A walk that cannot go on has visited no node twice. -/
theorem Walk.nodup
    (coherent : graph.Coherent)
    (walk : graph.Walk root id crossed top)
    (isEnd : graph.IsEnd root top) :
    (crossed.map Link.target ++ [top]).Nodup := by
  induction walk with
  | stay => simp
  | @step id top link crossed short first above inductionHypothesis =>
      rw [List.map_cons, List.cons_append, List.nodup_cons, first.enters]
      refine ⟨?_, inductionHypothesis isEnd⟩
      intro again
      obtain ⟨before, _, below, _⟩ := above.exists_split again
      have circle := Walk.circle_eq_nil coherent (.step short first above) isEnd
        (.step short first below)
      cases circle

/-! ## The search -/

/-- The search follows a walk past nodes it has not seen. -/
theorem Walk.pathToRoot_eq
    (coherent : graph.Coherent)
    (walk : graph.Walk root id crossed top)
    {seen : List NodeId}
    (distinct : (crossed.map Link.target).Nodup)
    (unseen : ∀ passed ∈ crossed.map Link.target, passed ∉ seen) :
    graph.pathToRoot root id seen =
      (graph.pathToRoot root top ((crossed.map Link.target).reverse ++ seen)).map
        (crossed.map Link.id ++ ·) := by
  induction walk generalizing seen with
  | stay id =>
      show graph.pathToRoot root id seen = (graph.pathToRoot root id seen).map fun path => path
      cases graph.pathToRoot root id seen <;> rfl
  | @step id top link crossed short first above inductionHypothesis =>
      rw [List.map_cons, first.enters, List.nodup_cons] at distinct
      rw [List.map_cons, first.enters, List.forall_mem_cons] at unseen
      have unseenAbove : ∀ passed ∈ crossed.map Link.target, passed ∉ id :: seen := by
        intro passed member isSeen
        rcases List.mem_cons.1 isSeen with rfl | earlier
        · exact distinct.1 member
        · exact unseen.2 passed member earlier
      have found := coherent.entering?_eq_some_iff.2 first
      rw [pathToRoot_of_entering short unseen.1 found,
        inductionHypothesis distinct.2 unseenAbove]
      simp only [List.map_cons, List.reverse_cons, List.append_assoc, List.singleton_append,
        first.enters]
      cases graph.pathToRoot root top ((crossed.map Link.target).reverse ++ id :: seen) <;> rfl

/-- From every node there is a walk to an end, or back to a node visited. -/
theorem Coherent.exists_walk
    (coherent : graph.Coherent)
    (root id : NodeId)
    (seen : List NodeId) :
    ∃ crossed top, graph.Walk root id crossed top ∧ (crossed.map Link.target).Nodup ∧
      (∀ passed ∈ crossed.map Link.target, passed ∉ seen) ∧
        (graph.IsEnd root top ∨ top ∈ crossed.map Link.target ++ seen) := by
  induction id, seen using pathToRoot.induct root graph with
  | case1 seen => exact ⟨[], root, .stay _, by simp, by simp, Or.inl (Or.inl rfl)⟩
  | case2 id seen _ isSeen => exact ⟨[], id, .stay _, by simp, by simp, Or.inr isSeen⟩
  | case3 id seen _ _ missing =>
      exact ⟨[], id, .stay _, by simp, by simp, Or.inl (Or.inr (entering?_eq_none_iff.1 missing))⟩
  | case4 id seen short fresh link found inductionHypothesis =>
      obtain ⟨crossed, top, above, distinct, unseen, ending⟩ := inductionHypothesis
      have first := coherent.firstInto_of_entering? found
      refine ⟨link :: crossed, top, .step short first above, ?_, ?_, ?_⟩
      · rw [List.map_cons, List.nodup_cons, first.enters]
        exact ⟨fun again => unseen id again List.mem_cons_self, distinct⟩
      · rw [List.map_cons, List.forall_mem_cons, first.enters]
        exact ⟨fresh, fun passed member isSeen =>
          unseen passed member (List.mem_cons_of_mem _ isSeen)⟩
      · rcases ending with isEnd | again
        · exact Or.inl isEnd
        · rw [List.map_cons, List.cons_append, first.enters]
          exact Or.inr (List.perm_middle.mem_iff.1 again)

/-- A walk that reaches the root is the path found. -/
theorem Walk.pathToRoot_of_root
    (coherent : graph.Coherent)
    (walk : graph.Walk root id crossed root) :
    graph.pathToRoot root id [] = .ok (crossed.map Link.id) := by
  have distinct := walk.nodup coherent (Or.inl rfl)
  rw [walk.pathToRoot_eq coherent (List.nodup_append.1 distinct).1 (by simp), pathToRoot,
    if_pos rfl]
  simp [Except.map]

/-- A walk that stops short of the root is reported with the node it stops at. -/
theorem Walk.pathToRoot_of_unentered
    (coherent : graph.Coherent)
    (walk : graph.Walk root id crossed top)
    (short : top ≠ root)
    (unentered : ¬ graph.Entered top) :
    graph.pathToRoot root id [] = .error (.detachedNode top) := by
  have distinct := List.nodup_append.1 (walk.nodup coherent (Or.inr unentered))
  have fresh : top ∉ (crossed.map Link.target).reverse ++ [] := by
    rw [List.append_nil, List.mem_reverse]
    intro passed
    exact distinct.2.2 top passed top (List.mem_singleton_self _) rfl
  rw [walk.pathToRoot_eq coherent distinct.1 (by simp), pathToRoot, if_neg short, dif_neg fresh]
  have missing := entering?_eq_none_iff.2 unentered
  split
  · rfl
  · rename_i found
    rw [missing] at found
    cases found

/-- A walk that comes back is reported with the first node visited again. -/
theorem Walk.pathToRoot_of_again
    (coherent : graph.Coherent)
    (walk : graph.Walk root id crossed top)
    (distinct : (crossed.map Link.target).Nodup)
    (again : top ∈ crossed.map Link.target) :
    graph.pathToRoot root id [] = .error (.cyclicGraph top) := by
  have short : top ≠ root := fun isRoot => walk.target_ne_root (isRoot ▸ again)
  have seen : top ∈ (crossed.map Link.target).reverse ++ [] := by
    rw [List.append_nil, List.mem_reverse]
    exact again
  rw [walk.pathToRoot_eq coherent distinct (by simp), pathToRoot, if_neg short, dif_pos seen]
  rfl

/-- What the walk from a node comes to, and the answer that reports it. -/
inductive Outcome (graph : QueryGraph) (root id : NodeId) :
    Except QueryError (List LinkId) → Prop where
  | reaches {crossed : List Link}
      (walk : graph.Walk root id crossed root) :
      Outcome graph root id (.ok (crossed.map Link.id))
  | stops {crossed : List Link} {top : NodeId}
      (walk : graph.Walk root id crossed top)
      (short : top ≠ root)
      (unentered : ¬ graph.Entered top) :
      Outcome graph root id (.error (.detachedNode top))
  | returns {crossed : List Link} {top : NodeId}
      (walk : graph.Walk root id crossed top)
      (distinct : (crossed.map Link.target).Nodup)
      (again : top ∈ crossed.map Link.target) :
      Outcome graph root id (.error (.cyclicGraph top))

theorem Coherent.exists_outcome
    (coherent : graph.Coherent)
    (root id : NodeId) :
    ∃ answer, graph.Outcome root id answer := by
  obtain ⟨crossed, top, walk, distinct, _, isEnd | again⟩ := coherent.exists_walk root id []
  · by_cases isRoot : top = root
    · exact ⟨_, .reaches (isRoot ▸ walk)⟩
    · exact ⟨_, .stops walk isRoot (isEnd.resolve_left isRoot)⟩
  · rw [List.append_nil] at again
    exact ⟨_, .returns walk distinct again⟩

/-- The search for the straight path answers with what the walk comes to. -/
theorem Coherent.linksToRoot_eq_iff
    (coherent : graph.Coherent)
    {node root : Node}
    (member : node ∈ graph.nodes)
    (isRoot : graph.root = .ok root)
    {answer : Except QueryError (List LinkId)} :
    graph.linksToRoot node.id = answer ↔ graph.Outcome root.id node.id answer := by
  have search : graph.linksToRoot node.id = graph.pathToRoot root.id node.id [] := by
    simp only [linksToRoot, coherent.node_of_mem member, isRoot, bind, Except.bind]
  have reported : ∀ {answer}, graph.Outcome root.id node.id answer →
      graph.linksToRoot node.id = answer := by
    intro answer outcome
    rw [search]
    cases outcome with
    | reaches walk => exact walk.pathToRoot_of_root coherent
    | stops walk short unentered => exact walk.pathToRoot_of_unentered coherent short unentered
    | returns walk distinct again => exact walk.pathToRoot_of_again coherent distinct again
  constructor
  · rintro rfl
    obtain ⟨answer, outcome⟩ := coherent.exists_outcome root.id node.id
    exact reported outcome ▸ outcome
  · exact reported

/-- A path found is that of a walk to the root. -/
theorem Coherent.exists_walk_of_linksToRoot
    (coherent : graph.Coherent)
    {root : Node}
    (isRoot : graph.root = .ok root)
    {path : List LinkId}
    (found : graph.linksToRoot id = .ok path) :
    ∃ crossed, graph.Walk root.id id crossed root.id ∧ path = crossed.map Link.id := by
  cases lookup : graph.node id with
  | error failure =>
      rw [linksToRoot, lookup] at found
      cases found
  | ok node =>
      obtain ⟨member, rfl⟩ := mem_of_node lookup
      cases (coherent.linksToRoot_eq_iff member isRoot).1 found with
      | reaches walk => exact ⟨_, walk, rfl⟩

end QueryGraph

namespace GraphEdit

open QueryGraph

/-- Whatever edits built a graph, and whatever its links look like, the search for
the straight path from a node returns one of three answers.  It returns the
links that the walk crosses exactly if the walk reaches the root; these join the
node to the root end to end and pass no node twice.  It reports a detached node
exactly if the walk stops there short of the root, since no relationship enters
the node, and a cycle exactly at the first node that the walk visits again. -/
theorem linksToRoot_reports_walk
    (edits : List GraphEdit)
    {node : Node}
    (member : node ∈ (run edits .empty).nodes) :
    ∃ root,
      (run edits .empty).root = .ok root ∧
      (∀ path,
        (run edits .empty).linksToRoot node.id = .ok path ↔
          ∃ crossed, (run edits .empty).Walk root.id node.id crossed root.id ∧
            path = crossed.map Link.id) ∧
      (∀ crossed,
        (run edits .empty).Walk root.id node.id crossed root.id →
          crossed.map Link.target ++ [root.id] = node.id :: crossed.map Link.source ∧
            (crossed.map Link.target ++ [root.id]).Nodup) ∧
      (run edits .empty).linksToRoot root.id = .ok [] ∧
      (∀ stuck,
        (run edits .empty).linksToRoot node.id = .error (.detachedNode stuck) ↔
          stuck ≠ root.id ∧ ¬ (run edits .empty).Entered stuck ∧
            ∃ crossed, (run edits .empty).Walk root.id node.id crossed stuck) ∧
      (∀ again,
        (run edits .empty).linksToRoot node.id = .error (.cyclicGraph again) ↔
          again ≠ root.id ∧
            ∃ crossed, (run edits .empty).Walk root.id node.id crossed again ∧
              (crossed.map Link.target).Nodup ∧ again ∈ crossed.map Link.target) ∧
      ((∃ path, (run edits .empty).linksToRoot node.id = .ok path) ∨
        (∃ stuck, (run edits .empty).linksToRoot node.id = .error (.detachedNode stuck)) ∨
        ∃ again, (run edits .empty).linksToRoot node.id = .error (.cyclicGraph again)) := by
  have coherent := (run_wellFormed edits).toCoherent
  obtain ⟨root, rootMember, isRoot, _⟩ := coherent.root_ok member
  have reports : ∀ answer, (run edits .empty).linksToRoot node.id = answer ↔
      (run edits .empty).Outcome root.id node.id answer :=
    fun _ => coherent.linksToRoot_eq_iff member isRoot
  refine ⟨root, isRoot, ?_, ?_, ?_, ?_, ?_, ?_⟩
  · intro path
    rw [reports]
    constructor
    · intro outcome
      cases outcome with
      | reaches walk => exact ⟨_, walk, rfl⟩
    · rintro ⟨crossed, walk, rfl⟩
      exact .reaches walk
  · intro crossed walk
    exact ⟨walk.joined, walk.nodup coherent (Or.inl rfl)⟩
  · exact (coherent.linksToRoot_eq_iff rootMember isRoot).2 (.reaches (.stay _))
  · intro stuck
    rw [reports]
    constructor
    · intro outcome
      cases outcome with
      | stops walk short unentered => exact ⟨short, unentered, _, walk⟩
    · rintro ⟨short, unentered, crossed, walk⟩
      exact .stops walk short unentered
  · intro again
    rw [reports]
    constructor
    · intro outcome
      cases outcome with
      | returns walk distinct visited =>
          have short : again ≠ root.id := fun same => walk.target_ne_root (same ▸ visited)
          exact ⟨short, _, walk, distinct, visited⟩
    · rintro ⟨_, crossed, walk, distinct, visited⟩
      exact .returns walk distinct visited
  · obtain ⟨answer, outcome⟩ := coherent.exists_outcome root.id node.id
    have answered := (reports answer).2 outcome
    cases outcome with
    | reaches => exact Or.inl ⟨_, answered⟩
    | stops => exact Or.inr (Or.inl ⟨_, answered⟩)
    | returns => exact Or.inr (Or.inr ⟨_, answered⟩)

/-- Two terms that lead to each other, a third below them, and a link from the
root to the third that was created last. -/
def lasso : List GraphEdit :=
  [.addRoot "Person",
    .addNode ⟨0⟩ "Account" false,
    .addNode ⟨0⟩ "Invoice" false,
    .addNode ⟨0⟩ "Bank" false,
    .addLink ⟨2⟩ ⟨1⟩ .relation (some "PAID"),
    .addLink ⟨3⟩ ⟨2⟩ .relation (some "HOLDS"),
    .addLink ⟨2⟩ ⟨3⟩ .relation (some "HELD_BY"),
    .addLink ⟨0⟩ ⟨1⟩ .relation (some "OWNS")]

theorem linksToRoot_lasso :
    ∃ node ∈ (run lasso .empty).nodes, node.id = ⟨1⟩ ∧
      (run lasso .empty).linksToRoot node.id = .error (.cyclicGraph ⟨2⟩) := by
  obtain ⟨node, member, named⟩ : ∃ node ∈ (run lasso .empty).nodes, node.id = ⟨1⟩ := by decide
  refine ⟨node, member, named, ?_⟩
  obtain ⟨root, isRoot, _, _, _, _, cyclic, _⟩ := linksToRoot_reports_walk lasso member
  obtain ⟨first, _, isFirst, _, firstId⟩ := (run_wellFormed lasso).toCoherent.root_ok member
  rw [isRoot] at isFirst
  injection isFirst with same
  rw [cyclic, same, firstId, named]
  refine ⟨by decide, [⟨⟨4⟩, .relation, ⟨2⟩, ⟨1⟩, some "PAID"⟩,
    ⟨⟨5⟩, .relation, ⟨3⟩, ⟨2⟩, some "HOLDS"⟩, ⟨⟨6⟩, .relation, ⟨2⟩, ⟨3⟩, some "HELD_BY"⟩],
    ?_, by decide, by decide⟩
  refine .step (by decide) ⟨by decide, rfl, by decide⟩ ?_
  refine .step (by decide) ⟨by decide, rfl, by decide⟩ ?_
  exact .step (by decide) ⟨by decide, rfl, by decide⟩ (.stay _)

end GraphEdit
end VisualQuery
