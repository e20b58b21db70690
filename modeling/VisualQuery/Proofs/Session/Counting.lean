import VisualQuery.Proofs.Compiler.Fragments
import VisualQuery.Proofs.Session.Editing

/-!
# Where counts go

A batch asks for the counts of some nodes, and its response answers by position.
However many nodes come and go in between, a node that still bears the number of
one that was asked for is that node, and it gets the count at the position of
its own statement.  Nothing else changes.
-/

namespace VisualQuery
namespace Session

open QueryGraph

variable {session : Session}

/-! ## Reading a response -/

/-- The first cell of the first row of the result at a position holds a number. -/
def HoldsCount (outcome : Outcome) (position : Nat) (number : Int64) : Prop :=
  ∃ response result entry rows cell cells,
    outcome = .ok response ∧ response.results[position]? = some result ∧
      result.data = entry :: rows ∧ entry.row = cell :: cells ∧ cell.asInt? = some number

/-- What is counted at a position: the number held there or zero, whichever is
larger, and zero if no number is held there. -/
structure CountsTo (outcome : Outcome) (position count : Nat) : Prop where
  held : ∀ number, HoldsCount outcome position number → (count : Int) = max 0 number.toInt
  missing : (∀ number, ¬ HoldsCount outcome position number) → count = 0

theorem countAt_countsTo
    (outcome : Outcome)
    (position : Nat) :
    CountsTo outcome position (countAt outcome position) where
  held := by
    rintro number ⟨response, result, entry, rows, cell, cells, rfl, at_position, data, row, held⟩
    simp only [countAt, countOf, at_position, data, row, Option.bind_eq_bind, Option.bind_some,
      List.head?_cons, PropertyValue.asCount?, held, Option.map_some, Option.getD_some]
    omega
  missing := by
    intro none_held
    cases outcome with
    | error failure => rfl
    | ok response =>
        cases at_position : response.results[position]? with
        | none => simp [countAt, countOf, at_position]
        | some result =>
            cases data : result.data with
            | nil => simp [countAt, countOf, at_position, data]
            | cons entry rows =>
                cases row : entry.row with
                | nil => simp [countAt, countOf, at_position, data, row]
                | cons cell cells =>
                    cases held : cell.asInt? with
                    | none =>
                        simp [countAt, countOf, at_position, data, row, PropertyValue.asCount?,
                          held]
                    | some number =>
                        exact absurd ⟨response, result, entry, rows, cell, cells, rfl,
                          at_position, data, row, held⟩ (none_held number)

/-! ## Storing counts -/

/-- A count is stored in each of some different nodes, by its place among them. -/
theorem foldl_setCount_eq_mapNodes
    (counts : Nat → Nat)
    (nodes : List NodeId)
    (distinct : nodes.Nodup)
    (start : Nat)
    (graph : QueryGraph) :
    ∃ change : Node → Node,
      (nodes.zipIdx start).foldl
          (fun graph (id, position) =>
            graph.modifyNode id fun node => { node with count := counts position })
          graph = graph.mapNodes change ∧
        (∀ node, node.id ∉ nodes → change node = node) ∧
        ∀ node position, nodes[position]? = some node.id →
          change node = { node with count := counts (start + position) } := by
  induction nodes generalizing start graph with
  | nil => exact ⟨fun node => node, by simp [mapNodes], by simp, by simp⟩
  | cons id rest inductionHypothesis =>
      obtain ⟨apart, restDistinct⟩ := List.nodup_cons.1 distinct
      -- The node of this position is not marked again later.
      let mark : Node → Node := fun node =>
        if node.id = id then { node with count := counts start } else node
      obtain ⟨change, stored, others, placed⟩ := inductionHypothesis restDistinct (start + 1)
        (graph.modifyNode id fun node => { node with count := counts start })
      refine ⟨fun node => change (mark node), ?_, ?_, ?_⟩
      · rw [List.zipIdx_cons, List.foldl_cons, stored]
        simp [mapNodes, QueryGraph.modifyNode, mark, Function.comp_def]
      · intro node missing
        obtain ⟨other, missingLater⟩ := not_or.1 (mt List.mem_cons.2 missing)
        have unmarked : mark node = node := if_neg other
        exact (congrArg change unmarked).trans (others node missingLater)
      · intro node position at_position
        cases position with
        | zero =>
            have named : node.id = id := by simpa using at_position.symm
            have marked : mark node = { node with count := counts start } := if_pos named
            have stays : change { node with count := counts start } =
                { node with count := counts start } := others _ (named ▸ apart)
            exact (congrArg change marked).trans stays
        | succ position =>
            have later : rest[position]? = some node.id := by simpa using at_position
            have other : node.id ≠ id := by
              intro same
              exact apart (same ▸ List.mem_of_getElem? later)
            have unmarked : mark node = node := if_neg other
            rw [← Nat.succ_add_eq_add_succ]
            exact (congrArg change unmarked).trans (placed node position later)

/-! ## Batches -/

/-- The nodes of a batch are the counted ones, and its statements count them one
by one. -/
theorem beginCounts_statements
    {batch : CountBatch}
    (begun : session.beginCounts = .ok batch) :
    batch.nodes = session.graph.countedNodes ∧
      List.Forall₂
        (fun id statement =>
          ∃ query, session.context.countQuery id = .ok query ∧
            statement = .rows query.toStatement)
        batch.nodes batch.request.statements := by
  unfold beginCounts at begun
  obtain ⟨queries, collected, made⟩ := bind_eq_ok_iff.1 begun
  injection made with same
  subst same
  have pairs := mapM_eq_ok_iff.1 collected
  have asked : List.Forall₂
      (fun id entry => entry.1 = id ∧ session.context.countQuery id = .ok entry.2)
      session.graph.countedNodes queries := by
    apply pairs.imp
    intro id entry counted
    obtain ⟨query, found, paired⟩ := bind_eq_ok_iff.1 counted
    injection paired with same
    subst same
    exact ⟨rfl, found⟩
  have nodes : queries.map Prod.fst = session.graph.countedNodes := by
    rw [← List.forall₂_eq_eq_eq, List.forall₂_map_left_iff]
    exact asked.flip.imp fun entry id paired => paired.1
  refine ⟨nodes, ?_⟩
  show List.Forall₂ _ (queries.map Prod.fst) _
  rw [nodes, List.forall₂_map_right_iff]
  exact asked.imp fun id entry ⟨_, found⟩ => ⟨entry.2, found, rfl⟩

theorem countedNodes_nodup
    {graph : QueryGraph}
    (coherent : graph.Coherent) :
    graph.countedNodes.Nodup :=
  coherent.nodup_nodeIds.sublist (List.filter_sublist.map Node.id)

theorem id_lt_nextId_of_counted
    {graph : QueryGraph}
    (coherent : graph.Coherent)
    {id : NodeId}
    (counted : id ∈ graph.countedNodes) :
    id.value < graph.nextId := by
  obtain ⟨node, filtered, rfl⟩ := List.mem_map.1 counted
  exact coherent.nodesBelow node (List.mem_filter.1 filtered).1

/-! ## Taking the response -/

/-- Whatever is done between a batch and its response, short of starting over:
the response is taken.  A node with a number of the batch is the node that was
asked for, and its count becomes what the response holds at the position of its
statement.  Other nodes, all links and the books of the session stay as they
are. -/
theorem completeCounts_lands
    {metadata : LabelMetadata}
    {options : QueryOptions}
    {earlier later : List SessionCall}
    (editing : SessionCall.Editing earlier (.new metadata options)) :
    let asked := SessionCall.run earlier (.new metadata options)
    let present := SessionCall.run later asked
    ∀ batch : CountBatch, asked.beginCounts = .ok batch →
      SessionCall.CarryingOn later asked → ∀ outcome : Outcome,
        batch.nodes = asked.graph.countedNodes ∧
        List.Forall₂
          (fun id statement =>
            ∃ query, asked.context.countQuery id = .ok query ∧
              statement = .rows query.toStatement)
          batch.nodes batch.request.statements ∧
        (∀ node ∈ present.graph.nodes, node.id ∈ batch.nodes →
          ∃ former ∈ asked.graph.nodes, node.IsStill former) ∧
        ∃ change : Node → Node,
          Step.perform (completeCounts batch outcome) present =
            (.ok (), { present with graph := present.graph.mapNodes change }) ∧
          (∀ node, node.id ∉ batch.nodes → change node = node) ∧
          ∀ node position, batch.nodes[position]? = some node.id →
            ∃ count, CountsTo outcome position count ∧ change node = { node with count } := by
  intro asked present batch begun carryingOn outcome
  obtain ⟨nodes, statements⟩ := beginCounts_statements begun
  have wellFormed : asked.graph.WellFormed :=
    SessionCall.run_wellFormed earlier wellFormed_empty editing
  obtain ⟨_, ages⟩ := SessionCall.run_livesOn later carryingOn wellFormed
  refine ⟨nodes, statements, ?_, ?_⟩
  · intro node member isAsked
    rw [nodes] at isAsked
    exact ages.old node member (id_lt_nextId_of_counted wellFormed.toCoherent isAsked)
  · have current : batch.generation = present.generation :=
      (generation_of_beginCounts begun).trans
        (SessionCall.generation_of_carryingOn later carryingOn).symm
    have distinct : batch.nodes.Nodup := nodes ▸ countedNodes_nodup wellFormed.toCoherent
    obtain ⟨change, stored, others, placed⟩ :=
      foldl_setCount_eq_mapNodes (countAt outcome) batch.nodes distinct 0 present.graph
    refine ⟨change, ?_, others, ?_⟩
    · rw [completeCounts_current current, storeCounts, stored]
    · intro node position at_position
      refine ⟨countAt outcome position, countAt_countsTo outcome position, ?_⟩
      rw [placed node position at_position, Nat.zero_add]

/-- Accounts and their contacts. -/
def accountsAndContacts : List SessionCall :=
  [.start "Account",
    .editGraph (GraphEdit.run [.addRelationship ⟨0⟩ "OWNS" "Contact" false])]

/-- The contacts go, and others come. -/
def exchangeContacts : List SessionCall :=
  [.editGraph (GraphEdit.run
    [.removeNode ⟨1⟩, .addRelationship ⟨0⟩ "KNOWS" "Contact" false])]

/-- A response with a count for accounts and one for contacts. -/
def sevenAndNine : Outcome :=
  .ok ⟨[⟨["count"], [⟨[.int 7], none⟩]⟩, ⟨["count"], [⟨[.int 9], none⟩]⟩], []⟩

/-- The accounts get their count, and the new contacts do not get that of the old
ones. -/
theorem completeCounts_exchangeContacts :
    let asked := SessionCall.run accountsAndContacts (.new Compiler.namedLabels {})
    let present := SessionCall.run exchangeContacts asked
    ∃ batch graph,
      asked.beginCounts = .ok batch ∧ batch.nodes = [⟨0⟩, ⟨1⟩] ∧
        Step.perform (completeCounts batch sevenAndNine) present =
          (.ok (), { present with graph }) ∧
        graph.nodes.map (fun node => (node.id, node.label, node.count)) =
          [(⟨0⟩, "Account", 7), (⟨3⟩, "Contact", 0)] := by
  intro asked present
  have counted : asked.beginCounts.toOption.map CountBatch.nodes = some [⟨0⟩, ⟨1⟩] := by
    decide +kernel
  have walk : asked.graph.reached [⟨1⟩] [] = [⟨1⟩] := by
    have noneBelow : asked.graph.successors ⟨1⟩ ++ [] = [] := by decide +kernel
    rw [reached, dif_pos (by decide +kernel), noneBelow, reached]
  have removed : asked.graph.removeNode ⟨1⟩ = .ok (asked.graph.dropNodes [⟨1⟩]) := by
    rw [← walk]
    rfl
  have left : GraphEdit.apply (.removeNode ⟨1⟩) asked.graph = asked.graph.dropNodes [⟨1⟩] :=
    congrArg Prod.snd (Step.perform_atomicUnit_ok removed)
  have here : present.graph.nodes.map (fun node => (node.id, node.label, node.count)) =
      [(⟨0⟩, "Account", 0), (⟨3⟩, "Contact", 0)] := by
    show (GraphEdit.apply (.addRelationship ⟨0⟩ "KNOWS" "Contact" false)
      (GraphEdit.apply (.removeNode ⟨1⟩) asked.graph)).nodes.map _ = _
    rw [left]
    decide +kernel
  cases begun : asked.beginCounts with
  | error error =>
      rw [begun] at counted
      cases counted
  | ok batch =>
      rw [begun] at counted
      have nodes : batch.nodes = [⟨0⟩, ⟨1⟩] := Option.some.inj counted
      have editing : SessionCall.Editing accountsAndContacts (.new Compiler.namedLabels {}) :=
        ⟨trivial, ⟨_, rfl⟩, trivial⟩
      have carryingOn : SessionCall.CarryingOn exchangeContacts asked :=
        ⟨⟨_, by simp [GraphEdit.restarts], rfl⟩, trivial⟩
      obtain ⟨_, _, _, change, taken, others, placed⟩ :=
        completeCounts_lands editing batch begun carryingOn sevenAndNine
      refine ⟨batch, _, rfl, nodes, taken, ?_⟩
      obtain ⟨accounts, contacts, both⟩ :=
        List.length_eq_two.1 (by simpa using congrArg List.length here)
      rw [both] at here
      simp only [List.map_cons, List.map_nil, List.cons.injEq, Prod.mk.injEq, and_true] at here
      obtain ⟨⟨accountsId, accountsLabel, _⟩, contactsId, contactsLabel, contactsCount⟩ := here
      obtain ⟨count, counts, changed⟩ := placed accounts 0 (by rw [nodes, accountsId]; rfl)
      have seven : (count : Int) = 7 :=
        counts.held 7 ⟨_, _, _, _, _, _, rfl, rfl, rfl, rfl, rfl⟩
      have unchanged : change contacts = contacts :=
        others contacts (by rw [nodes, contactsId]; decide)
      show (present.graph.nodes.map change).map _ = _
      simp only [both, List.map_cons, List.map_nil, changed, unchanged, accountsId, accountsLabel,
        contactsId, contactsLabel, contactsCount, Int.ofNat_inj.1 seven]

end Session
end VisualQuery
