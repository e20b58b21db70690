import VisualQuery.Proofs.Graph.Unlisting
import VisualQuery.Proofs.Session.Drawing
import VisualQuery.Proofs.Session.Handling

/-!
# Pages of values

The rows of a listing are stored with their node and shown page by page, as
values below it.  On a grown graph showing a page is refused only if rows are to
be shown on a node that does not list values.  The values shown are then all
that the node lists, and the node keeps its rows and its binding.  Every press
goes on to the next page, and from the last one back to the first, so the page on
display is known from the number of presses.  Selecting one of the values shown
binds the node to it.
-/

namespace VisualQuery

namespace Session

open QueryGraph

variable {α : Type} {session : Session} {owner : Node}

/-- A step that redraws leaves a drawn graph. -/
theorem Redraws.drawn
    {step : Step Session α}
    (redraws : Redraws step)
    (drawn : session.graph.Drawn)
    {outcome : Except QueryError α}
    {reached : Session}
    (performed : Step.perform step session = (outcome, reached)) :
    reached.graph.Drawn := by
  have redrawn := redraws session
  rw [FollowsFrom, Step.after, performed] at redrawn
  exact redrawn.drawn drawn

/-! ## Collapsing -/

/-- Unlisting the values of a node is accepted, and leaves the node and the value
it is bound to. -/
theorem collapseNode_keeps
    (drawn : session.graph.Drawn)
    (member : owner ∈ session.graph.nodes) :
    ∃ count graph,
      Step.perform (collapseNode owner.id) session = (.ok count, { session with graph }) ∧
        KeepsTerms session.graph graph ∧
        { owner with valueExpanded := false } ∈ graph.nodes ∧
        ∀ value ∈ session.graph.nodes, owner.value = some value.id → value ∈ graph.nodes := by
  cases expanded : owner.valueExpanded with
  | false =>
      refine ⟨0, session.graph, ?_, KeepsTerms.refl _, ?_, fun value valueMember _ => valueMember⟩
      · rw [collapseNode, Step.perform_bind_ok (perform_node drawn.wellFormed.toCoherent member),
          expanded]
        rfl
      · rw [← expanded]
        exact member
  | true =>
      obtain ⟨count, graph, accepted, kept⟩ := drawn.removeValues_keeps member
      exact ⟨count, graph,
        perform_collapseNode drawn.wellFormed.toCoherent member expanded accepted, kept⟩

/-- Unlisting the values of some terms, one after the other. -/
theorem collapseEach_keeps
    (drawn : session.graph.Drawn)
    (ids : List NodeId)
    (terms : ∀ id ∈ ids, session.graph.IsTerm id) :
    ∃ graph,
      Step.perform (collapseEach ids) session = (.ok (), { session with graph }) ∧
        KeepsTerms session.graph graph := by
  induction ids generalizing session with
  | nil => exact ⟨session.graph, rfl, KeepsTerms.refl _⟩
  | cons id rest inductionHypothesis =>
      obtain ⟨node, member, rfl, _⟩ := terms id List.mem_cons_self
      obtain ⟨count, graph, collapsed, kept, _⟩ := collapseNode_keeps drawn member
      have stillTerms : ∀ later ∈ rest, graph.IsTerm later := by
        intro later laterMember
        obtain ⟨other, otherMember, named, otherTerm⟩ :=
          terms later (List.mem_cons_of_mem _ laterMember)
        obtain ⟨same, sameMember, sameTerm⟩ := kept other otherMember otherTerm
        exact ⟨same, sameMember, sameTerm.id.trans named, sameTerm.kind ▸ otherTerm⟩
      obtain ⟨last, others, keptLast⟩ := inductionHypothesis
        (Redraws.drawn (admits_redrawn.collapseNode node.id) drawn collapsed) stillTerms
      refine ⟨last, ?_, kept.trans keptLast⟩
      rw [collapseEach, Step.perform_bind_ok collapsed, others]

theorem collapseAll_keeps
    (drawn : session.graph.Drawn) :
    ∃ graph,
      Step.perform collapseAll session = (.ok (), { session with graph }) ∧
        KeepsTerms session.graph graph := by
  obtain ⟨graph, collapsed, kept⟩ :=
    collapseEach_keeps drawn (expandedNodes session.graph) (by
      intro id listed
      obtain ⟨node, filtered, rfl⟩ := List.mem_map.1 listed
      obtain ⟨member, holds⟩ := List.mem_filter.1 filtered
      simp only [Bool.and_eq_true] at holds
      exact ⟨node, member, rfl, NodeKind.ne_value_of_listsValues holds.1⟩)
  refine ⟨graph, ?_, kept⟩
  rw [collapseAll, Step.perform_bind_ok (Step.perform_state session), collapsed]

/-! ## Showing a page -/

/-- A page is on display below a node: its values, one from each row, are all that
the node lists, and the value that the node is bound to is still there. -/
structure Displays
    (before : QueryGraph)
    (owner : Node)
    (rows : List Row)
    (values : List NodeId)
    (after : QueryGraph) : Prop where
  member : owner ∈ after.nodes
  listed : List.Forall₂ (after.Listed owner.id) rows values
  children : after.children owner.id .value = values
  bound : ∀ value ∈ before.nodes, owner.value = some value.id → value ∈ after.nodes

/-- A step that handles leaves a grown graph. -/
theorem Handling.grown
    {step : Step Session α}
    (handling : Handling step)
    (grown : session.graph.Grown)
    {outcome : Except QueryError α}
    {reached : Session}
    (performed : Step.perform step session = (outcome, reached)) :
    reached.graph.Grown := by
  have handled := handling session grown
  rw [Step.after, performed] at handled
  exact Handled.grown handled grown

/-- Showing the page of a node is accepted, and the node is marked. -/
theorem showPage_shows
    (grown : session.graph.Grown)
    (member : owner ∈ session.graph.nodes)
    (fits : owner.data = [] ∨ owner.kind.listsValues = true) :
    ∃ values graph,
      Step.perform (showPage owner.id) session = (.ok values, { session with graph }) ∧
        Displays session.graph { owner with valueExpanded := true }
          (pageRows session.pageSize owner) values graph := by
  have coherent := grown.toCoherent
  have fitsPage : pageRows session.pageSize owner = [] ∨ owner.kind.listsValues = true :=
    fits.imp_left fun none => by simp [pageRows, none]
  obtain ⟨count, cleared, accepted, clearedMember, shown⟩ := perform_showPage grown member
  rw [if_pos fitsPage] at shown
  obtain ⟨values, performed, listed, children⟩ := shown
  have listedGrown := ((Handles.unlist member accepted).grown grown).withRows clearedMember
    (pageRows session.pageSize owner) fitsPage
  have listedCoherent := listedGrown.toCoherent
  refine ⟨values, _, performed, mem_withShown clearedMember _, ?_, children, ?_⟩
  · apply listed.imp
    rintro row id ⟨value, valueMember, named, isValue, parent, holds⟩
    exact ⟨value, mem_withShown_of_parent listedCoherent valueMember parent, named, isValue,
      parent, holds⟩
  · intro value valueMember bound
    have parent := (coherent.below_of_bound member valueMember bound).2
    have stays := grown.bound_mem_removeValues member accepted valueMember bound
    exact mem_withShown_of_parent listedCoherent (mem_withRows stays _) parent

/-! ## Turning pages -/

/-- How many pages some rows take; one page is there even without rows. -/
def pageCount (size rows : Nat) : Nat := max 1 ((rows + size - 1) / size)

/-- The page on display after some presses. -/
def pageAfter (size rows presses : Nat) : Nat := presses % pageCount size rows + 1

/-- Rows are left behind a page exactly if it is not the last one. -/
theorem lt_pageCount_iff
    {size rows page : Nat}
    (positive : 0 < size)
    (counted : 0 < page) :
    page < pageCount size rows ↔ page * size < rows := by
  have beyond : page < (rows + size - 1) / size ↔ page * size < rows := by
    rw [Nat.lt_iff_add_one_le, Nat.le_div_iff_mul_le positive, Nat.add_one_mul]
    omega
  rw [← beyond]
  unfold pageCount
  omega

/-- One more press shows the page behind the one on display, or the first one. -/
theorem followingPage_pageAfter
    {size presses : Nat}
    (positive : 0 < size)
    {node : Node}
    (page : node.page = pageAfter size node.data.length presses) :
    followingPage size node = pageAfter size node.data.length (presses + 1) := by
  have pages : 0 < pageCount size node.data.length := by
    unfold pageCount
    omega
  have below := Nat.mod_lt presses pages
  have more : presses % pageCount size node.data.length + 1 < pageCount size node.data.length ↔
      (presses % pageCount size node.data.length + 1) * size < node.data.length :=
    lt_pageCount_iff positive (Nat.succ_pos _)
  rw [followingPage, page]
  unfold pageAfter at *
  rw [← Nat.mod_add_mod presses]
  by_cases last : presses % pageCount size node.data.length + 1 < pageCount size node.data.length
  · rw [if_pos (more.1 last), Nat.mod_eq_of_lt last]
  · have equal : presses % pageCount size node.data.length + 1 =
        pageCount size node.data.length := by omega
    rw [if_neg (fun left => last (more.2 left)), equal, Nat.mod_self]

/-- Take the response to a listing, then press for the next page some times. -/
def browse (request : ValueRequest) (outcome : Outcome) : Nat → Step Session (List NodeId)
  | 0 => completeValues request outcome
  | presses + 1 => do
    let _ ← browse request outcome presses
    nextPage request.node

/-- A node whose rows are on display, at some page. -/
def onDisplay (owner : Node) (rows : List Row) (page : Nat) : Node :=
  { owner with data := rows, page, valueExpanded := true }

theorem follows_browse
    {relation : QueryGraph → QueryGraph → Prop}
    [IsPreorder QueryGraph relation]
    (admits : Admits relation)
    (request : ValueRequest)
    (outcome : Outcome)
    (presses : Nat) :
    Follows relation (browse request outcome presses) := by
  induction presses with
  | zero => exact admits.completeValues request outcome
  | succ presses inductionHypothesis =>
      exact inductionHypothesis.bind fun _ => admits.nextPage request.node

/-- A note on a node that leaves its mark alone, and then its page is shown. -/
theorem showPage_noted
    (grown : session.graph.Grown)
    (member : owner ∈ session.graph.nodes)
    (change : NodeNotes → NodeNotes)
    (unmarked : ∀ notes, (change notes).valueExpanded = notes.valueExpanded)
    (fits : (change owner.notes).data = [] ∨ owner.kind.listsValues = true) :
    let noted := owner.withNotes (change owner.notes)
    ∃ values graph,
      Step.perform (modifyNode owner.id (fun node => node.withNotes (change node.notes)) >>=
          fun _ => showPage owner.id) session = (.ok values, { session with graph }) ∧
        Displays session.graph { noted with valueExpanded := true }
          (pageRows session.pageSize noted) values graph := by
  intro noted
  let notedGraph := session.graph.modifyNode owner.id fun node =>
    node.withNotes (change node.notes)
  have notes : Step.perform (modifyNode owner.id fun node => node.withNotes (change node.notes))
      session = (.ok (), { session with graph := notedGraph }) := rfl
  have notedGrown := Handling.grown (admits_tends.note owner.id change unmarked) grown notes
  have notedMember : noted ∈ notedGraph.nodes :=
    mem_modifyNode_self member fun node => node.withNotes (change node.notes)
  obtain ⟨values, graph, shown, displays⟩ := showPage_shows notedGrown notedMember fits
  refine ⟨values, graph, (Step.perform_bind_ok notes).trans shown, { displays with bound := ?_ }⟩
  intro value valueMember bound
  refine displays.bound value (mem_modifyNode.2 ⟨value, valueMember, if_neg ?_⟩) bound
  have parent := (grown.toCoherent.below_of_bound member valueMember bound).2
  exact grown.toCoherent.id_ne_parent valueMember parent

/-- The response to the pending request is taken, and its first page is shown. -/
theorem completeValues_shows
    (grown : session.graph.Grown)
    (member : owner ∈ session.graph.nodes)
    {request : ValueRequest}
    (named : request.node = owner.id)
    (pending : session.pendingValue = some request.token)
    {response : TransactionResponse}
    (fits : response.firstRows = [] ∨ owner.kind.listsValues = true) :
    ∃ values graph,
      Step.perform (completeValues request (.ok response)) session =
          (.ok values, { session with graph, waiting := false, pendingValue := none }) ∧
        Displays session.graph (onDisplay owner response.firstRows 1)
          (pageRows session.pageSize (onDisplay owner response.firstRows 1)) values graph := by
  have settled := perform_settleValueRequest pending
  have settledGrown : ({ session with waiting := false, pendingValue := none } :
      Session).graph.Grown := grown
  have answers : Step.perform (Step.inspect fun _ => answered (.ok response))
      { session with waiting := false, pendingValue := none } =
        (.ok response, { session with waiting := false, pendingValue := none }) :=
    Step.perform_inspect _ _
  obtain ⟨values, graph, shown, displays⟩ := showPage_noted settledGrown member
    (fun notes => { notes with data := response.firstRows, page := 1 }) (fun _ => rfl) fits
  refine ⟨values, graph, ?_, displays⟩
  rw [completeValues, Step.perform_bind_ok settled, Step.perform_bind_ok answers, named,
    Step.perform_bind_ok (perform_node settledGrown.toCoherent member)]
  exact shown

/-- The next page is shown. -/
theorem nextPage_shows
    (grown : session.graph.Grown)
    (member : owner ∈ session.graph.nodes)
    (fits : owner.data = [] ∨ owner.kind.listsValues = true) :
    ∃ values graph,
      Step.perform (nextPage owner.id) session = (.ok values, { session with graph }) ∧
        Displays session.graph
          (onDisplay owner owner.data (followingPage session.pageSize owner))
          (pageRows session.pageSize
            (onDisplay owner owner.data (followingPage session.pageSize owner))) values graph := by
  obtain ⟨values, graph, shown, displays⟩ := showPage_noted grown member
    (fun notes =>
      { notes with
        page := if notes.page * session.pageSize < notes.data.length then notes.page + 1 else 1 })
    (fun _ => rfl) fits
  refine ⟨values, graph, ?_, displays⟩
  rw [nextPage, Step.perform_bind_ok (Step.perform_state session),
    Step.perform_bind_ok (perform_node grown.toCoherent member)]
  exact shown

/-- After any number of presses the node still has the rows of the response, and
the page that the presses lead to is on display. -/
theorem browse_shows
    (grown : session.graph.Grown)
    (member : owner ∈ session.graph.nodes)
    {request : ValueRequest}
    (named : request.node = owner.id)
    (pending : session.pendingValue = some request.token)
    {response : TransactionResponse}
    (fits : response.firstRows = [] ∨ owner.kind.listsValues = true)
    (presses : Nat) :
    let displayed := onDisplay owner response.firstRows
      (pageAfter session.pageSize response.firstRows.length presses)
    ∃ values graph,
      Step.perform (browse request (.ok response) presses) session =
          (.ok values, { session with graph, waiting := false, pendingValue := none }) ∧
        Displays session.graph displayed (pageRows session.pageSize displayed) values graph := by
  intro displayed
  induction presses with
  | zero =>
      have first : pageAfter session.pageSize response.firstRows.length 0 = 1 := by
        simp [pageAfter]
      simp only [displayed, first]
      exact completeValues_shows grown member named pending fits
  | succ presses inductionHypothesis =>
      obtain ⟨before, graph, browsed, shown⟩ := inductionHypothesis
      have shownGrown := Handling.grown (follows_browse admits_tends request (.ok response) presses) grown
        browsed
      obtain ⟨values, next, turned, displays⟩ := nextPage_shows shownGrown shown.member fits
      have page : followingPage session.pageSize
          (onDisplay owner response.firstRows
            (pageAfter session.pageSize response.firstRows.length presses)) =
          pageAfter session.pageSize response.firstRows.length (presses + 1) :=
        followingPage_pageAfter (Nat.lt_of_lt_of_le Nat.zero_lt_one (Nat.le_max_left _ _)) rfl
      refine ⟨values, next, ?_, ?_⟩
      · rw [browse, Step.perform_bind_ok browsed, named]
        exact turned
      · simp only [displayed, ← page]
        exact { displays with
          bound := fun value valueMember bound =>
            displays.bound value (shown.bound value valueMember bound) bound }

/-! ## Selecting -/

/-- Selecting a value listed for a node is accepted: afterwards the node is
bound to the value, which still has its row. -/
theorem selectValue_binds
    (drawn : session.graph.Drawn)
    (member : owner ∈ session.graph.nodes)
    (unpinned : owner.immutable = false)
    {row : Row}
    {id : NodeId}
    (listed : session.graph.Listed owner.id row id) :
    ∃ graph,
      Step.perform (selectValue id) session = (.ok owner.id, { session with graph }) ∧
        graph.Listed owner.id row id ∧
        ∃ bound ∈ graph.nodes, bound.SameTerm owner ∧ bound.value = some id := by
  obtain ⟨value, valueMember, rfl, isValue, parent, holds⟩ := listed
  have coherent := drawn.wellFormed.toCoherent
  have found := perform_listedFor coherent valueMember isValue parent
  obtain ⟨bound, accepted, boundMember, keptValue⟩ :=
    drawn.bindValue_keeps member valueMember isValue parent
  have binds : Step.perform (onGraph (Step.atomicUnit (QueryGraph.bindValue owner.id value.id)))
      session = (.ok (), { session with graph := bound }) := perform_onGraph_unit accepted
  have boundDrawn := Redraws.drawn (follows_bindValue routineIn_redrawn owner.id value.id) drawn
    binds
  obtain ⟨count, graph, collapsed, _, ownerMember, valueKept⟩ :=
    collapseNode_keeps boundDrawn boundMember
  refine ⟨graph, ?_, ⟨value, valueKept value keptValue rfl, rfl, isValue, parent, holds⟩,
    _, ownerMember, ⟨rfl, rfl, rfl, rfl, rfl⟩, rfl⟩
  rw [selectValue, Step.perform_bind_ok found,
    Step.perform_bind_ok (perform_node drawn.wellFormed.toCoherent member)]
  simp only [unpinned, Bool.false_eq_true, if_false]
  rw [Step.perform_bind_ok binds, Step.perform_bind_ok collapsed]
  rfl

end Session
end VisualQuery
