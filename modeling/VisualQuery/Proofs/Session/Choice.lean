import VisualQuery.Proofs.Compiler.Constraint
import VisualQuery.Proofs.Session.Paging

/-!
# A value chosen from a listing

Listing the values of a node, turning pages and selecting one of the values
shown constrains the node by the row that the value was made from.  The names
of attributes hold this together: the listing returns the constraint attribute
under its name, the row is keyed by the columns, and the compiler looks the
attribute up in the chosen value under the same name.
-/

namespace VisualQuery
namespace Session

open Compiler Cypher QueryGraph

variable {session : Session} {owner : Node}

/-- A listing begins for a term that lists values and is not pinned, if no other
one is under way.  All terms stay, and the statement of the request is that of
the term. -/
theorem beginValues_issues
    (drawn : session.graph.Drawn)
    (member : owner ∈ session.graph.nodes)
    (lists : owner.kind.listsValues = true)
    (unpinned : owner.immutable = false)
    (free : session.waiting = false) :
    ∃ request asked target listing,
      Step.perform (beginValues owner.id) session = (.ok (some request), asked) ∧
        request.node = owner.id ∧ asked.pendingValue = some request.token ∧
        asked.metadata = session.metadata ∧ asked.options = session.options ∧
        target ∈ asked.graph.nodes ∧ target.SameTerm owner ∧
        asked.context.valueParts owner.id = .ok (target, listing) ∧
        listing.columns =
          (session.metadata.resolve owner.label).returnAttributes.map Attribute.name ++
            [countColumn] ∧
        request.request =
          ⟨[.rows (asked.context.finish QueryHooks.values (target, listing)).toStatement]⟩ := by
  obtain ⟨graph, collapsed, kept⟩ := collapseAll_keeps drawn
  have collapsedDrawn := Redraws.drawn admits_redrawn.collapseAll drawn collapsed
  obtain ⟨target, targetMember, same⟩ :=
    kept owner member (NodeKind.ne_value_of_listsValues lists)
  let waiting : Session :=
    { session with
      graph, waiting := true, pendingValue := some (session.lastToken + 1)
      lastToken := session.lastToken + 1 }
  obtain ⟨listing, parts, columns⟩ :=
    exists_valueParts waiting.context collapsedDrawn.wellFormed.toCoherent targetMember
  rw [same.id] at parts
  have query : waiting.context.valueQuery owner.id =
      .ok (waiting.context.finish QueryHooks.values (target, listing)) := by
    rw [QueryContext.valueQuery, parts]
    rfl
  have queried : Step.perform (Step.inspect fun session : Session =>
      session.context.valueQuery owner.id) { session with graph } =
        (.ok (waiting.context.finish QueryHooks.values (target, listing)),
          { session with graph }) := by
    rw [Step.perform_inspect]
    exact Prod.ext query rfl
  refine ⟨⟨owner.id, session.lastToken + 1,
      ⟨[.rows (waiting.context.finish QueryHooks.values (target, listing)).toStatement]⟩⟩,
    waiting, target, listing, ?_, rfl, rfl, rfl, rfl, targetMember, same, parts, ?_, rfl⟩
  · rw [perform_beginValues_of_free drawn.wellFormed.toCoherent member lists unpinned free,
      askForValues, Step.perform_bind_ok collapsed, Step.perform_bind_ok queried]
    rfl
  · rw [columns, same.label]
    rfl

/-- A result that answers a listing has its columns, and in every entry a cell
for each of them. -/
structure Answers (listing : Query) (result : StatementResult) : Prop where
  columns : result.columns = listing.columns
  full : ∀ entry ∈ result.data, entry.row.length = result.columns.length

/-- The entries of a result on a page. -/
def entriesOnPage (size page : Nat) (result : StatementResult) : List DataEntry :=
  (result.data.drop ((page - 1) * size)).take size

/-- Selecting a value that was listed for a term is accepted, and the result
statement then constrains the term by the cell of the value's row under the
constraint attribute. -/
theorem selectValue_constrains
    (drawn : session.graph.Drawn)
    (unhooked : ∀ label, (session.metadata.resolve label).hooks = {})
    (member : owner ∈ session.graph.nodes)
    (unpinned : owner.immutable = false)
    {row : Row}
    {id : NodeId}
    (listed : session.graph.Listed owner.id row id)
    {cell : PropertyValue}
    (found :
      KeyedList.lookup? (session.metadata.resolve owner.label).constraintAttribute.name row =
        some cell) :
    ∃ chosen root query,
      Step.perform (selectValue id) session = (.ok owner.id, chosen) ∧
        chosen.metadata = session.metadata ∧
        chosen.context.resultParts = .ok (root, query) ∧
        chosen.context.resultQuery = .ok query.toStructure ∧
        Constrains chosen.context query owner cell := by
  obtain ⟨graph, selected, stillListed, bound, boundMember, same, isBound⟩ :=
    selectValue_binds drawn member unpinned listed
  have chosenDrawn := Redraws.drawn (admits_redrawn.selectValue id) drawn selected
  obtain ⟨value, valueMember, rfl, _, _, rfl, identity⟩ := stillListed
  obtain ⟨root, query, _, built, constrains⟩ := exists_resultParts_constrains
    ({ session with graph } : Session).context chosenDrawn.tree boundMember valueMember isBound
    identity (same.label ▸ found)
  refine ⟨{ session with graph }, root, query, selected, rfl, built, ?_,
    constrains.congr same.id same.label same.var⟩
  have unchanged : (session.metadata.resolve root.label).hooks.result = none := by
    rw [unhooked]
  rw [QueryContext.resultQuery, built]
  show Except.ok (QueryHook.apply (session.metadata.resolve root.label).hooks.result root
    query.toStructure) = _
  rw [unchanged]
  rfl

/-- Selecting a value is accepted, and the result statement then constrains a
term by the cell that an entry has in the column of the constraint attribute. -/
def SelectionConstrains
    (shown : Session)
    (owner : Node)
    (columns : List String)
    (entry : DataEntry)
    (value : NodeId) : Prop :=
  ∃ chosen root query, ∃ index : Nat, ∃ cell,
    Step.perform (selectValue value) shown = (.ok owner.id, chosen) ∧
      chosen.metadata = shown.metadata ∧
      chosen.context.resultParts = .ok (root, query) ∧
      chosen.context.resultQuery = .ok query.toStructure ∧
      columns[index]? =
        some (shown.metadata.resolve owner.label).constraintAttribute.name ∧
      entry.row[index]? = some cell ∧ Constrains chosen.context query owner cell

/-- Only what statements say about a term matters. -/
theorem SelectionConstrains.congr
    {left right : Node}
    {columns : List String}
    {entry : DataEntry}
    {value : NodeId}
    (constrains : SelectionConstrains session left columns entry value)
    (id : left.id = right.id)
    (label : left.label = right.label)
    (var : left.var = right.var) :
    SelectionConstrains session right columns entry value := by
  obtain ⟨chosen, root, query, index, cell, selected, settings, built, statement, at_column,
    at_cell, holds⟩ := constrains
  exact ⟨chosen, root, query, index, cell, id ▸ selected, settings, built, statement,
    label ▸ at_column, at_cell, holds.congr id label var⟩

/-- An entry with a cell for every column has one under the constraint attribute,
so selecting the value made from it constrains the term. -/
theorem selectionConstrains_of_listed
    (drawn : session.graph.Drawn)
    (unhooked : ∀ label, (session.metadata.resolve label).hooks = {})
    (member : owner ∈ session.graph.nodes)
    (unpinned : owner.immutable = false)
    {columns : List String}
    (distinct : columns.Nodup)
    (named : (session.metadata.resolve owner.label).constraintAttribute.name ∈ columns)
    {entry : DataEntry}
    (full : entry.row.length = columns.length)
    {value : NodeId}
    (listed : session.graph.Listed owner.id (StatementResult.rowOf columns entry) value) :
    SelectionConstrains session owner columns entry value := by
  obtain ⟨index, at_column⟩ := List.mem_iff_getElem?.1 named
  have below : index < entry.row.length := by
    rw [full]
    exact (List.getElem?_eq_some_iff.1 at_column).1
  have at_cell := List.getElem?_eq_getElem below
  have found := StatementResult.lookup?_rowOf distinct at_column at_cell
  obtain ⟨chosen, root, query, selected, settings, built, statement, constrains⟩ :=
    selectValue_constrains drawn unhooked member unpinned listed found
  exact ⟨chosen, root, query, index, _, selected, settings, built, statement, at_column, at_cell,
    constrains⟩

/-- The rows that a listing stores are those of the first result. -/
theorem firstRows_eq
    {response : TransactionResponse}
    {result : StatementResult}
    (first : response.results.head? = some result) :
    response.firstRows = result.rows := by
  unfold TransactionResponse.firstRows
  cases results : response.results with
  | nil =>
      rw [results] at first
      cases first
  | cons head rest =>
      rw [results] at first
      injection first with same
      rw [same]

theorem pageRows_onDisplay
    (size page : Nat)
    (owner : Node)
    (result : StatementResult) :
    pageRows size (onDisplay owner result.rows page) =
      (entriesOnPage size page result).map (StatementResult.rowOf result.columns) := by
  simp only [pageRows, onDisplay, entriesOnPage, StatementResult.rows, List.map_drop,
    List.map_take]

/-- The values shown, after any number of presses, are those of the entries on the
page that the presses lead to, and selecting any of them constrains the term by
the cell of its entry. -/
theorem browse_constrains
    (drawn : session.graph.Drawn)
    (unhooked : ∀ label, (session.metadata.resolve label).hooks = {})
    (member : owner ∈ session.graph.nodes)
    (lists : owner.kind.listsValues = true)
    (unpinned : owner.immutable = false)
    {request : ValueRequest}
    (named : request.node = owner.id)
    (pending : session.pendingValue = some request.token)
    {listing : Query}
    (returned : (session.metadata.resolve owner.label).constraintAttribute.name ∈ listing.columns)
    (distinct : listing.columns.Nodup)
    {response : TransactionResponse}
    {result : StatementResult}
    (first : response.results.head? = some result)
    (answers : Answers listing result)
    (presses : Nat) :
    ∃ values shown,
      Step.perform (browse request (.ok response) presses) session = (.ok values, shown) ∧
        shown.metadata = session.metadata ∧
        List.Forall₂ (SelectionConstrains shown owner listing.columns)
          (entriesOnPage session.pageSize
            (pageAfter session.pageSize result.data.length presses) result) values := by
  obtain ⟨values, graph, browsed, shownMember, listed, _⟩ :=
    browse_shows drawn.grown member named pending (Or.inr lists) presses
  have shownDrawn := Redraws.drawn (follows_browse admits_redrawn request (.ok response) presses)
    drawn browsed
  refine ⟨values, _, browsed, rfl, ?_⟩
  rw [firstRows_eq first] at shownMember listed
  rw [pageRows_onDisplay, List.forall₂_map_left_iff, StatementResult.rows, List.length_map,
    answers.columns] at listed
  have within : ∀ entry ∈ entriesOnPage session.pageSize
      (pageAfter session.pageSize result.data.length presses) result, entry ∈ result.data := by
    intro entry entryMember
    exact List.mem_of_mem_drop (List.mem_of_mem_take entryMember)
  refine ((List.forall₂_and_left _ _).2 ⟨within, listed⟩).imp ?_
  rintro entry value ⟨entryMember, isListed⟩
  have full : entry.row.length = listing.columns.length := by
    rw [answers.full entry entryMember, answers.columns]
  exact (selectionConstrains_of_listed shownDrawn unhooked shownMember unpinned distinct returned
    full isListed).congr rfl rfl rfl

/-- In a session over a registry without hooks, whose caller draws and expands
terms only, list the values of a root or an entity term that is not pinned.  The
request is made; whatever response answers its statement, with distinct columns,
and however often the next page is asked for, the values shown are those of the
rows on the page that the presses lead to; and selecting any of them constrains
the term by the cell of its row under the constraint attribute. -/
theorem chosen_row_constrains
    (registry : LabelRegistry)
    (unhooked : ∀ label, (registry.resolve label).hooks = {})
    (options : QueryOptions)
    {calls : List SessionCall}
    (drawing : SessionCall.Drawing calls (.new registry.metadata options))
    (ran : SessionCall.run calls (.new registry.metadata options) = session)
    (member : owner ∈ session.graph.nodes)
    (lists : owner.kind.listsValues = true)
    (unpinned : owner.immutable = false)
    (free : session.waiting = false) :
    ∃ request asked target listing,
      Step.perform (beginValues owner.id) session = (.ok (some request), asked) ∧
        asked.context.valueParts owner.id = .ok (target, listing) ∧
        request.request = ⟨[.rows listing.toStructure.toStatement]⟩ ∧
        listing.columns =
          (registry.resolve owner.label).returnAttributes.map Attribute.name ++ [countColumn] ∧
        ∀ response result,
          response.results.head? = some result → Answers listing result →
            listing.columns.Nodup → ∀ presses,
            ∃ values shown,
              Step.perform (browse request (.ok response) presses) asked = (.ok values, shown) ∧
                shown.metadata = registry.metadata ∧
                List.Forall₂ (SelectionConstrains shown owner listing.columns)
                  (entriesOnPage session.pageSize
                    (pageAfter session.pageSize result.data.length presses) result) values := by
  have settings : session.metadata = registry.metadata := by
    rw [← ran, metadata_run]
    rfl
  have drawn : session.graph.Drawn := by
    rw [← ran]
    exact SessionCall.run_drawn calls
      (show (Session.new registry.metadata options).graph.Drawn from drawn_empty) drawing
  obtain ⟨request, asked, target, listing, begun, named, pending, askedMetadata, askedOptions,
    targetMember, same, parts, columns, posted⟩ :=
    beginValues_issues drawn member lists unpinned free
  have askedDrawn := Redraws.drawn (admits_redrawn.beginValues owner.id) drawn begun
  have metadata : asked.metadata = registry.metadata := askedMetadata.trans settings
  have size : asked.pageSize = session.pageSize := by rw [pageSize, askedOptions, pageSize]
  rw [settings] at columns
  refine ⟨request, asked, target, listing, begun, parts, ?_, columns, ?_⟩
  · have unchanged : (asked.metadata.resolve target.label).hooks.values = none := by
      rw [metadata]
      exact congrArg QueryHooks.values (unhooked target.label)
    rw [posted]
    show TransactionRequest.mk [.rows (QueryHook.apply
      (asked.metadata.resolve target.label).hooks.values target
        listing.toStructure).toStatement] = _
    rw [unchanged]
    rfl
  · intro response result first answers distinct presses
    have unhookedHere : ∀ label, (asked.metadata.resolve label).hooks = {} := by
      rw [metadata]
      exact unhooked
    have returned : (asked.metadata.resolve target.label).constraintAttribute.name ∈
        listing.columns := by
      rw [columns, metadata, same.label]
      exact List.mem_append_left _
        (List.mem_map_of_mem (registry.constraintAttribute_mem owner.label))
    obtain ⟨values, shown, browsed, shownMetadata, selections⟩ :=
      browse_constrains askedDrawn unhookedHere targetMember (same.kind ▸ lists)
        (same.immutable.trans unpinned) (named.trans same.id.symm) pending returned distinct first
        answers presses
    rw [size] at selections
    exact ⟨values, shown, browsed, shownMetadata.trans metadata,
      selections.imp fun _ _ constrains => constrains.congr same.id same.label same.var⟩

/-- A session over the default registry that was started on accounts and shows
one value to a page. -/
def accountsByOne : Session :=
  SessionCall.run [.start "Account"] (.new LabelRegistry.empty.metadata { valuePageSize := 1 })

/-- Two accounts, listed by their identities. -/
def twoAccounts : StatementResult :=
  ⟨[internalIdColumn, countColumn], [⟨[.int 7, .int 2], none⟩, ⟨[.int 8, .int 1], none⟩]⟩

/-- The account on the second page constrains by its own identity. -/
theorem chosen_row_constrains_secondPage :
    ∃ request asked value shown chosen root query,
      Step.perform (beginValues ⟨0⟩) accountsByOne = (.ok (some request), asked) ∧
        Step.perform (browse request (.ok ⟨[twoAccounts], []⟩) 1) asked = (.ok [value], shown) ∧
        Step.perform (selectValue value) shown = (.ok ⟨0⟩, chosen) ∧
        chosen.context.resultParts = .ok (root, query) ∧
        .internalId "account" (some 8) ∈ query.predicates := by
  have member : QueryGraph.empty.freshRoot "Account" ∈ accountsByOne.graph.nodes :=
    List.mem_singleton_self _
  have identity : (LabelRegistry.empty.resolve "Account").constraintAttribute = .internalId := by
    decide +kernel
  have returned : (LabelRegistry.empty.resolve "Account").returnAttributes = [.internalId] := by
    decide +kernel
  obtain ⟨request, asked, target, listing, begun, _, _, columns, general⟩ :=
    chosen_row_constrains LabelRegistry.empty LabelRegistry.hooks_resolve_empty
      { valuePageSize := 1 } (show SessionCall.Drawing [.start "Account"] _ from ⟨trivial, trivial⟩)
      rfl member rfl rfl rfl
  have columns : listing.columns = twoAccounts.columns := by
    rw [columns]
    exact congrArg (List.map Attribute.name · ++ [countColumn]) returned
  have answers : Answers listing twoAccounts := ⟨columns.symm, by decide⟩
  obtain ⟨values, shown, browsed, shownMetadata, selections⟩ :=
    general ⟨[twoAccounts], []⟩ twoAccounts rfl answers (columns ▸ by decide) 1
  -- Of two rows, one to a page, the second page has the last.
  cases selections with
  | cons selection rest =>
  cases rest
  obtain ⟨chosen, root, query, index, cell, selected, chosenMetadata, built, _, at_column,
    at_cell, constrains⟩ := selection
  have at_identity : listing.columns[0]? =
      some (shown.metadata.resolve "Account").constraintAttribute.name := by
    rw [columns, shownMetadata]
    exact congrArg (some ∘ Attribute.name) identity.symm
  have first : 0 = index := (List.getElem?_inj (columns ▸ by decide) (columns ▸ by decide)).1
    (at_identity.trans at_column.symm)
  subst first
  injection at_cell with same
  subst same
  have identityHere : (chosen.context.metadata.resolve "Account").constraintAttribute =
      .internalId := by
    rw [show chosen.context.metadata = _ from chosenMetadata.trans shownMetadata]
    exact identity
  exact ⟨request, asked, _, shown, chosen, root, query, begun, browsed, selected, built,
    constrains.predicate_mem identityHere⟩

/-- An account without an identity. -/
def unidentifiedAccount : StatementResult :=
  ⟨[internalIdColumn, countColumn], [⟨[.null, .int 3], none⟩]⟩

/-- Where the database identity constrains, a cell that is not an integer does not
constrain inline either: the identity is compared with `null`. -/
theorem unidentified_row_constrains_by_null :
    ∃ request asked target listing shown chosen root query,
      Step.perform (beginValues ⟨0⟩) accountsByOne = (.ok (some request), asked) ∧
        asked.context.valueParts ⟨0⟩ = .ok (target, listing) ∧
        Answers listing unidentifiedAccount ∧ listing.columns.Nodup ∧
        Step.perform (browse request (.ok ⟨[unidentifiedAccount], []⟩) 0) asked =
          (.ok [⟨1⟩], shown) ∧
        Step.perform (selectValue ⟨1⟩) shown = (.ok ⟨0⟩, chosen) ∧
        chosen.context.resultParts = .ok (root, query) ∧
        (chosen.metadata.resolve root.label).constraintAttribute = .internalId ∧
        query.predicates = [.internalId root.var none] ∧
        ∀ pattern ∈ nodePatterns query.matched, pattern.constraint = none := by
  refine ⟨_, _, _, _, _, _, _, _, rfl, rfl, ⟨?_, ?_⟩, ?_, rfl, rfl, rfl, ?_, ?_, ?_⟩ <;>
    decide +kernel

end Session
end VisualQuery
