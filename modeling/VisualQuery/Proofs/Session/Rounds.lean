import VisualQuery.Proofs.Session.Paging

/-!
# Rounds of pages

Every completed listing is shown page by page, over and over.  Each press shows
the next page, whatever was bound to the node before stays bound, and a round of
presses that starts at any page shows every row once: those from that page on,
and then those before it.
-/

namespace VisualQuery
namespace Session

open QueryGraph

variable {session : Session} {rows : List Row}

/-! ## Rows by page -/

/-- The rows on a page; pages are counted from 1, and the last one may be short. -/
def rowsOnPage (size : Nat) (rows : List Row) (page : Nat) : List Row :=
  rows.extract ((page - 1) * size) (min rows.length (page * size))

theorem rowsOnPage_succ
    (size : Nat)
    (rows : List Row)
    (before : Nat) :
    rowsOnPage size rows (before + 1) = (rows.drop (before * size)).take size := by
  rw [rowsOnPage, List.extract_eq_take_drop, Nat.add_sub_cancel, List.take_eq_take_iff,
    List.length_drop, Nat.add_one_mul]
  omega

/-- The page that a node shows has the rows on it. -/
theorem pageRows_eq_rowsOnPage
    (size : Nat)
    {node : Node}
    (counted : 0 < node.page) :
    pageRows size node = rowsOnPage size node.data node.page := by
  obtain ⟨before, isPage⟩ := Nat.exists_eq_add_one_of_ne_zero (Nat.ne_of_gt counted)
  rw [pageRows, isPage, rowsOnPage_succ, Nat.add_sub_cancel]

/-- Consecutive pages hold consecutive rows. -/
theorem flatMap_rowsOnPage
    (size : Nat)
    (rows : List Row)
    (before count : Nat) :
    (List.range count).flatMap (fun turn => rowsOnPage size rows (before + turn + 1)) =
      (rows.drop (before * size)).take (count * size) := by
  induction count with
  | zero => simp
  | succ count inductionHypothesis =>
      rw [List.range_succ, List.flatMap_append, inductionHypothesis, List.flatMap_singleton,
        rowsOnPage_succ, Nat.add_one_mul, List.take_add, List.drop_drop, Nat.add_mul]

theorem pageCount_pos (size rows : Nat) : 0 < pageCount size rows :=
  Nat.lt_of_lt_of_le Nat.zero_lt_one (Nat.le_max_left _ _)

/-- No row is left behind the last page. -/
theorem length_le_pageCount_mul
    {size : Nat}
    (positive : 0 < size)
    (rows : Nat) :
    rows ≤ pageCount size rows * size := by
  refine Nat.le_of_not_lt fun left => ?_
  exact Nat.lt_irrefl _ ((lt_pageCount_iff positive (pageCount_pos size rows)).2 left)

/-- A round shows the rows from its first page on, and then those before it. -/
theorem flatMap_round
    {size : Nat}
    (positive : 0 < size)
    (rows : List Row)
    (start : Nat) :
    (List.range (pageCount size rows.length)).flatMap
        (fun turn => rowsOnPage size rows (pageAfter size rows.length (start + turn))) =
      rows.drop (start % pageCount size rows.length * size) ++
        rows.take (start % pageCount size rows.length * size) := by
  have pagesPositive := pageCount_pos size rows.length
  have enough := length_le_pageCount_mul positive rows.length
  simp only [pageAfter]
  generalize pageCount size rows.length = pages at *
  obtain ⟨rest, split⟩ := Nat.exists_eq_add_of_le (Nat.le_of_lt (Nat.mod_lt start pagesPositive))
  generalize phase : start % pages = first at *
  have positiveRest : 0 < rest := by
    have below := Nat.mod_lt start pagesPositive
    omega
  -- Up to the last page the presses go on, and then they start from the first one.
  have goesOn : ∀ turn ∈ List.range rest, (start + turn) % pages = first + turn := by
    intro turn member
    have before := List.mem_range.1 member
    rw [← Nat.mod_add_mod, phase, Nat.mod_eq_of_lt (by omega)]
  have startsOver : ∀ turn ∈ List.range first, (start + (rest + turn)) % pages = 0 + turn := by
    intro turn member
    have before := List.mem_range.1 member
    rw [← Nat.mod_add_mod, phase, show first + (rest + turn) = turn + pages by omega,
      Nat.add_mod_right, Nat.mod_eq_of_lt (by omega), Nat.zero_add]
  have tail : (List.range rest).flatMap
        (fun turn => rowsOnPage size rows ((start + turn) % pages + 1)) =
      rows.drop (first * size) := by
    rw [List.flatMap_congr fun turn member => by rw [goesOn turn member],
      flatMap_rowsOnPage, List.take_of_length_le]
    rw [List.length_drop, Nat.sub_le_iff_le_add, Nat.add_comm, ← Nat.add_mul, ← split]
    exact enough
  have head : (List.range first).flatMap
        (fun turn => rowsOnPage size rows ((start + (rest + turn)) % pages + 1)) =
      rows.take (first * size) := by
    rw [List.flatMap_congr fun turn member => by rw [startsOver turn member],
      flatMap_rowsOnPage, Nat.zero_mul, List.drop_zero]
  rw [split, Nat.add_comm first rest, List.range_add, List.flatMap_append, List.flatMap_map,
    Nat.add_comm rest first, ← split, tail, head]

/-- The positions that are computed for a page are among the machine words if twice
the number of rows is: a list in memory has at most half as many items as there
are words. -/
theorem pageAfter_mul_lt
    {size rows words : Nat}
    (sizeFits : size < words)
    (rowsFit : 2 * rows < words)
    (presses : Nat) :
    pageAfter size rows presses * size < words := by
  have within : pageAfter size rows presses ≤ pageCount size rows :=
    Nat.mod_lt presses (pageCount_pos size rows)
  refine Nat.lt_of_le_of_lt (Nat.mul_le_mul_right size within) ?_
  have whole := Nat.div_mul_le_self (rows + size - 1) size
  unfold pageCount
  rcases Nat.lt_or_ge 1 ((rows + size - 1) / size) with many | one
  · have larger : 2 * size ≤ (rows + size - 1) / size * size := Nat.mul_le_mul_right size many
    rw [Nat.max_eq_right (Nat.le_of_lt many)]
    omega
  · rw [Nat.max_eq_left one, Nat.one_mul]
    exact sizeFits

/-! ## Completed listings -/

/-- A page is shown only on a node that lists values, unless it has no rows. -/
theorem fits_of_showPage
    (grown : session.graph.Grown)
    {owner : Node}
    (member : owner ∈ session.graph.nodes)
    {values : List NodeId}
    {reached : Session}
    (shown : Step.perform (showPage owner.id) session = (.ok values, reached)) :
    pageRows session.pageSize owner = [] ∨ owner.kind.listsValues = true := by
  obtain ⟨_, _, _, _, performed⟩ := perform_showPage grown member
  by_contra unfit
  rw [if_neg unfit, shown] at performed
  cases congrArg Prod.fst performed

/-- Only the pending listing is completed, by a response, and only on a node that
lists values unless there are no rows. -/
theorem completeValues_ok
    (grown : session.graph.Grown)
    {request : ValueRequest}
    {outcome : Outcome}
    {values : List NodeId}
    {listed : Session}
    (completed : Step.perform (completeValues request outcome) session = (.ok values, listed)) :
    session.pendingValue = some request.token ∧
      ∃ response, outcome = .ok response ∧
        ∃ owner ∈ session.graph.nodes,
          owner.id = request.node ∧
            (response.firstRows = [] ∨ owner.kind.listsValues = true) := by
  have pending : session.pendingValue = some request.token := by
    by_contra stale
    rw [completeValues_stale stale outcome] at completed
    cases congrArg Prod.fst completed
  refine ⟨pending, ?_⟩
  rw [completeValues, Step.perform_bind_ok (perform_settleValueRequest pending)] at completed
  obtain ⟨response, _, inspected, completed⟩ := Step.perform_bind_eq_ok completed
  rw [Step.perform_inspect] at inspected
  obtain ⟨answers, rfl⟩ := Prod.mk.inj inspected
  cases outcome with
  | error failure => cases answers
  | ok answer =>
      obtain rfl : answer = response := Except.ok.inj answers
      obtain ⟨owner, _, looked, completed⟩ := Step.perform_bind_eq_ok completed
      rw [perform_inspectGraph] at looked
      obtain ⟨found, rfl⟩ := Prod.mk.inj looked
      obtain ⟨member, named⟩ := mem_of_node found
      refine ⟨answer, rfl, owner, member, named, ?_⟩
      obtain ⟨_, noted, notes, shown⟩ := Step.perform_bind_eq_ok completed
      let change (notes : NodeNotes) : NodeNotes :=
        { notes with data := answer.firstRows, page := 1 }
      obtain rfl : { session with
          waiting := false, pendingValue := none,
          graph := session.graph.modifyNode request.node fun node =>
            node.withNotes (change node.notes) } = noted := (Prod.mk.inj notes).2
      have notedGrown := grown.modifyNode_of_value request.node (Node.InPlace.note change)
        fun _ => rfl
      have notedMember := mem_modifyNode_self member fun node => node.withNotes (change node.notes)
      rw [← named] at shown notedGrown
      have fits := @fits_of_showPage _ notedGrown (owner.withNotes (change owner.notes)) notedMember
        _ _ shown
      refine fits.imp_left fun none => ?_
      have positive : session.pageSize ≠ 0 :=
        Nat.ne_of_gt (Nat.lt_of_lt_of_le Nat.zero_lt_one (Nat.le_max_left _ _))
      simpa [pageRows, change, Node.withNotes, positive, pageSize] using none

/-- In a session whose caller makes plain edits only, complete a listing and press
for the next page any number of times.  Each press is accepted.  The page is
known from the number of presses, the node lists exactly the values that were
returned, one from each row of the page, and it is bound as before.  A round of
presses shows every row once, and no position computed on the way leaves the
range of machine words. -/
theorem listing_pages
    {metadata : LabelMetadata}
    {options : QueryOptions}
    {calls : List SessionCall}
    (plainly : SessionCall.Plainly calls (.new metadata options))
    {request : ValueRequest}
    {outcome : Outcome}
    {first : List NodeId}
    {listed : Session}
    (completed :
      Step.perform (completeValues request outcome)
        (SessionCall.run calls (.new metadata options)) = (.ok first, listed)) :
    let session := SessionCall.run calls (.new metadata options)
    let size := max 1 options.valuePageSize
    ∃ response, outcome = .ok response ∧
      ∃ owner ∈ session.graph.nodes, owner.id = request.node ∧
        let rows := response.firstRows
        let page (presses : Nat) : Nat := pageAfter size rows.length presses
        (∀ presses, ∃ values shown,
          Step.perform (browse request outcome presses) session = (.ok values, shown) ∧
            Displays session.graph (onDisplay owner rows (page presses))
              (rowsOnPage size rows (page presses)) values shown.graph) ∧
        (∀ start,
          let before := start % pageCount size rows.length * size
          (List.range (pageCount size rows.length)).flatMap
              (fun turn => rowsOnPage size rows (page (start + turn))) =
            rows.drop before ++ rows.take before) ∧
        ∀ words, size < words → 2 * rows.length < words →
          ∀ presses, (page presses - 1) * size < words ∧ page presses * size < words := by
  intro session size
  have grown : session.graph.Grown :=
    SessionCall.run_grown calls (show (Session.new metadata options).graph.Grown from grown_empty)
      plainly
  have pages : session.pageSize = size := by
    rw [pageSize, (traced_run calls (.new metadata options)).settings_eq.2]
    rfl
  obtain ⟨pending, response, rfl, owner, member, named, fits⟩ := completeValues_ok grown completed
  refine ⟨response, rfl, owner, member, named, ?_, ?_, ?_⟩
  · intro presses
    obtain ⟨values, graph, browsed, displays⟩ :=
      browse_shows grown member named.symm pending fits presses
    rw [pageRows_eq_rowsOnPage _ (Nat.succ_pos _), pages] at displays
    exact ⟨values, _, browsed, displays⟩
  · intro start before
    exact flatMap_round (Nat.lt_of_lt_of_le Nat.zero_lt_one (Nat.le_max_left _ _)) _ start
  · intro words sizeFits rowsFit presses
    have fitsWord := pageAfter_mul_lt sizeFits rowsFit presses
    exact ⟨Nat.lt_of_le_of_lt (Nat.mul_le_mul_right size (Nat.sub_le _ 1)) fitsWord, fitsWord⟩

/-- A session that was started on accounts, shows two values to a page and has
asked for the accounts. -/
def askingForAccounts : List SessionCall := [.start "Account", .beginValues ⟨0⟩]

/-- Three accounts, listed by their identities. -/
def threeAccounts : TransactionResponse :=
  ⟨[⟨[internalIdColumn], [⟨[.int 7], none⟩, ⟨[.int 8], none⟩, ⟨[.int 9], none⟩]⟩], []⟩

/-- The second page has the last account, and it is shown at every second press. -/
theorem listing_pages_threeAccounts :
    let session := SessionCall.run askingForAccounts (.new Compiler.namedLabels { valuePageSize := 2 })
    ∃ value shown,
      Step.perform (browse ⟨⟨0⟩, 1, ⟨[]⟩⟩ (.ok threeAccounts) 3) session = (.ok [value], shown) ∧
        shown.graph.children ⟨0⟩ .value = [value] ∧
        shown.graph.Listed ⟨0⟩ [(internalIdColumn, .int 9)] value := by
  intro session
  have plainly : SessionCall.Plainly askingForAccounts
      (.new Compiler.namedLabels { valuePageSize := 2 }) := ⟨trivial, trivial, trivial⟩
  have accepted : (Step.perform (completeValues ⟨⟨0⟩, 1, ⟨[]⟩⟩ (.ok threeAccounts))
      session).1.toBool = true := by decide +kernel
  rcases completed : Step.perform (completeValues ⟨⟨0⟩, 1, ⟨[]⟩⟩ (.ok threeAccounts)) session with
    ⟨error | first, listed⟩
  · rw [completed] at accepted
    cases accepted
  obtain ⟨response, same, owner, _, named, pressed, _⟩ := listing_pages plainly completed
  injection same with same
  subst same
  obtain ⟨values, shown, browsed, displays⟩ := pressed 3
  have listed : List.Forall₂ (shown.graph.Listed owner.id) [[(internalIdColumn, .int 9)]] values :=
    displays.listed
  have children : shown.graph.children owner.id .value = values := displays.children
  rw [named] at listed children
  cases listed with
  | cons isListed none =>
      cases none
      exact ⟨_, shown, browsed, children, isListed⟩

end Session
end VisualQuery
