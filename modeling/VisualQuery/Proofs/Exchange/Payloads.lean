import VisualQuery.Exchange.Request
import VisualQuery.Exchange.Response
import VisualQuery.Proofs.Exchange.PlainValues
import VisualQuery.Proofs.Json.Ranges

/-!
# Requests and responses are read back

What is left out when a payload is written has the default that is read for it.  So
a request is read back exactly if its parameters are representable, and a response
exactly if its rows are and its graphs are read as they stand, which null is not: a
null graph is read as none.  Whatever was read as a response has these properties.
-/

namespace VisualQuery

open Json

deriving instance DecidableEq for DataEntry, StatementResult, TransactionResponse

/-! ## Requests -/

namespace StatementRequest

/-- The parameters can be held by text. -/
def Representable (request : StatementRequest) : Prop :=
  (PropertyValue.map request.statement.parameters).Representable

theorem ofJson?_toJson_iff (request : StatementRequest) :
    ofJson? request.toJson = some request ↔ request.Representable := by
  obtain ⟨⟨text, parameters⟩, contents⟩ := request
  rw [Representable, ← PropertyValue.row?_toJson_iff]
  cases contents with
  | nil =>
      simp [ofJson?, toJson, record?, required?, defaulted?, member?, str?,
        Option.bind_eq_some_iff]
  | cons wanted others =>
      simp [ofJson?, toJson, record?, required?, defaulted?, member?, str?,
        Option.bind_eq_some_iff]

end StatementRequest

namespace TransactionRequest

/-- The parameters of all statements can be held by text. -/
def Representable (request : TransactionRequest) : Prop :=
  ∀ statement ∈ request.statements, statement.Representable

theorem ofJson?_toJson_iff (request : TransactionRequest) :
    ofJson? request.toJson = some request ↔ request.Representable := by
  obtain ⟨statements⟩ := request
  simp [ofJson?, toJson, record?, required?, member?, list?_map_eq_some_iff,
    Representable, Option.bind_eq_some_iff, StatementRequest.ofJson?_toJson_iff]

end TransactionRequest

/-! ## Responses -/

namespace DataEntry

/-- The values of the row can be held by text, and the graph, if there is one, is a
tree other than null that is read as it stands. -/
def Representable (entry : DataEntry) : Prop :=
  (∀ value ∈ entry.row, value.Representable) ∧
    ∀ graph ∈ entry.graph, graph ≠ .null ∧ graph.isReadable = true ∧ graph.canonical = graph

theorem ofJson?_toJson_iff (entry : DataEntry) :
    ofJson? entry.toJson = some entry ↔ entry.Representable := by
  obtain ⟨row, graph⟩ := entry
  rw [Representable, ← PropertyValue.list?_itemsToJson_iff]
  cases graph with
  | none =>
      simp [ofJson?, toJson, record?, defaulted?, optional?, member?, Option.bind_eq_some_iff]
  | some graph =>
      simp [ofJson?, toJson, record?, defaulted?, member?, optional?_eq_some_iff,
        any?_eq_self_iff, Option.bind_eq_some_iff]

/-- An entry that was read from numbers in range is representable. -/
theorem Representable.of_ofJson?
    {tree : Json}
    {entry : DataEntry}
    (inRange : tree.InRange)
    (read : ofJson? tree = some entry) :
    entry.Representable := by
  obtain ⟨members, isRecord, read⟩ := Option.bind_eq_some_iff.1 read
  obtain ⟨row, rowRead, read⟩ := Option.bind_eq_some_iff.1 read
  obtain ⟨graph, graphRead, read⟩ := Option.bind_eq_some_iff.1 read
  obtain rfl := Option.some.inj read
  constructor
  · refine forall_of_defaulted?_list? (fun tree value inRange read => ?_)
      (inRange.of_record? isRecord) rowRead
    rw [PropertyValue.decode?_eq_ofJson?] at read
    exact .of_ofJson? inRange read
  · rintro held rfl
    obtain ⟨source, _, notNull, sourceRead⟩ := optional?_eq_some_iff.1 graphRead
    refine ⟨?_, any?_eq_self_iff.1 (any?_of_any? sourceRead)⟩
    rintro rfl
    exact notNull (any?_eq_null_iff.1 sourceRead)

end DataEntry

namespace StatementResult

theorem ofJson?_toJson_iff (result : StatementResult) :
    ofJson? result.toJson = some result ↔ ∀ entry ∈ result.data, entry.Representable := by
  obtain ⟨columns, data⟩ := result
  simp [ofJson?, toJson, record?, defaulted?, member?, list?_map_eq_some_iff,
    Option.bind_eq_some_iff, DataEntry.ofJson?_toJson_iff]

theorem representable_of_ofJson?
    {tree : Json}
    {result : StatementResult}
    (inRange : tree.InRange)
    (read : ofJson? tree = some result) :
    ∀ entry ∈ result.data, entry.Representable := by
  obtain ⟨members, isRecord, read⟩ := Option.bind_eq_some_iff.1 read
  obtain ⟨columns, _, read⟩ := Option.bind_eq_some_iff.1 read
  obtain ⟨data, dataRead, read⟩ := Option.bind_eq_some_iff.1 read
  obtain rfl := Option.some.inj read
  exact forall_of_defaulted?_list? (fun _ _ => DataEntry.Representable.of_ofJson?)
    (inRange.of_record? isRecord) dataRead

end StatementResult

theorem ServerError.ofJson?_toJson (error : ServerError) :
    ofJson? error.toJson = some error := by
  simp [ofJson?, toJson, record?, defaulted?, member?, str?]

namespace TransactionResponse

/-- All entries of all results are representable. -/
def Representable (response : TransactionResponse) : Prop :=
  ∀ result ∈ response.results, ∀ entry ∈ result.data, entry.Representable

theorem ofJson?_toJson_iff (response : TransactionResponse) :
    ofJson? response.toJson = some response ↔ response.Representable := by
  obtain ⟨results, errors⟩ := response
  simp [ofJson?, toJson, record?, defaulted?, member?, list?_map_eq_some_iff,
    Option.bind_eq_some_iff, Representable, StatementResult.ofJson?_toJson_iff,
    ServerError.ofJson?_toJson]

/-- A response that was read from numbers in range is representable. -/
theorem Representable.of_ofJson?
    {tree : Json}
    {response : TransactionResponse}
    (inRange : tree.InRange)
    (read : ofJson? tree = some response) :
    response.Representable := by
  obtain ⟨members, isRecord, read⟩ := Option.bind_eq_some_iff.1 read
  obtain ⟨results, resultsRead, read⟩ := Option.bind_eq_some_iff.1 read
  obtain ⟨errors, _, read⟩ := Option.bind_eq_some_iff.1 read
  obtain rfl := Option.some.inj read
  exact forall_of_defaulted?_list? (fun _ _ => StatementResult.representable_of_ofJson?)
    (inRange.of_record? isRecord) resultsRead

end TransactionResponse

/-- A written request is read back exactly if its parameters are representable, and
a written response exactly if its rows are and its graphs are trees other than null
that are read as they stand.  A response that was read from any tree is written and
read back as it was, if the numbers of the tree are in range, and those of every tree
that is read from text are. -/
theorem payloads_readBack :
    (∀ request : TransactionRequest,
        TransactionRequest.ofJson? request.toJson = some request ↔ request.Representable) ∧
      (∀ response : TransactionResponse,
        TransactionResponse.ofJson? response.toJson = some response ↔ response.Representable) ∧
      (∀ (tree : Json) (response : TransactionResponse), tree.InRange →
        TransactionResponse.ofJson? tree = some response →
          TransactionResponse.ofJson? response.toJson = some response) ∧
      ∀ (text : String) (tree : Json), parse? text = some tree → tree.InRange :=
  ⟨TransactionRequest.ofJson?_toJson_iff, TransactionResponse.ofJson?_toJson_iff,
    fun _ response inRange read =>
      (TransactionResponse.ofJson?_toJson_iff response).2 (.of_ofJson? inRange read),
    fun _ _ => InRange.of_parse?⟩

/-- Members out of order and repeated, an integer beyond 63 bits, a null graph, missing
members and a result given by its fields in order. -/
theorem payloads_readBack_untidy :
    let text := "\x7b\"results\":[\x7b\"data\":[" ++
      "\x7b\"graph\":\x7b\"b\":[],\"a\":1,\"a\":null\x7d,\"row\":[18446744073709551615]\x7d," ++
      "\x7b\"graph\":null\x7d]\x7d,[[\"name\"]]]\x7d"
    let entry : Json := .obj [
      ("graph", .obj [("b", .arr []), ("a", .int 1), ("a", .null)]),
      ("row", .arr [.int 18446744073709551615])]
    let tree : Json := .obj [
      ("results", .arr [
        .obj [("data", .arr [entry, .obj [("graph", .null)]])],
        .arr [.arr [.str "name"]]])]
    let held : DataEntry :=
      ⟨[.float ⟨0x43F0000000000000⟩], some (.obj [("a", .null), ("b", .arr [])])⟩
    let response : TransactionResponse := ⟨[⟨[], [held, ⟨[], none⟩]⟩, ⟨["name"], []⟩], []⟩
    parse? text = some tree ∧ TransactionResponse.ofJson? tree = some response ∧
      TransactionResponse.ofJson? response.toJson = some response := by
  intro text entry tree held response
  have parsed : parse? text = some tree := by decide +kernel
  have read : TransactionResponse.ofJson? tree = some response := by decide +kernel
  have inRange : tree.InRange := payloads_readBack.2.2.2 text tree parsed
  exact ⟨parsed, read, payloads_readBack.2.2.1 tree response inRange read⟩

end VisualQuery
