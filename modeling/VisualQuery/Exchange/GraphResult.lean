import VisualQuery.Exchange.Response
import VisualQuery.Json.Printer

/-!
# Results as graphs

The second result of a response holds the matches in graph form.  Each entry
repeats the nodes and relationships it touches; the first of equal identities
is kept, in the order of the response.
-/

namespace VisualQuery

/-- Distinct nodes and relationships of a response. -/
structure GraphResult where
  nodes : List Json
  edges : List Json

namespace GraphResult

/-- The identity of an item: the text of a string, the JSON text of anything
else. -/
def identity? (item : Json) : Option String :=
  (item.get? "id").map fun id =>
    match id with
    | .str text => text
    | other => other.compact

/-- Items with an identity that is not among those seen, each identity once. -/
def distinctFrom (seen : List String) : List Json → List Json
  | [] => []
  | item :: rest =>
    match identity? item with
    | none => distinctFrom seen rest
    | some id =>
      if id ∈ seen then distinctFrom seen rest
      else item :: distinctFrom (id :: seen) rest

/-- The items of a member of a graph; anything but an array holds none. -/
def itemsOf (name : String) (graph : Json) : List Json :=
  match graph.get? name with
  | some (.arr items) => items
  | _ => []

/-- The graphs of the entries of the second result. -/
def graphs (response : TransactionResponse) : List Json :=
  match response.results with
  | _ :: second :: _ => second.data.filterMap DataEntry.graph
  | _ => []

/-- Distinct nodes and relationships of the graph statement of a response. -/
def ofResponse (response : TransactionResponse) : GraphResult where
  nodes := distinctFrom [] ((graphs response).flatMap (itemsOf "nodes"))
  edges := distinctFrom [] ((graphs response).flatMap (itemsOf "relationships"))

end GraphResult
end VisualQuery
