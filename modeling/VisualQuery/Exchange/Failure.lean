/-!
# Failed exchanges

The three ways in which an exchange with the database fails.
-/

namespace VisualQuery

/-- Failure of an exchange with the database. -/
inductive ExchangeFailure where
  /-- The request never produced a response. -/
  | request (reason : String)
  /-- The database rejected a statement. -/
  | server (code message : String)
  /-- The response does not have the expected shape. -/
  | malformed (reason : String)
deriving DecidableEq, Repr

namespace ExchangeFailure

/-- The text shown for a failure. -/
def message : ExchangeFailure → String
  | .request reason => "request failed: " ++ reason
  | .server code message => code ++ ": " ++ message
  | .malformed reason => "malformed response: " ++ reason

end ExchangeFailure
end VisualQuery
