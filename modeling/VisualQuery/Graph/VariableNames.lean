import VisualQuery.KeyedList
import VisualQuery.Text.Lowercase

/-!
# Query variables

Every term of a query needs a variable.  Its name comes from the label of the
term: in lower case and without blanks, with a number behind it from the
second use on.  Counters only grow, so the name of a removed term is not
handed out again before a reset.
-/

namespace VisualQuery

/-- How often each normalized label has been used again. -/
structure VariableNames where
  counters : KeyedList Nat := []
deriving DecidableEq, Repr, Inhabited

namespace VariableNames

/-- A label in lower case without blanks, `n` if nothing remains. -/
def normalize (label : String) : String :=
  match (label.toList.filter (· ≠ ' ')).flatMap lowercase with
  | [] => "n"
  | letters => String.ofList letters

/-- The next variable for a label: first the normalized label itself, then
with 1, 2, … behind it. -/
def next (label : String) (names : VariableNames) : String × VariableNames :=
  let base := normalize label
  match KeyedList.lookup? base names.counters with
  | none => (base, ⟨KeyedList.insert base 0 names.counters⟩)
  | some count =>
    (base ++ Nat.repr (count + 1), ⟨KeyedList.insert base (count + 1) names.counters⟩)

end VariableNames
end VisualQuery
