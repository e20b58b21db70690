/-!
# Identifiers

Nodes and links draw their identifiers from one counter, so a number names at
most one of them.  Links are written with an `l` in front.
-/

namespace VisualQuery

/-- Identifier of a node inside one graph. -/
structure NodeId where
  value : Nat
deriving DecidableEq, Repr, Inhabited

/-- Identifier of a link inside one graph. -/
structure LinkId where
  value : Nat
deriving DecidableEq, Repr, Inhabited

/-- The text shown for a node identifier. -/
def NodeId.display (id : NodeId) : String := Nat.repr id.value

/-- The text shown for a link identifier. -/
def LinkId.display (id : LinkId) : String := "l" ++ Nat.repr id.value

end VisualQuery
