import VisualQuery.PropertyValue

/-!
# Attributes

What constrains, returns or orders nodes of a label: a named property or the
database identity, which goes by the name of its result column.
-/

namespace VisualQuery

/-- An attribute of the nodes of a label. -/
inductive Attribute where
  /-- The database identity. -/
  | internalId
  /-- A named property. -/
  | property (name : String)
deriving DecidableEq, Repr, Inhabited

namespace Attribute

/-- The attribute that goes by a name. -/
def ofName (name : String) : Attribute :=
  if name = internalIdColumn then .internalId else .property name

/-- The name of an attribute, which is also its result column. -/
def name : Attribute → String
  | .internalId => internalIdColumn
  | .property name => name

/-- Whether the attribute is the database identity. -/
def isInternalId : Attribute → Bool
  | .internalId => true
  | .property _ => false

/-- Read an attribute by its name. -/
def ofJson? (value : Json) : Option Attribute := (Json.str? value).map ofName

@[simp] theorem name_ofName (name : String) : (ofName name).name = name := by
  unfold ofName
  split
  · rename_i same
    exact same.symm
  · rfl

end Attribute
end VisualQuery
