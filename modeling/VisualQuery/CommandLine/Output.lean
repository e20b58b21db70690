import VisualQuery.CommandLine.Report
import VisualQuery.Cypher.Clauses
import VisualQuery.Json.Printer

/-!
# Written reports

The text form shows headings, statements one clause a line, and tables with
their keys aligned on the right.  The JSON form is indented.
-/

namespace VisualQuery
namespace CommandLine

/-! ## Text -/

/-- A heading. -/
def heading (title : String) : String := "▸ " ++ title

/-- The lines of a table; keys are padded to the longest, measured in bytes. -/
def tableLines (rows : List (String × String)) : List String :=
  let width := rows.foldl (fun width row => max width row.1.utf8ByteSize) 0
  rows.map fun (key, value) =>
    "  " ++ String.ofList (List.replicate (width - key.length) ' ') ++ key ++ ": " ++ value

/-- The lines of a statement. -/
def statementLines (statement : String) : List String :=
  (Cypher.statementClauses statement).map fun clause => "  " ++ clause

/-- The text of a bound parameter. -/
def shownParameter (value : PropertyValue) : String :=
  if value = .null then "null (unbound)" else value.display

/-- The lines of parameter bindings. -/
def parameterLines (parameters : Parameters) : List String :=
  if parameters.isEmpty then []
  else
    heading "parameters" ::
      tableLines (parameters.map fun (name, value) => (name, shownParameter value))

/-- Blocks of lines with an empty line between them. -/
def spaced : List (List String) → List String
  | [] => []
  | [block] => block
  | block :: rest => block ++ "" :: spaced rest

/-- The lines of a compiled statement. -/
def compiledLines (kind : QueryKind) (query : CompiledQuery) : List String :=
  heading (kind.word ++ " query for " ++ query.node ++ " (" ++ query.label ++ ")")
    :: (statementLines query.statement.text ++ parameterLines query.statement.parameters)

/-- The lines of a taxonomy count. -/
def taxonomyLines (query : CompiledQuery) : List String :=
  heading query.label :: statementLines query.statement.text

/-- The text of an ordering. -/
def shownOrder (key : Option String) (ascending : Bool) : String :=
  match key with
  | some key => key ++ if ascending then " ASC" else " DESC"
  | none => "-"

/-- The word for a truth value. -/
def shownBool (value : Bool) : String := if value then "true" else "false"

/-- The lines of the metadata of a label. -/
def labelLines (label : ResolvedLabel) : List String :=
  let constraints :=
    if label.predefinedConstraints.isEmpty then []
    else
      heading "predefined constraints" ::
        label.predefinedConstraints.map fun constraint => "  - " ++ constraint
  heading label.label ::
    (tableLines [
      ("parent", label.parent.getD "-"),
      ("constraint", label.constraintAttribute.name),
      ("returns", ", ".intercalate (label.returnAttributes.map Attribute.name)),
      ("value order", shownOrder label.valueOrderBy label.valueOrderAscending),
      ("result order", shownOrder label.resultOrderBy label.resultOrderAscending),
      ("searchable", shownBool label.searchable),
      ("group", shownBool label.group),
      ("auto expand", shownBool label.autoExpandRelations)] ++ constraints)

/-- A note for the reader. -/
def note (message : String) : String := "ℹ " ++ message

/-- The lines of a report. -/
def Report.lines : Report → List String
  | .compiled kind queries => spaced (queries.map (compiledLines kind))
  | .taxonomy [] => [note "no searchable labels configured"]
  | .taxonomy queries => spaced (queries.map taxonomyLines)
  | .labels [] => [note "no labels configured"]
  | .labels resolved => spaced (resolved.map labelLines)

/-! ## JSON -/

/-- The JSON form of a statement with its node. -/
def CompiledQuery.toJson (query : CompiledQuery) : Json :=
  .obj [("node", .str query.node), ("label", .str query.label),
    ("statement", .str query.statement.text),
    ("parameters", Row.toJson query.statement.parameters)]

/-- The JSON form of the metadata of a label. -/
def labelJson (label : ResolvedLabel) : Json :=
  .obj [("label", .str label.label), ("parent", Json.orNull .str label.parent),
    ("constraint_attribute", .str label.constraintAttribute.name),
    ("return_attributes", .strings (label.returnAttributes.map Attribute.name)),
    ("predefined_constraints", .strings label.predefinedConstraints),
    ("value_order_by", Json.orNull .str label.valueOrderBy),
    ("value_order_ascending", .bool label.valueOrderAscending),
    ("result_order_by", Json.orNull .str label.resultOrderBy),
    ("result_order_ascending", .bool label.resultOrderAscending),
    ("searchable", .bool label.searchable), ("group", .bool label.group),
    ("auto_expand_relations", .bool label.autoExpandRelations)]

/-- The JSON form of a report. -/
def Report.toJson : Report → Json
  | .compiled kind queries =>
    .obj [("kind", .str kind.word), ("queries", .arr (queries.map CompiledQuery.toJson))]
  | .taxonomy queries => .arr (queries.map CompiledQuery.toJson)
  | .labels resolved => .arr (resolved.map labelJson)

/-- The text of a report in a format, every line ended. -/
def Report.render (format : OutputFormat) (report : Report) : String :=
  match format with
  | .text => String.join (report.lines.map fun line => line ++ "\n")
  | .json => report.toJson.pretty ++ "\n"

end CommandLine
end VisualQuery
