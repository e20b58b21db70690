import VisualQuery.Compiler.Options
import VisualQuery.Metadata.Registry
import VisualQuery.Toml.Document

/-!
# Configuration

A configuration sets the options of the statement builders, overrides the
default declaration and declares labels.  The parent of a declared label must
be declared in the same configuration.
-/

namespace VisualQuery

/-- A configuration. -/
structure Configuration where
  query : QueryOptions := {}
  default : LabelDeclaration := {}
  labels : KeyedList LabelDeclaration := []
  /-- File the configuration comes from. -/
  path : Option String := none

/-- Why a configuration is refused. -/
inductive ConfigurationError where
  /-- The file cannot be read. -/
  | read (path reason : String)
  /-- The text is not a configuration; the path is empty for text at hand. -/
  | parse (path : String)
  /-- The parent of a label is not declared. -/
  | unknownParent (label parent : String)
deriving DecidableEq, Repr

namespace ConfigurationError

/-- The text shown for a refusal. -/
def message : ConfigurationError → String
  | .read path reason => "failed to read config " ++ path ++ ": " ++ reason
  | .parse path => "failed to parse config " ++ path
  | .unknownParent label parent =>
    "label '" ++ label ++ "' inherits from unknown label '" ++ parent ++ "'"

/-- The refusal of a text that comes from a file. -/
def inFile (path : String) : ConfigurationError → ConfigurationError
  | .parse _ => .parse path
  | error => error

end ConfigurationError

namespace Configuration

/-- Read declarations by label. -/
def labels? (value : Json) : Option (KeyedList LabelDeclaration) := do
  let members ← value.members?
  let declared ← members.mapM fun (label, declaration) => do
    pure (label, ← LabelDeclaration.ofJson? declaration)
  pure (KeyedList.ofList declared)

/-- Read a configuration from a tree; unknown members are refused. -/
def ofJson? (value : Json) : Option Configuration := do
  let members ← value.members?
  guard (Json.isClosed ["query", "default", "labels"] members)
  let query ← Json.defaulted? {} QueryOptions.ofJson? "query" members
  let default ← Json.defaulted? {} LabelDeclaration.ofJson? "default" members
  let labels ← Json.defaulted? [] labels? "labels" members
  pure { query, default, labels }

/-- The parent that a label names without its being declared. -/
def missingParent? (labels : KeyedList LabelDeclaration)
    (entry : String × LabelDeclaration) : Option ConfigurationError :=
  match entry.2.parent with
  | some parent =>
    if KeyedList.contains parent labels then none else some (.unknownParent entry.1 parent)
  | none => none

/-- Check that all parents are declared; the first label in order that fails
is named. -/
def validate (configuration : Configuration) : Except ConfigurationError Unit :=
  match configuration.labels.findSome? (missingParent? configuration.labels) with
  | some error => .error error
  | none => .ok ()

/-- Read a configuration from text. -/
def parse (text : String) : Except ConfigurationError Configuration :=
  match (Toml.parse? text).bind ofJson? with
  | none => .error (.parse "")
  | some configuration => do
    configuration.validate
    pure configuration

/-- Read a configuration from the text of a file. -/
def parseFile (path text : String) : Except ConfigurationError Configuration :=
  match parse text with
  | .ok configuration => .ok { configuration with path := some path }
  | .error error => .error (error.inFile path)

/-- The registry that a configuration describes. -/
def registry (configuration : Configuration) : LabelRegistry :=
  .build configuration.labels (some configuration.default) none

/-- The place of the configuration below the directory for configurations. -/
def defaultPath (directory : String) : String := directory ++ "/sombra-pattern/config.toml"

/-! ## Files -/

variable {m : Type → Type} [Monad m]

/-- How the text of a file is read; a failure gives the reason. -/
abbrev TextReader (m : Type → Type) := String → m (Except String String)

/-- Read a configuration file, which must exist. -/
def fromFile (readText : TextReader m) (path : String) :
    m (Except ConfigurationError Configuration) := do
  match ← readText path with
  | .ok text => pure (parseFile path text)
  | .error reason => pure (.error (.read path reason))

/-- Read the configuration file that is named, else the one at the default
place if it exists, else none at all. -/
def load (readText : TextReader m) (exists? : String → m Bool) (named : Option String)
    (directory : Option String) : m (Except ConfigurationError Configuration) := do
  match named, directory with
  | some path, _ => fromFile readText path
  | none, some directory =>
    if ← exists? (defaultPath directory) then fromFile readText (defaultPath directory)
    else pure (.ok {})
  | none, none => pure (.ok {})

end Configuration
end VisualQuery
