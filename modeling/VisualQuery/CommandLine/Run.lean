import VisualQuery.CommandLine.Output
import VisualQuery.Configuration
import VisualQuery.Graph.Schema
import VisualQuery.Json.Parser

/-!
# Running a command

A command reads its configuration and, to compile, a schema; it ends with a
report, with the reason for which there is none, or without doing anything.
Warnings go to standard error, together with that reason.  Reading files may happen in any monad.
-/

namespace VisualQuery
namespace CommandLine

/-- Why a command fails. -/
inductive Failure where
  | configuration (error : ConfigurationError)
  /-- The schema file cannot be read. -/
  | readSchema (path reason : String)
  /-- The schema file does not hold a schema. -/
  | decodeSchema
  | unknownVariable (name : String)
  | query (error : QueryError)
deriving DecidableEq

/-- The text shown for a failure. -/
def Failure.message : Failure → String
  | .configuration error => error.message
  | .readSchema path reason => "failed to read schema " ++ path ++ ": " ++ reason
  | .decodeSchema => "the file does not hold a schema"
  | .unknownVariable name => "no node uses the variable '" ++ name ++ "'"
  | .query error => error.message

/-- The failure behind a refusal to compile. -/
def Failure.ofCompileError : CompileError → Failure
  | .unknownVariable name => .unknownVariable name
  | .query error => .query error

/-- A remark that does not end the command. -/
inductive Warning where
  /-- A node was named for a statement that is not about one. -/
  | nodeIgnored (kind : QueryKind)
deriving DecidableEq, Repr

/-- The text shown for a warning. -/
def Warning.message : Warning → String
  | .nodeIgnored kind => "--node is ignored for " ++ kind.word ++ " queries"

/-- How a command ends. -/
inductive Ending where
  | output (text : String)
  | failed (failure : Failure)
  | usageError

/-- Everything a command shows. -/
structure Result where
  warnings : List Warning := []
  ending : Ending

namespace Result

/-- The exit code: 0 for output, 1 for a failure, 2 for a usage error. -/
def code (result : Result) : Nat :=
  match result.ending with
  | .output _ => 0
  | .failed _ => 1
  | .usageError => 2

/-- What goes to standard output. -/
def output (result : Result) : String :=
  match result.ending with
  | .output text => text
  | .failed _ | .usageError => ""

/-- What goes to standard error, every message ended by a line break. -/
def errorOutput (result : Result) : String :=
  let warnings := result.warnings.map fun warning => "⚠ " ++ warning.message
  let failures :=
    match result.ending with
    | .failed failure => ["error: " ++ failure.message]
    | .output _ | .usageError => []
  String.join ((warnings ++ failures).map fun message => message ++ "\n")

/-- A failure without warnings. -/
def ofFailure (failure : Failure) : Result := { ending := .failed failure }

end Result

/-- The name behind the last slash of a path, the slashes and single dots at
its end left out. -/
def fileName (path : String) : String :=
  ((path.splitOn "/").reverse.find? fun part => part ≠ "" ∧ part ≠ ".").getD ""

/-- What follows the last dot of a file name; a dot in front does not count. -/
def hasExtension (extension path : String) : Bool :=
  match ((fileName path).splitOn ".").reverse with
  | last :: stem :: rest => last = extension && (stem ≠ "" || !rest.isEmpty)
  | _ => false

/-- Read a schema from the text of a file: JSON by its extension, else TOML. -/
def decodeSchema? (path text : String) : Option NodeSchema :=
  let tree := if hasExtension "json" path then Json.parse? text else Toml.parse? text
  tree.bind NodeSchema.ofJson?

/-- The version shown on request. -/
def version : String := "sombra-pattern 0.4.0\n"

/-- The help shown on request. -/
def help : String := "Usage: sombra-pattern [OPTIONS] <COMMAND>\n"

/-- Compile the statements of a schema. -/
def compileSchema (configuration : Configuration) (schema : NodeSchema) (kind : QueryKind)
    (node : Option String) : Except Failure Report :=
  let session := Session.new configuration.registry.metadata configuration.query
  match (Session.loadSchema schema).perform session with
  | (.error error, _) => .error (.query error)
  | (.ok _, session) => (compile session kind node).mapError Failure.ofCompileError

/-- Warn of a node that is named in vain. -/
def warningsFor (kind : QueryKind) (node : Option String) : List Warning :=
  if node.isSome && !kind.targetsNode then [.nodeIgnored kind] else []

/-- Carry out a command under its configuration. -/
def execute {m : Type → Type} [Monad m] (readText : Configuration.TextReader m)
    (configuration : Configuration) (arguments : Arguments) : m Result := do
  let finish (report : Report) : Ending := .output (report.render arguments.format)
  match arguments.command with
  | .taxonomy => pure { ending := finish (taxonomyReport configuration.registry) }
  | .labels => pure { ending := finish (labelReport configuration.registry) }
  | .compile path kind node =>
    match ← readText path with
    | .error reason => pure (.ofFailure (.readSchema path reason))
    | .ok text =>
      match decodeSchema? path text with
      | none => pure (.ofFailure .decodeSchema)
      | some schema =>
        let ending :=
          match compileSchema configuration schema kind node with
          | .ok report => finish report
          | .error failure => .failed failure
        pure { warnings := warningsFor kind node, ending }

/-- What a command finds around it. -/
structure Environment (m : Type → Type) where
  readText : Configuration.TextReader m
  /-- Whether a path leads to anything. -/
  exists? : String → m Bool
  /-- The directory of user configurations. -/
  configDirectory : Option String
  /-- The configuration file named by the environment. -/
  configFile : Option String

/-- Carry out what the arguments ask for. -/
def run {m : Type → Type} [Monad m] (environment : Environment m)
    (arguments : List String) : m Result := do
  match Request.ofArguments environment.configFile arguments with
  | .usageError => pure { ending := .usageError }
  | .version => pure { ending := .output version }
  | .help => pure { ending := .output help }
  | .run arguments =>
    match ← Configuration.load environment.readText environment.exists? arguments.config
        environment.configDirectory with
    | .error error => pure (.ofFailure (.configuration error))
    | .ok configuration => execute environment.readText configuration arguments

end CommandLine
end VisualQuery
