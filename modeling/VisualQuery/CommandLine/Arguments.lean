/-!
# Command line arguments

Options stand before or behind the command word; an option behind it counts
more than the same option in front, and both count more than the environment.
No option may be given twice on one side.  Everything that does not fit is a
usage error.  Arguments are read from left to right, and the first that asks
for help or the version, or does not fit, decides.
-/

namespace VisualQuery
namespace CommandLine

/-- Form of the output. -/
inductive OutputFormat where
  | text
  | json
deriving DecidableEq, Repr

/-- Which statement to compile. -/
inductive QueryKind where
  | result
  | graph
  | count
  | values
  | relations
deriving DecidableEq, Repr

/-- What to do. -/
inductive Command where
  | compile (schema : String) (kind : QueryKind) (node : Option String)
  | taxonomy
  | labels
deriving DecidableEq, Repr

/-- A complete set of arguments. -/
structure Arguments where
  config : Option String
  format : OutputFormat
  command : Command
deriving DecidableEq, Repr

/-- What the arguments ask for. -/
inductive Request where
  | run (arguments : Arguments)
  | version
  | help
  | usageError
deriving DecidableEq, Repr

namespace OutputFormat

/-- The format with a name. -/
def ofWord? : String → Option OutputFormat
  | "text" => some .text
  | "json" => some .json
  | _ => none

end OutputFormat

namespace QueryKind

/-- The name of a kind. -/
def word : QueryKind → String
  | .result => "result"
  | .graph => "graph"
  | .count => "count"
  | .values => "values"
  | .relations => "relations"

/-- The kind with a name. -/
def ofWord? : String → Option QueryKind
  | "result" => some .result
  | "graph" => some .graph
  | "count" => some .count
  | "values" => some .values
  | "relations" => some .relations
  | _ => none

/-- Whether the statement is about one node. -/
def targetsNode : QueryKind → Bool
  | .count | .values | .relations => true
  | .result | .graph => false

end QueryKind

/-! ## Words -/

/-- An argument by its shape. -/
inductive Word where
  /-- The marker behind which nothing is an option. -/
  | endOfOptions
  /-- `--name` or `--name=value`. -/
  | long (name : String) (value : Option String)
  /-- `-letters`. -/
  | short (letters : List Char)
  | plain (text : String)
deriving DecidableEq, Repr

/-- The shape of an argument; a single dash is plain. -/
def Word.ofArgument (argument : String) : Word :=
  match argument.toList with
  | ['-', '-'] => .endOfOptions
  | '-' :: '-' :: body =>
    match body.dropWhile (· ≠ '=') with
    | '=' :: value =>
      .long (String.ofList (body.takeWhile (· ≠ '='))) (some (String.ofList value))
    | _ => .long (String.ofList body) none
  | '-' :: letter :: letters => .short (letter :: letters)
  | _ => .plain argument

/-! ## One side of the command word -/

/-- Why reading arguments ends early. -/
inductive Stop where
  | version
  | help
  | usageError
deriving DecidableEq, Repr

/-- Options and positional arguments read so far, options by name. -/
structure Side where
  options : List (String × String) := []
  positionals : List String := []

namespace Side

/-- The value of an option. -/
def value? (name : String) (side : Side) : Option String :=
  (side.options.find? fun option => option.1 = name).map Prod.snd

end Side

/-- Options that both sides know. -/
def sharedOptions : List String := ["config", "format", "theme"]

/-- Options of the compile command. -/
def compileOptions : List String := ["kind", "node"]

/-- Whether an option takes a value. -/
def acceptsValue (name value : String) : Bool :=
  match name with
  | "config" => !value.isEmpty
  | "format" => (OutputFormat.ofWord? value).isSome
  | "theme" => ["auto", "light", "dark", "plain"].contains value
  | "kind" => (QueryKind.ofWord? value).isSome
  | _ => true

/-- Store the value of an option that has none yet. -/
def setOption (known : List String) (name value : String) (side : Side) :
    Except Stop Side :=
  if !known.contains name || (side.value? name).isSome || !acceptsValue name value then
    .error .usageError
  else .ok { side with options := (name, value) :: side.options }

/-- Add a positional argument to a side that takes a number of them; none may
be empty. -/
def addPositional (capacity : Nat) (side : Side) (text : String) : Except Stop Side :=
  if text.isEmpty || capacity ≤ side.positionals.length then .error .usageError
  else .ok { side with positionals := side.positionals ++ [text] }

/-- What an option without value asks for. -/
def flag (hasVersion : Bool) (name : String) : Stop :=
  if name = "help" then .help
  else if hasVersion && name = "version" then .version
  else .usageError

/-- What a group of letters asks for; only its first letter counts. -/
def letterFlag (hasVersion : Bool) : List Char → Stop
  | 'h' :: _ => .help
  | 'V' :: _ => if hasVersion then .version else .usageError
  | _ => .usageError

/-- Read the arguments behind the command word, for a command with some options
and a number of positional arguments. -/
def readCommandSide (known : List String) (capacity : Nat) :
    Side → List String → Except Stop Side
  | side, [] => .ok side
  | side, argument :: rest =>
    match Word.ofArgument argument with
    | .endOfOptions => rest.foldlM (addPositional capacity) side
    | .plain text => do readCommandSide known capacity (← addPositional capacity side text) rest
    | .short letters => .error (letterFlag false letters)
    | .long name (some value) => do
      readCommandSide known capacity (← setOption known name value side) rest
    | .long name none =>
      if !known.contains name then .error (flag false name)
      else
        match rest with
        | [] => .error .usageError
        | value :: rest =>
          match Word.ofArgument value with
          | .plain value => do
            readCommandSide known capacity (← setOption known name value side) rest
          | _ => .error .usageError

/-- Read the arguments in front of the command word; the result holds the word
and the arguments behind it. -/
def readLeadingSide : Side → List String → Except Stop (Side × String × List String)
  | _, [] => .error .usageError
  | side, argument :: rest =>
    match Word.ofArgument argument with
    | .endOfOptions => .error .usageError
    | .plain word => .ok (side, word, rest)
    | .short letters => .error (letterFlag true letters)
    | .long name (some value) => do readLeadingSide (← setOption sharedOptions name value side) rest
    | .long name none =>
      if !sharedOptions.contains name then .error (flag true name)
      else
        match rest with
        | [] => .error .usageError
        | value :: rest =>
          match Word.ofArgument value with
          | .plain value => do readLeadingSide (← setOption sharedOptions name value side) rest
          | _ => .error .usageError

/-! ## Both sides -/

/-- The configuration from the environment, wanted on a side without the
option; an empty one is a usage error. -/
def environmentConfig (environment : Option String) (side : Side) :
    Except Stop (Option String) :=
  match side.value? "config", environment with
  | some path, _ => .ok (some path)
  | none, some "" => .error .usageError
  | none, path => .ok path

/-- The value of an option on the nearer side that has it. -/
def nearest? (name : String) (leading trailing : Side) : Option String :=
  trailing.value? name <|> leading.value? name

/-- The command of a word with its own arguments. -/
def commandOf (word : String) (side : Side) : Except Stop Command :=
  match word, side.positionals with
  | "compile", [schema] =>
    let kind := (side.value? "kind").bind QueryKind.ofWord?
    .ok (.compile schema (kind.getD .result) (side.value? "node"))
  | "taxonomy", [] => .ok .taxonomy
  | "labels", [] => .ok .labels
  | _, _ => .error .usageError

/-- The words that select a command. -/
def commandWords : List String := ["compile", "taxonomy", "labels"]

/-- Read all arguments. -/
def readArguments (environment : Option String) (arguments : List String) :
    Except Stop Arguments := do
  let (leading, word, rest) ← readLeadingSide {} arguments
  unless commandWords.contains word do throw .usageError
  let trailing ←
    if word = "compile" then readCommandSide (sharedOptions ++ compileOptions) 1 {} rest
    else readCommandSide sharedOptions 0 {} rest
  let command ← commandOf word trailing
  let _ ← environmentConfig environment trailing
  let _ ← environmentConfig environment leading
  let format := (nearest? "format" leading trailing).bind OutputFormat.ofWord?
  pure {
    config := nearest? "config" leading trailing <|> environment
    format := format.getD .text
    command }

/-- What the arguments ask for. -/
def Request.ofArguments (environment : Option String) (arguments : List String) : Request :=
  match readArguments environment arguments with
  | .ok arguments => .run arguments
  | .error .version => .version
  | .error .help => .help
  | .error .usageError => .usageError

end CommandLine
end VisualQuery
