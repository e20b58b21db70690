import VisualQuery.CommandLine.Run

/-!
# The command line program
-/

open VisualQuery

/-- Read a file or say why it cannot be read. -/
def readTextFile (path : String) : IO (Except String String) := do
  try
    return .ok (← IO.FS.readFile path)
  catch error => return .error (toString error)

/-- Whether a file can be opened. -/
def textFileExists (path : String) : IO Bool := return (← readTextFile path).toBool

/-- The directory of user configurations: the one set for it, else the usual
one below the home directory. -/
def userConfigDirectory : IO (Option String) := do
  match ← IO.getEnv "XDG_CONFIG_HOME" with
  | some directory => if directory.startsWith "/" then return some directory
  | none => pure ()
  return (← IO.getEnv "HOME").map fun home => home ++ "/.config"

/-- Run the command line and show what it ends with. -/
def main (arguments : List String) : IO UInt32 := do
  let environment : CommandLine.Environment IO := {
    readText := readTextFile
    exists? := textFileExists
    configDirectory := ← userConfigDirectory
    configFile := ← IO.getEnv "SOMBRA_PATTERN_CONFIG" }
  let result ← CommandLine.run environment arguments
  IO.print result.output
  IO.eprint result.errorOutput
  if result.code = 2 then IO.eprintln CommandLine.help
  return result.code.toUInt32
