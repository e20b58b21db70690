/-!
# Files in memory

A tree of directories and text files.  A path leads to what stands at its end:
it starts at the top when it begins with a slash, else at the working
directory, passes over empty and `.` parts and steps back at `..`.  Reading
fails in the ways in which opening a file for reading fails; a directory must
exist before a name is looked up in it, so the first part that goes wrong
decides.
-/

namespace VisualQuery

/-- Directories and files by their places, which are the names on the way from
the top; whatever lies on the way to a directory is one as well. -/
structure FileTree where
  /-- The working directory. -/
  start : List String
  directories : List (List String)
  /-- Texts by place, the latest first. -/
  files : List (List String × String)

/-- Why a file cannot be read. -/
inductive ReadFailure where
  | missing
  | notADirectory
  | isADirectory
  | nameTooLong
deriving DecidableEq, Repr

namespace ReadFailure

/-- The text shown for a failure. -/
def message : ReadFailure → String
  | .missing => "No such file or directory (os error 2)"
  | .notADirectory => "Not a directory (os error 20)"
  | .isADirectory => "Is a directory (os error 21)"
  | .nameTooLong => "File name too long (os error 36)"

end ReadFailure

/-- What stands at a place of a file tree. -/
inductive FileEntry where
  | file (text : String)
  | directory
deriving DecidableEq, Repr

namespace FileTree

/-- The most bytes of a single name. -/
def maxNameBytes : Nat := 255

/-- The most bytes of a path. -/
def maxPathBytes : Nat := 4095

/-- The parts of a path between slashes. -/
def parts (path : String) : List String := path.splitOn "/"

/-- The place that a part of a path leads to; nothing lies above the top. -/
def step (place : List String) (part : String) : List String :=
  if part = "" ∨ part = "." then place
  else if part = ".." then place.dropLast
  else place ++ [part]

/-- The place where a path starts. -/
def origin (path : String) (tree : FileTree) : List String :=
  if path.startsWith "/" then [] else tree.start

/-- A tree without files that holds a working directory, given by its place,
and other directories. -/
def ofDirectories (start : List String) (directories : List String) : FileTree where
  start := start
  directories := start :: directories.map fun path => (parts path).foldl step []
  files := []

/-- The places that parts of a path pass through, the last one left out. -/
def passed (place : List String) : List String → List (List String)
  | [] => []
  | part :: rest => place :: passed (step place part) rest

/-- Write a file and make the directories on the way to it. -/
def write (path text : String) (tree : FileTree) : FileTree :=
  let names := parts path
  let origin := tree.origin path
  { tree with
    directories := passed origin names ++ tree.directories
    files := (names.foldl step origin, text) :: tree.files }

/-- Write some files, later ones over earlier ones. -/
def writeAll (files : List (String × String)) (tree : FileTree) : FileTree :=
  files.foldl (fun tree (path, text) => tree.write path text) tree

/-- What stands at a place. -/
def entryAt (place : List String) (tree : FileTree) : Option FileEntry :=
  match tree.files.find? fun file => file.1 = place with
  | some (_, text) => some (.file text)
  | none => if tree.directories.any place.isPrefixOf then some .directory else none

/-- Walk along the parts of a path from a place in the tree. -/
def walk (tree : FileTree) : (place parts : List String) → Except ReadFailure FileEntry
  | place, [] =>
    match tree.entryAt place with
    | some entry => .ok entry
    | none => .error .missing
  | place, part :: rest =>
    match tree.entryAt place with
    | some .directory =>
      if maxNameBytes < part.utf8ByteSize then .error .nameTooLong
      else walk tree (step place part) rest
    | some (.file _) => .error .notADirectory
    | none => .error .missing

/-- What a path leads to; the empty path leads nowhere. -/
def lookup (path : String) (tree : FileTree) : Except ReadFailure FileEntry :=
  if path = "" then .error .missing
  else if maxPathBytes < path.utf8ByteSize then .error .nameTooLong
  else tree.walk (tree.origin path) (parts path)

/-- Read a file. -/
def read (path : String) (tree : FileTree) : Except ReadFailure String := do
  match ← tree.lookup path with
  | .file text => .ok text
  | .directory => .error .isADirectory

/-- Whether a path leads to anything. -/
def exists? (path : String) (tree : FileTree) : Bool := (tree.lookup path).toBool

end FileTree
end VisualQuery
