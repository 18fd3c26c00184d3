import GrammarAnalysis.Collections.OrderedMap
import GrammarAnalysis.Files.Path

/-!
# Files in memory

A tree of files says what stands at each place, a place being the list of names
that leads to it from the root.  Paths are followed name by name, so every name
but the last has to be that of a directory, also in front of `..`.
-/

namespace GrammarAnalysis

/-- What stands at a place. -/
inductive FileEntry where
  | directory
  | file (text : String)
deriving DecidableEq, Repr

/-- Directories and files, and the place of the working directory. -/
structure FileTree where
  entries : OrderedMap (List String) FileEntry
  workingPlace : List String

namespace FileTree

/-- What stands at a place.  The root is a directory. -/
def entry? (tree : FileTree) (place : List String) : Option FileEntry :=
  if place = [] then some .directory else tree.entries.get? place

/-- The tree with something new at a place. -/
def put (tree : FileTree) (place : List String) (entry : FileEntry) : FileTree :=
  { tree with entries := tree.entries.insert place entry }

/-- The working directory of trees made for a session. -/
def sessionPlace : List String := ["home", "session", "work"]

/-- A tree with the usual directories and an empty working directory. -/
def initial : FileTree where
  entries := OrderedMap.ofList
    [(["dev"], .directory), (["dev", "null"], .file ""), (["tmp"], .directory),
      (["home"], .directory), (["home", "session"], .directory), (sessionPlace, .directory)]
  workingPlace := sessionPlace

/-- The tree with the given files in its working directory. -/
def ofFiles (files : List (String × String)) : FileTree :=
  files.foldl (fun tree file => tree.put (tree.workingPlace ++ [file.1]) (.file file.2)) initial

/-- The end of a path: a directory, or a name in a directory. -/
inductive Target where
  /-- The path ends at a directory that it does not name. -/
  | unnamed
  /-- The path ends with a name in a directory. -/
  | named (place : List String)
deriving DecidableEq, Repr

/-- The place of a name in a directory. -/
def placeOf (place : List String) (name : String) : Except FileError (List String) :=
  if Path.longestName < name.utf8ByteSize then .error .nameTooLong else .ok (place ++ [name])

/-- Goes from a directory to the directory with the given name. -/
def enter (tree : FileTree) (place : List String) (name : String) :
    Except FileError (List String) :=
  match name with
  | "." => .ok place
  | ".." => .ok place.dropLast
  | _ => do
    let next ← placeOf place name
    match tree.entry? next with
    | some .directory => .ok next
    | some (.file _) => .error .notDirectory
    | none => .error .notFound

/-- Follows a path up to its last name. -/
def target (tree : FileTree) (path : Path) : Except FileError Target := do
  let start := if path.isAbsolute then [] else tree.workingPlace
  match path.names.getLast? with
  | none => return .unnamed
  | some last =>
    let place ← path.names.dropLast.foldlM tree.enter start
    if last = "." || last = ".." then return .unnamed
    else return .named (← placeOf place last)

/-- Reads a file. -/
def read (tree : FileTree) (path : String) : Except FileError String := do
  let path ← Path.ofString path
  match ← tree.target path with
  | .unnamed => .error .isDirectory
  | .named place =>
    match tree.entry? place with
    | none => .error .notFound
    | some .directory => .error .isDirectory
    | some (.file text) => if path.endsInSlash then .error .notDirectory else .ok text

/-- Whether the path leads to a directory. -/
def isDirectory (tree : FileTree) (path : Path) : Bool :=
  match tree.target path with
  | .error _ => false
  | .ok .unnamed => true
  | .ok (.named place) => tree.entry? place = some .directory

/-- Makes one directory, in a directory that exists. -/
def makeOne (tree : FileTree) (path : Path) : Except FileError FileTree := do
  match ← tree.target path with
  | .unnamed => .error .alreadyExists
  | .named place =>
    match tree.entry? place with
    | none => .ok (tree.put place .directory)
    | some _ => .error .alreadyExists

/-- Makes one directory, unless it is there already. -/
def ensureOne (tree : FileTree) (path : Path) : Except FileError FileTree :=
  match tree.makeOne path with
  | .ok tree => .ok tree
  | .error error => if tree.isDirectory path then .ok tree else .error error

/-- Makes the first directory, and before it those that it is missing among the
others, which stand above it, the nearest first. -/
def makeAll (tree : FileTree) : List Path → Except FileError FileTree
  | [] => .ok tree
  | path :: above =>
    if tree.makeOne path matches .error .notFound then do
      let tree ← tree.makeAll above
      tree.ensureOne path
    else tree.ensureOne path

/-- Makes a directory and those above it, unless they exist.  Nothing is to be
made for the empty path. -/
def makeDirectory (tree : FileTree) (path : String) : Except FileError FileTree :=
  if path = "" then .ok tree
  else do
    let path ← Path.ofString path
    tree.makeAll (path :: path.above)

/-- Writes a file, replacing one that is there. -/
def write (tree : FileTree) (path text : String) : Except FileError FileTree := do
  let path ← Path.ofString path
  match ← tree.target path with
  | .unnamed => .error .isDirectory
  | .named place =>
    if path.endsInSlash || tree.entry? place = some .directory then .error .isDirectory
    else .ok (tree.put place (.file text))

/-- The files below a directory of the working directory, by their paths from there. -/
def filesBelow (tree : FileTree) (directory : String) : List (String × String) :=
  let above := tree.workingPlace ++ [directory]
  tree.entries.entries.filterMap fun (place, entry) =>
    match entry with
    | .directory => none
    | .file text =>
      if above.isPrefixOf place then some ("/".intercalate (place.drop above.length), text)
      else none

end FileTree

end GrammarAnalysis
