import GrammarAnalysis.Files.Error
import GrammarAnalysis.Text.Split

/-!
# Paths

A path leads from the root or from the working directory through one name after
the other.  The name `.` stays in a directory and `..` leaves it.  Names are
separated by any number of slashes, and a slash at the end asks for a directory.
-/

namespace GrammarAnalysis

/-- A path, cut into its names. -/
structure Path where
  /-- Whether the path starts at the root. -/
  isAbsolute : Bool
  names : List String
  /-- Whether the path ends in a slash. -/
  endsInSlash : Bool
deriving DecidableEq, Repr

namespace Path

/-- The number of bytes that a path cannot reach. -/
def lengthLimit : Nat := 4096

/-- The largest number of bytes of a name. -/
def longestName : Nat := 255

/-- Reads a path.  The empty path leads nowhere. -/
def ofString (text : String) : Except FileError Path :=
  if text = "" then .error .notFound
  else if lengthLimit ≤ text.utf8ByteSize then .error .nameTooLong
  else
    let chars := text.toList
    .ok {
      isAbsolute := chars.head? = some '/'
      names := ((Text.splitWhere (· = '/') chars).filter fun name => !name.isEmpty).map
        String.ofList
      endsInSlash := chars.getLast? = some '/' }

/-- The names without the steps that stay in place, except at the start of a
path that is not absolute. -/
def significantNames (path : Path) : List String :=
  match path.names with
  | [] => []
  | first :: rest =>
    (if path.isAbsolute && first = "." then [] else [first]) ++ rest.filter (· ≠ ".")

/-- The paths above a path, the nearest first, as far as they have a name. -/
def above (path : Path) : List Path :=
  let names := path.significantNames
  ((List.range names.length).tail.map fun count =>
    (⟨path.isAbsolute, names.take count, false⟩ : Path)).reverse

/-- The path of a file in a directory. -/
def join (directory file : String) : String :=
  if directory = "" then file
  else if directory.toList.getLast? = some '/' then directory ++ file
  else directory ++ "/" ++ file

end Path

end GrammarAnalysis
