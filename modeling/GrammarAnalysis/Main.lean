import GrammarAnalysis.CommandLine.Program

/-!
# The command line

The program is carried out on the real file system.
-/

namespace GrammarAnalysis

/-- The reason of a failure of the real file system. -/
def FileError.ofFailure : IO.Error → FileError
  | .noFileOrDirectory .. => .notFound
  | .alreadyExists .. => .alreadyExists
  | .permissionDenied .. => .permissionDenied
  | .inappropriateType _ _ details =>
    if details = "not a directory" then .notDirectory else .isDirectory
  | error => .other (toString error)

/-- Carries out an action and returns the reason if it fails. -/
def attempt {α : Type} (action : IO (Except FileError α)) : IO (Except FileError α) := do
  try
    action
  catch error =>
    return .error (FileError.ofFailure error)

/-- Reads a text file. -/
def readText (path : String) : IO (Except FileError String) := do
  match String.fromUTF8? (← IO.FS.readBinFile path) with
  | some text => return .ok text
  | none => return .error .notText

/-- Carries out a session and returns its exit status. -/
def Session.runReal : Session → IO Nat
  | .finish status => return status
  | .print text next => do
    IO.print text
    next.runReal
  | .complain text next => do
    IO.eprint text
    next.runReal
  | .read path next => do
    let answer ← attempt (readText path)
    (next answer).runReal
  | .makeDirectory path next => do
    let answer ← attempt do
      if path ≠ "" then IO.FS.createDirAll path
      return .ok ()
    (next answer).runReal
  | .write path text next => do
    let answer ← attempt do
      IO.FS.writeFile path text
      return .ok ()
    (next answer).runReal

end GrammarAnalysis

def main (arguments : List String) : IO UInt32 := do
  let status ← (GrammarAnalysis.Program.ofArguments arguments).runReal
  return status.toUInt32
