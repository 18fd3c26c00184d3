import GrammarAnalysis.Files.Tree

/-!
# Sessions with files and a terminal

What a run of the program does is described as a tree of requests: it prints,
reads files, makes directories and writes files, and goes on according to the
answers.  The same session is carried out on the real file system and on files
in memory.
-/

namespace GrammarAnalysis

/-- A program that talks to its environment.  A request that can fail is
answered by the reason why it failed. -/
inductive Session where
  /-- Ends with an exit status. -/
  | finish (status : Nat)
  /-- Writes to the standard output. -/
  | print (text : String) (next : Session)
  /-- Writes to the standard error. -/
  | complain (text : String) (next : Session)
  /-- Reads a text file. -/
  | read (path : String) (next : Except FileError String → Session)
  /-- Makes a directory and those above it, unless they exist. -/
  | makeDirectory (path : String) (next : Except FileError Unit → Session)
  /-- Writes a text file. -/
  | write (path text : String) (next : Except FileError Unit → Session)

/-- What a session leaves behind. -/
structure SessionResult where
  status : Nat
  stdout : String
  stderr : String
  files : FileTree

namespace Session

/-- Carries out a session on files in memory. -/
def runIn (tree : FileTree) : Session → SessionResult
  | finish status => ⟨status, "", "", tree⟩
  | print text next =>
    let result := runIn tree next
    { result with stdout := text ++ result.stdout }
  | complain text next =>
    let result := runIn tree next
    { result with stderr := text ++ result.stderr }
  | read path next => runIn tree (next (tree.read path))
  | makeDirectory path next =>
    match tree.makeDirectory path with
    | .ok changed => runIn changed (next (.ok ()))
    | .error reason => runIn tree (next (.error reason))
  | write path text next =>
    match tree.write path text with
    | .ok changed => runIn changed (next (.ok ()))
    | .error reason => runIn tree (next (.error reason))

end Session

end GrammarAnalysis
