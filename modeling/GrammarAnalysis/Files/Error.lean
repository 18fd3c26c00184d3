/-!
# Why a request on files fails

The message of each cause is the one the operating system gives, with its number.
-/

namespace GrammarAnalysis

/-- The reason why a file or a directory cannot be used. -/
inductive FileError where
  /-- Nothing stands at the path. -/
  | notFound
  | permissionDenied
  /-- Something stands at the path already. -/
  | alreadyExists
  /-- The path goes through something that is no directory. -/
  | notDirectory
  /-- A directory stands where a file is expected. -/
  | isDirectory
  /-- The path or one of its names is too long. -/
  | nameTooLong
  /-- The bytes of the file are no text. -/
  | notText
  /-- Any other reason, in the words of the system. -/
  | other (message : String)
deriving DecidableEq, Repr

namespace FileError

/-- The message shown to the user. -/
def message : FileError → String
  | notFound => "No such file or directory (os error 2)"
  | permissionDenied => "Permission denied (os error 13)"
  | alreadyExists => "File exists (os error 17)"
  | notDirectory => "Not a directory (os error 20)"
  | isDirectory => "Is a directory (os error 21)"
  | nameTooLong => "File name too long (os error 36)"
  | notText => "stream did not contain valid UTF-8"
  | other message => message

end FileError

end GrammarAnalysis
