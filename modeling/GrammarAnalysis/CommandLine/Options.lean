/-!
# Command line options

The program takes the path of a grammar and some options, which may stand in
any order.
-/

namespace GrammarAnalysis

/-- The choices made on the command line. -/
structure Options where
  /-- The path of the grammar. -/
  grammar : String
  /-- The path of a file of words to derive, one per line. -/
  words : Option String
  /-- The directory for the drawings of the automata. -/
  dotDirectory : Option String
  /-- Whether the tables are printed. -/
  tables : Bool
  /-- Whether the trees of the derived words are printed. -/
  trees : Bool
  skipNormalize : Bool
  skipRegular : Bool
deriving DecidableEq, Repr

namespace Options

/-- How the program is called. -/
def usage : String :=
  "Usage: grammar-analysis [OPTIONS] <GRAMMAR>\n\n" ++
  "Options:\n" ++
  "      --words <WORDS>      A file of words to derive, one per line\n" ++
  "      --dot-dir <DOT_DIR>  Write the automata in DOT format into this directory\n" ++
  "      --tables             Print the complete parsing tables\n" ++
  "      --trees              Print the derivation tree of every derived word\n" ++
  "      --skip-normalize     Skip the normal forms\n" ++
  "      --skip-regular       Skip the automaton of a regular grammar\n"

/-- The choices read so far. -/
structure Choices where
  grammar : Option String
  words : Option String
  dotDirectory : Option String
  tables : Bool
  trees : Bool
  skipNormalize : Bool
  skipRegular : Bool

/-- Sets the path of the grammar, which is given once and is not empty. -/
def Choices.setGrammar (choices : Choices) (path : String) : Option Choices :=
  if path ≠ "" && choices.grammar.isNone then some { choices with grammar := some path } else none

/-- Sets the option with the given name and value, which is given once and is not empty. -/
def Choices.setValue (choices : Choices) (name value : String) : Option Choices :=
  if value = "" then none
  else
    match name with
    | "words" => if choices.words.isNone then some { choices with words := some value } else none
    | "dot-dir" =>
      if choices.dotDirectory.isNone then some { choices with dotDirectory := some value }
      else none
    | _ => none

/-- Sets the flag with the given name, which is given once. -/
def Choices.setFlag (choices : Choices) (name : String) : Option Choices :=
  match name with
  | "tables" => if choices.tables then none else some { choices with tables := true }
  | "trees" => if choices.trees then none else some { choices with trees := true }
  | "skip-normalize" =>
    if choices.skipNormalize then none else some { choices with skipNormalize := true }
  | "skip-regular" =>
    if choices.skipRegular then none else some { choices with skipRegular := true }
  | _ => none

/-- Whether an argument looks like an option: it starts with a dash and is longer than that. -/
def isOptionLike (argument : String) : Bool :=
  match argument.toList with
  | '-' :: _ :: _ => true
  | _ => false

/-- The name and the value of an option of the form `name=value`. -/
def splitValue (option : List Char) : Option (String × String) :=
  match option.dropWhile (· ≠ '=') with
  | [] => none
  | _ :: value =>
    some (String.ofList (option.takeWhile (· ≠ '=')), String.ofList value)

/-- Reads the arguments in turn.  After `--` only paths are expected. -/
def Choices.read (choices : Choices) : List String → Option Choices
  | [] => some choices
  | argument :: rest =>
    match argument.toList with
    | ['-', '-'] => rest.foldlM setGrammar choices
    | '-' :: '-' :: option =>
      match splitValue option with
      | some (name, value) => do (← choices.setValue name value).read rest
      | none =>
        match choices.setFlag (String.ofList option) with
        | some choices => choices.read rest
        | none =>
          match rest with
          | [] => none
          | value :: rest =>
            if isOptionLike value then none
            else do (← choices.setValue (String.ofList option) value).read rest
    | _ =>
      if isOptionLike argument then none
      else do (← choices.setGrammar argument).read rest

/-- Reads the arguments. -/
def ofArguments? (arguments : List String) : Option Options := do
  let choices ← Choices.read ⟨none, none, none, false, false, false, false⟩ arguments
  let grammar ← choices.grammar
  return ⟨grammar, choices.words, choices.dotDirectory, choices.tables, choices.trees,
    choices.skipNormalize, choices.skipRegular⟩

end Options

end GrammarAnalysis
