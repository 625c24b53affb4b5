import Cartosheet.Report

namespace Cartosheet

/-- How much is logged for a count of `-v`. -/
def logLevel (verbosity : Nat) : String :=
  match verbosity with
  | 0 => "warn"
  | 1 => "info"
  | 2 => "debug"
  | _ => "trace"

/-- Why a stylesheet could not be read from its file. -/
inductive ReadFault where
  | missing
  | forbidden
  | directory
  | notText
  | other (description : String)
  deriving DecidableEq, Repr

def ReadFault.message : ReadFault → String
  | missing => "No such file or directory (os error 2)"
  | forbidden => "Permission denied (os error 13)"
  | directory => "Is a directory (os error 21)"
  | notText => "stream did not contain valid UTF-8"
  | other description => description

/-- The text that bytes encode. -/
def decodeText (bytes : ByteArray) : Except ReadFault String :=
  match String.fromUTF8? bytes with
  | some s => .ok s
  | none => .error .notText

/-- What the command is asked to do. -/
structure Invocation where
  file : String
  mercator : Bool
  byRuleset : Bool
  format : Report.Format
  verbosity : Nat
  deriving DecidableEq, Repr

/-- Arguments read so far. -/
structure Arguments where
  file : Option String := none
  mercator : Bool := false
  byRuleset : Bool := false
  format : Option Report.Format := none
  verbosity : Nat := 0
  /-- The next argument is the value of a format option. -/
  awaitsFormat : Bool := false
  /-- All further arguments are files. -/
  optionsEnded : Bool := false
  deriving DecidableEq, Repr

namespace Arguments

/-- One file, whose name is not empty. -/
def withFile (a : Arguments) (file : String) : Option Arguments :=
  if file.isEmpty || a.file.isSome then none else some { a with file := some file }

def withMercator (a : Arguments) : Option Arguments :=
  if a.mercator then none else some { a with mercator := true }

def withRulesets (a : Arguments) : Option Arguments :=
  if a.byRuleset then none else some { a with byRuleset := true }

def withVerbosity (a : Arguments) : Option Arguments :=
  some { a with verbosity := a.verbosity + 1 }

def awaitFormat (a : Arguments) : Option Arguments :=
  some { a with awaitsFormat := true }

def withFormat (a : Arguments) (value : String) : Option Arguments :=
  if a.format.isSome then none
  else if value = "text" then some { a with format := some .text, awaitsFormat := false }
  else if value = "json" then some { a with format := some .json, awaitsFormat := false }
  else none

/-- Letters after one hyphen. What follows an `f` is its value, with or without `=`. -/
def withLetters (a : Arguments) : List Char → Option Arguments
  | [] => some a
  | c :: cs =>
    if c = 'm' then a.withMercator.bind (·.withLetters cs)
    else if c = 'r' then a.withRulesets.bind (·.withLetters cs)
    else if c = 'v' then a.withVerbosity.bind (·.withLetters cs)
    else if c = 'f' then
      if cs.isEmpty then a.awaitFormat
      else a.withFormat (String.ofList (if cs.head? = some '=' then cs.tail else cs))
    else none

/-- A word after two hyphens; only `format` takes a value. -/
def withWord (a : Arguments) (word : List Char) : Option Arguments :=
  let name := String.ofList (word.takeWhile (· ≠ '='))
  match word.dropWhile (· ≠ '=') with
  | [] =>
    if name = "mercator" then a.withMercator
    else if name = "rulesets" then a.withRulesets
    else if name = "verbose" then a.withVerbosity
    else if name = "format" then a.awaitFormat
    else none
  | _ :: value => if name = "format" then a.withFormat (String.ofList value) else none

def withArgument (a : Arguments) (argument : String) : Option Arguments :=
  if a.awaitsFormat then a.withFormat argument
  else if a.optionsEnded then a.withFile argument
  else
    match argument.toList with
    | '-' :: '-' :: word =>
      if word.isEmpty then some { a with optionsEnded := true } else a.withWord word
    | '-' :: c :: cs => a.withLetters (c :: cs)
    | _ => a.withFile argument

end Arguments

namespace Invocation

/-- What the arguments ask for, if they are well formed. -/
def ofArguments? (arguments : List String) : Option Invocation :=
  match arguments.foldlM Arguments.withArgument {} with
  | some a =>
    match a.file, a.awaitsFormat with
    | some file, false => some ⟨file, a.mercator, a.byRuleset, a.format.getD .text, a.verbosity⟩
    | _, _ => none
  | none => none

end Invocation

/-- What the command leaves behind. -/
structure Outcome where
  exitCode : Nat
  output : String
  errors : String
  deriving DecidableEq, Repr

namespace Outcome

def failure (message : String) : Outcome := ⟨1, "", "mapstyle: " ++ message ++ "\n"⟩

/-- The outcome of arguments that ask for nothing. -/
def misuse : Outcome := ⟨2, "", "usage: mapstyle [-m] [-r] [-f text|json] [-v] FILE\n"⟩

end Outcome

/-- The outcome for a file that holds `contents`. -/
def Invocation.run (i : Invocation) (contents : Except ReadFault String) : Outcome :=
  match contents with
  | .error f =>
    .failure ("Failed to read stylesheet '" ++ i.file ++ "': " ++ f.message)
  | .ok source =>
    match Report.ofSource i.mercator i.byRuleset source with
    | .error f => .failure f.message
    | .ok r => ⟨0, r.render i.format, ""⟩

end Cartosheet
