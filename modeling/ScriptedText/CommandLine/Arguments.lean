import ScriptedText.Text.Cut

/-!
The arguments of the command: flags with and without a value, in any order, and one document.
-/

namespace ScriptedText.CommandLine

inductive Format
  | human
  | json
  deriving DecidableEq, Repr

def Format.name : Format → String
  | .human => "human"
  | .json => "json"

def Format.ofName? (s : String) : Option Format :=
  if s = "human" then some .human else if s = "json" then some .json else none

inductive ValueFlag
  | base
  | language
  | config
  | format
  deriving DecidableEq, Repr

def ValueFlag.ofText? (s : String) : Option ValueFlag :=
  if s = "--base" then some .base
  else if s = "--language" then some .language
  else if s = "--config" then some .config
  else if s = "--format" then some .format
  else none

/-- What an argument list is made of. -/
inductive Group
  | verbose
  | value (flag : ValueFlag) (text : String)
  | positional (text : String)
  deriving DecidableEq, Repr

inductive Mistake
  | unknownOption (option : String)
  | missingValue (option : String)
  | invalidFormat (text : String)
  | missingDocument
  | unexpected (text : String)
  deriving DecidableEq, Repr

def Mistake.message : Mistake → String
  | .unknownOption option => "Unknown option: " ++ option
  | .missingValue option => "Missing value after " ++ option
  | .invalidFormat text => "Invalid --format value: " ++ text ++ ". Must be one of: human, json"
  | .missingDocument => "Missing document argument"
  | .unexpected text => "Unexpected argument: " ++ text

/-- Whether an argument is a flag by its looks. A lone dash is none. -/
def looksLikeFlag (s : String) : Bool := Text.startsWith s "-" && s ≠ "-"

/-- Splits an argument list from left to right. A value flag takes the next argument whatever it is. -/
def groups : List String → Except Mistake (List Group)
  | [] => .ok []
  | a :: rest =>
    if looksLikeFlag a then
      if a = "--verbose" then (groups rest).map (.verbose :: ·)
      else
        match ValueFlag.ofText? a, rest with
        | none, _ => .error (.unknownOption a)
        | some _, [] => .error (.missingValue a)
        | some flag, v :: rest => (groups rest).map (.value flag v :: ·)
    else (groups rest).map (.positional a :: ·)

/-- The value that a flag has in the end: the last one counts. -/
def lastValue? (flag : ValueFlag) (gs : List Group) : Option String :=
  gs.reverse.findSome? fun
    | .value f text => if f = flag then some text else none
    | _ => none

def positionals (gs : List Group) : List String :=
  gs.filterMap fun
    | .positional text => some text
    | _ => none

/-- A request to run one document. -/
structure Request where
  document : String
  base : Option String := none
  language : Option String := none
  config : Option String := none
  format : Format := .human
  verbose : Bool := false
  deriving DecidableEq, Repr

inductive Arguments
  | help
  | version
  | run (r : Request)
  deriving DecidableEq, Repr

/-- Help before all else, then the version, wherever they are asked for. -/
def askedFor? (argv : List String) : Option Arguments :=
  if argv.contains "--help" || argv.contains "-h" then some .help
  else if argv.contains "--version" || argv.contains "-v" then some .version
  else none

def requestOf (gs : List Group) : Except Mistake Request := do
  let formatText := (lastValue? .format gs).getD Format.human.name
  let some format := Format.ofName? formatText | .error (.invalidFormat formatText)
  match positionals gs with
  | [] => .error .missingDocument
  | [document] =>
    return {
      document, base := lastValue? .base gs, language := lastValue? .language gs, config := lastValue? .config gs
      format, verbose := gs.contains .verbose }
  | _ :: extra :: _ => .error (.unexpected extra)

def parse (argv : List String) : Except Mistake Arguments :=
  match askedFor? argv with
  | some a => .ok a
  | none => do return .run (← requestOf (← groups argv))

end ScriptedText.CommandLine
