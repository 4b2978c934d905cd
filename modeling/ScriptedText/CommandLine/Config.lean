import ScriptedText.Files.Tree
import ScriptedText.Fault.Basic
import ScriptedText.Value.Yaml

/-!
The configuration of the command: a mapping with a few known keys, laid over the defaults.
-/

namespace ScriptedText.CommandLine

structure Config where
  defaultLanguage : String := "javascript"
  defaultName : String := "index"
  preferredExtension : Option String := none
  /-- Milliseconds between two looks at a file, or -1 for none. -/
  interval : Int := 1000
  prepare : Bool := false
  exposedName : String := "executable"
  deriving DecidableEq, Repr

inductive ConfigFault
  | noMapping
  | unknownKey (key : String)
  | noText (key : String)
  | badInterval
  | badPrepare
  | missingFile (path : String)
  | unreadable (reason : String)
  | notYaml (reason : String)
  deriving DecidableEq, Repr

def ConfigFault.reason : ConfigFault → String
  | .noMapping => "must be a mapping"
  | .unknownKey key => "unknown key " ++ key
  | .noText key => key ++ " must be a non-empty string"
  | .badInterval => "minimumTimeBetweenValidityChecks must be an integer >= -1"
  | .badPrepare => "prepare must be a boolean"
  | .missingFile path => "file not found (" ++ path ++ ")"
  | .unreadable reason => "failed to read file (" ++ reason ++ ")"
  | .notYaml reason => "invalid YAML (" ++ reason ++ ")"

def ConfigFault.message (f : ConfigFault) : String := "Invalid configuration: " ++ f.reason

namespace Config

def textKeys : List String := ["defaultLanguage", "defaultName", "preferredExtension", "exposedName"]

def intervalKey : String := "minimumTimeBetweenValidityChecks"

def prepareKey : String := "prepare"

def isKnown (key : String) : Bool := textKeys.contains key || key = intervalKey || key = prepareKey

/-- The value under a key, where an undefined one counts as missing. -/
def given? (fields : List (String × Value)) (key : String) : Option Value :=
  match Value.field? fields key with
  | some .undefined => none
  | v => v

def textOf (fields : List (String × Value)) (key : String) : Except ConfigFault (Option String) :=
  match given? fields key with
  | none => .ok none
  | some (.text s) => if s = "" then .error (.noText key) else .ok (some s)
  | some _ => .error (.noText key)

def intervalOf (fields : List (String × Value)) : Except ConfigFault (Option Int) :=
  match given? fields intervalKey with
  | none => .ok none
  | some (.number n) =>
    match n.int? with
    | some i => if i < -1 then .error .badInterval else .ok (some i)
    | none => .error .badInterval
  | some _ => .error .badInterval

def prepareOf (fields : List (String × Value)) : Except ConfigFault (Option Bool) :=
  match given? fields prepareKey with
  | none => .ok none
  | some (.bool b) => .ok (some b)
  | some _ => .error .badPrepare

def ofFields (fields : List (String × Value)) : Except ConfigFault Config := do
  if let some (key, _) := fields.find? fun f => !isKnown f.1 then .error (.unknownKey key)
  let language ← textOf fields "defaultLanguage"
  let name ← textOf fields "defaultName"
  let extension ← textOf fields "preferredExtension"
  let exposed ← textOf fields "exposedName"
  let interval ← intervalOf fields
  let prepare ← prepareOf fields
  let d : Config := {}
  return {
    defaultLanguage := language.getD d.defaultLanguage, defaultName := name.getD d.defaultName
    preferredExtension := extension, interval := interval.getD d.interval
    prepare := prepare.getD d.prepare, exposedName := exposed.getD d.exposedName }

/-- The configuration that a value describes. Nothing at all describes the defaults. -/
def ofValue : Value → Except ConfigFault Config
  | .null | .undefined => .ok {}
  | .record fields => ofFields fields
  | _ => .error .noMapping

def fileName : String := "weft.yaml"

def ofText (s : String) : Except ConfigFault Config :=
  match Yaml.ofText? s with
  | none => .error (.notYaml "not well formed")
  | some v => ofValue v

/-- Reads the file that was found, if there is one. -/
def ofStatus : Files.Status → Except ConfigFault (Option Config)
  | .absent | .failed _ => .ok none
  | .directory _ _ => .error (.unreadable "EISDIR: illegal operation on a directory, read")
  | .file _ bytes _ => (ofText (Text.decodeUtf8 bytes)).map some

/-- The configuration of a base directory, or of the file that was asked for: that one has to be there. -/
def load (t : Files.Tree) (cwd base : Files.Path) (asked : Option String) : Except ConfigFault (Option Config) := do
  match asked with
  | none => ofStatus (t.status (base ++ [fileName]))
  | some written =>
    match ← ofStatus (t.follow cwd written) with
    | none => .error (.missingFile written)
    | some c => return some c

/-- The loaded configuration or the defaults, with the language that was asked for. -/
def resolve (t : Files.Tree) (cwd base : Files.Path) (asked language : Option String) : Except ConfigFault Config := do
  let c := (← load t cwd base asked).getD {}
  return match language with
    | some tag => { c with defaultLanguage := tag }
    | none => c

end Config

end ScriptedText.CommandLine
