import ScriptedText.Files.Lookup
import ScriptedText.Ids
import ScriptedText.OrderedMap

/-!
Documents that a source keeps, and the sources.
-/

namespace ScriptedText

inductive Validity
  | unknown
  | valid
  | invalid
  deriving DecidableEq, Repr

def Validity.name : Validity → String
  | .unknown => "unknown"
  | .valid => "valid"
  | .invalid => "invalid"

structure Document where
  name : String
  text : String
  /-- A file extension or other hint at the language. -/
  tag : String
  /-- The time of its file, or when it was registered. -/
  timestamp : Int
  file : Option Files.Path := none
  source : SourceId
  /-- Names of documents whose invalidity makes this one invalid. -/
  dependencies : List String := []
  executable : Option ExecutableId := none
  validity : Validity := .unknown
  /-- When its file was last looked at. -/
  lastCheck : Int

instance : Inhabited Document := ⟨{ name := "", text := "", tag := "", timestamp := 0, source := ⟨0⟩, lastCheck := 0 }⟩

namespace Document

/-- Records a dependency, once. A document does not depend on itself. -/
def addDependency (d : Document) (name : String) : Document :=
  if name = d.name || d.dependencies.contains name then d
  else { d with dependencies := d.dependencies ++ [name] }

def addDependencies (d : Document) (names : List String) : Document := names.foldl addDependency d

def invalidate (d : Document) : Document := { d with validity := .invalid }

/-- How names of documents start that were made from scriptlet bodies. -/
def inFlowMark : String := "_IN_FLOW_"

def inFlowName (n : Nat) : String := inFlowMark ++ toString n

def isInFlow (name : String) : Bool := Text.startsWith name inFlowMark

def inFlowDependencies (d : Document) : List String := d.dependencies.filter isInFlow

end Document

inductive Storage
  | memory (identifier : String)
  /-- Files, whose times are looked at once per interval, or never when that is -1. -/
  | files (naming : Files.Naming) (interval : Int)

/-- A source of documents: those that it keeps by name, and by the file that they were read from. -/
structure Source where
  storage : Storage
  byName : OrderedMap String DocumentId := ∅
  byFile : OrderedMap Files.Path DocumentId := ∅

namespace Source

instance : Inhabited Source := ⟨{ storage := .memory "" }⟩

/-- The time between two looks at a file. Memory has nothing to look at. -/
def interval (s : Source) : Int :=
  match s.storage with
  | .memory _ => -1
  | .files _ interval => interval

/-- Forgets a document under all names and files. -/
def forget (s : Source) (d : DocumentId) : Source :=
  { s with byName := (s.byName.eraseValue d).1, byFile := (s.byFile.eraseValue d).1 }

end Source

end ScriptedText
