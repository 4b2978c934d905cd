/-!
The catalogue of faults: a code per kind of fault, with its wording and advice.
-/

namespace ScriptedText

inductive Category
  | parse
  | execution
  | document
  deriving DecidableEq, Repr

def Category.name : Category → String
  | .parse => "parse"
  | .execution => "execution"
  | .document => "document"

inductive Code
  | unclosedScriptlet
  | adapterMissing
  | programRejected
  | programFailed
  | notEnterable
  | entryPointMissing
  | notSupported
  | documentMissing
  | documentUnreadable
  deriving DecidableEq, Repr

structure Definition where
  id : String
  category : Category
  description : String
  template : String
  cause : String
  resolution : String

namespace Code

/-- All codes in the order of the catalogue. -/
def all : List Code :=
  [.unclosedScriptlet, .adapterMissing, .programRejected, .programFailed, .notEnterable, .entryPointMissing,
    .notSupported, .documentMissing, .documentUnreadable]

def definition : Code → Definition
  | .unclosedScriptlet =>
    { id := "WEFT-P001"
      category := .parse
      description := "Unterminated scriptlet"
      template := "Scriptlet missing closing delimiter \x7bdelimiter\x7d"
      cause := "A scriptlet was opened with a start delimiter but the document ends before the matching end " ++
        "delimiter."
      resolution := "Close the scriptlet with the end delimiter of the style the document uses (%> or ?>)." }
  | .adapterMissing =>
    { id := "WEFT-P002"
      category := .parse
      description := "Adapter not found"
      template := "Adapter not found: \x7btag\x7d"
      cause := "A scriptlet names a language tag for which no adapter is registered."
      resolution := "Register an adapter for the tag in the language registry, or fix the tag after the " ++
        "opening delimiter." }
  | .programRejected =>
    { id := "WEFT-P003"
      category := .parse
      description := "Program preparation failed"
      template := "Could not prepare \x7btag\x7d program: \x7breason\x7d"
      cause := "The language adapter rejected the scriptlet source code."
      resolution := "Fix the syntax of the scriptlet in the reported language." }
  | .programFailed =>
    { id := "WEFT-E001"
      category := .execution
      description := "Program failed"
      template := "\x7breason\x7d"
      cause := "A program raised an error while executing."
      resolution := "Inspect the stack frames to find the failing scriptlet." }
  | .notEnterable =>
    { id := "WEFT-E002"
      category := .execution
      description := "Executable not enterable"
      template := "Executable \x7bname\x7d has no enterable context"
      cause := "enter() was called before makeEnterable() succeeded, or after release()."
      resolution := "Call makeEnterable() with a context before entering." }
  | .entryPointMissing =>
    { id := "WEFT-E003"
      category := .execution
      description := "Entry point not found"
      template := "No such entry point: \x7bentryPoint\x7d"
      cause := "The adapter could not find a function, closure or method with the requested name."
      resolution := "Define the entry point in the document, or call a different name." }
  | .notSupported =>
    { id := "WEFT-E004"
      category := .execution
      description := "Include not supported"
      template := "Container does not support \x7boperation\x7d"
      cause := "A program asked to include or execute a document but the executable runs without a document " ++
        "container."
      resolution := "Pass a DocumentService (or another container with include/execute) to execute()." }
  | .documentMissing =>
    { id := "WEFT-D001"
      category := .document
      description := "Document not found"
      template := "Document not found: \x7bname\x7d"
      cause := "No document with this name exists in the document source."
      resolution := "Check the document name and the base path of the source." }
  | .documentUnreadable =>
    { id := "WEFT-D002"
      category := .document
      description := "Document read failure"
      template := "Could not read document \x7bname\x7d: \x7breason\x7d"
      cause := "The backing file exists but could not be read."
      resolution := "Check file permissions and encoding." }

def id (c : Code) : String := c.definition.id

def category (c : Code) : Category := c.definition.category

def ofId? (id : String) : Option Code := all.find? (·.id = id)

theorem mem_all (c : Code) : c ∈ all := by cases c <;> decide

theorem ofId?_id (c : Code) : ofId? c.id = some c := by cases c <;> decide +kernel

end Code

end ScriptedText
