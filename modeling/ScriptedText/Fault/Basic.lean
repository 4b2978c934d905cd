import ScriptedText.Fault.Catalogue
import ScriptedText.Fault.Template
import ScriptedText.Value.Basic

/-!
Faults: what went wrong, with the stack of document sites that it passed, and failures in general, which also
come from programs and hooks that know nothing of faults.
-/

namespace ScriptedText

/-- A line and column in a named document, as whoever names the site counts them. -/
structure Site where
  document : String
  line : Int
  column : Int
  deriving DecidableEq, Repr

/-- What a fault is an instance of. Two kinds carry the name that was looked for. -/
inductive FaultKind
  | general
  | parsing
  | execution
  | entryPointMissing (name : String)
  | document
  | documentMissing (name : String)
  deriving DecidableEq, Repr

/-- A fault. Its sites go from the innermost outwards. `caused` says that another failure stands behind it. -/
structure Fault where
  kind : FaultKind
  code : Code
  message : String
  sites : List Site := []
  details : Option (List (String × Value)) := none
  caused : Bool := false

namespace Fault

/-- Records one more enclosing site. -/
def within (f : Fault) (s : Site) : Fault := { f with sites := f.sites ++ [s] }

def render (code : Code) (details : List (String × Value)) : String :=
  Template.render (Value.textUnder? details) code.definition.template

end Fault

/-- What leaves an operation that did not succeed. An `endless` one never comes to an end. -/
inductive Failure
  | fault (f : Fault)
  | error (message : String)
  | misuse (message : String)
  | thrown (text : String)
  | endless

namespace Failure

def describe : Failure → String
  | .fault f => f.message
  | .error m => m
  | .misuse m => m
  | .thrown t => t
  | .endless => ""

/-- The site is recorded on a fault and lost on anything else. -/
def within (s : Site) : Failure → Failure
  | .fault f => .fault (f.within s)
  | e => e

/-- The stack of a failure: empty for one that is no fault. -/
def sites : Failure → List Site
  | .fault f => f.sites
  | _ => []

end Failure

/-- The problems that the engine itself reports. -/
inductive Problem
  | unclosedScriptlet (delimiter : String)
  | adapterMissing (tag : String)
  | programRejected (tag reason : String)
  | programFailed (reason : String)
  | entryFailed (reason entryPoint : String)
  | notEnterable (name : String)
  | entryPointMissing (name : String)
  | notSupported (operation : String)
  | documentMissing (name : String)
  | documentUnreadable (name reason : String)
  deriving DecidableEq, Repr

namespace Problem

def code : Problem → Code
  | .unclosedScriptlet _ => .unclosedScriptlet
  | .adapterMissing _ => .adapterMissing
  | .programRejected _ _ => .programRejected
  | .programFailed _ => .programFailed
  | .entryFailed _ _ => .programFailed
  | .notEnterable _ => .notEnterable
  | .entryPointMissing _ => .entryPointMissing
  | .notSupported _ => .notSupported
  | .documentMissing _ => .documentMissing
  | .documentUnreadable _ _ => .documentUnreadable

def details : Problem → List (String × Value)
  | .unclosedScriptlet d => [("delimiter", .text d)]
  | .adapterMissing t => [("tag", .text t)]
  | .programRejected t r => [("tag", .text t), ("reason", .text r)]
  | .programFailed r => [("reason", .text r)]
  | .entryFailed r e => [("reason", .text r), ("entryPoint", .text e)]
  | .notEnterable n => [("name", .text n)]
  | .entryPointMissing n => [("entryPoint", .text n)]
  | .notSupported o => [("operation", .text o)]
  | .documentMissing n => [("name", .text n)]
  | .documentUnreadable n r => [("name", .text n), ("reason", .text r)]

def kind : Problem → FaultKind
  | .unclosedScriptlet _ | .adapterMissing _ | .programRejected _ _ => .parsing
  | .programFailed _ | .entryFailed _ _ | .notEnterable _ | .notSupported _ => .execution
  | .entryPointMissing n => .entryPointMissing n
  | .documentMissing n => .documentMissing n
  | .documentUnreadable _ _ => .document

/-- Problems that pass on the failure of a program or of a file. -/
def caused : Problem → Bool
  | .programRejected _ _ | .programFailed _ | .entryFailed _ _ | .documentUnreadable _ _ => true
  | _ => false

def message (p : Problem) : String := Fault.render p.code p.details

def fault (p : Problem) (sites : List Site := []) : Fault :=
  { kind := p.kind, code := p.code, message := p.message, sites, details := some p.details, caused := p.caused }

def failure (p : Problem) (sites : List Site := []) : Failure := .fault (p.fault sites)

example : (documentMissing "\x7bname\x7d").message = "Document not found: \x7bname\x7d" := by decide +kernel

end Problem

end ScriptedText
