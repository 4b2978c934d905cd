import ScriptedText.Document.Segment
import ScriptedText.Language.Dialogue

/-!
A language as the engine sees it.
-/

namespace ScriptedText

structure AdapterInfo where
  name : String
  version : String
  languageName : String
  tags : List String
  extensions : List String
  defaultTag : String
  defaultExtension : String

/-- A language adapter. Adapters that are not `threadSafe` run under the lock of their registration. -/
structure Adapter where
  info : AdapterInfo
  threadSafe : Bool
  /-- Whether its calls are put on record among the events. -/
  observed : Bool := false
  /-- The forms of shorthands, for an executable that is exposed under the given name. -/
  forms : String → SourceForms
  /-- Refuses source of which no program can be made. -/
  create : String → Except Failure Unit := fun _ => .ok ()
  /-- Refuses source that does not compile. -/
  prepare : String → Except Failure Unit
  /-- The program of a source, for an executable that is exposed under the given name. -/
  run : String → String → Dialogue Unit
  /-- Calls an entry point that earlier programs of the context defined, where the language has such. -/
  enter : Option (String → List Value → Dialogue Value) := none
  /-- Whether it frees what it keeps for a context that is released. -/
  releases : Bool := false

end ScriptedText
