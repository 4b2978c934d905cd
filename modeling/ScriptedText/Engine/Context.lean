import ScriptedText.Language.Dialogue
import ScriptedText.OrderedMap

/-!
What programs share while they run: writers, variables, services, attributes, and what each adapter keeps.
-/

namespace ScriptedText

inductive Attribute
  | text (s : String)
  | executed (documents : List String)

def Attribute.display : Attribute → String
  | .text s => s
  | .executed _ => "[object Set]"

structure Context where
  out : String := ""
  err : String := ""
  bindings : OrderedMap String Value := ∅
  services : OrderedMap String Service := ∅
  attributes : OrderedMap String Attribute := ∅
  /-- The adapter of the program that was started last. -/
  adapter : Option AdapterId := none
  /-- Set while the context is claimed: hooks and services are then left alone. -/
  immutable : Bool := false
  notes : OrderedMap AdapterId (OrderedMap NoteKey Note) := ∅

namespace Context

instance : Inhabited Context := ⟨{}⟩

def write (c : Context) (stream : Stream) (text : String) : Context :=
  match stream with
  | .out => { c with out := c.out ++ text }
  | .err => { c with err := c.err ++ text }

/-- The attribute that lists the documents which were run at most once. -/
def executedAttribute : String := "weft.documentService.executed"

def executed? (c : Context) : Option (List String) :=
  match c.attributes.get? executedAttribute with
  | some (.executed names) => some names
  | _ => none

/-- Lists a document as executed. The flag is false when it was listed before. -/
def markExecuted (c : Context) (name : String) : Context × Bool :=
  let names := c.executed?.getD []
  if names.contains name then (c, false)
  else ({ c with attributes := c.attributes.insert executedAttribute (.executed (names ++ [name])) }, true)

def notesOf (c : Context) (a : AdapterId) : OrderedMap NoteKey Note := (c.notes.get? a).getD ∅

def putNote (c : Context) (a : AdapterId) (key : NoteKey) (n : Note) : Context :=
  { c with notes := c.notes.insert a ((c.notesOf a).insert key n) }

/-- Puts a service under a name, or takes away what is there. -/
def setService (c : Context) (name : String) (s : Option Service) : Context :=
  match s with
  | some s => { c with services := c.services.insert name s }
  | none => { c with services := c.services.erase name }

end Context

end ScriptedText
