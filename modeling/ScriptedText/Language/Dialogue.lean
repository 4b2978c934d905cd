import ScriptedText.Fault.Basic
import ScriptedText.Ids

/-!
What a running program asks of its host. A program is a tree: it is done, it has failed, or it asks something
and goes on with the answer. So a host may let any amount of time pass before it answers.
-/

namespace ScriptedText

inductive Stream
  | out
  | err
  deriving DecidableEq, Repr

/-- How a program runs another document: as text with scriptlets, or as pure source. -/
inductive CallMode
  | include
  | execute
  deriving DecidableEq, Repr

def CallMode.name : CallMode → String
  | .include => "include"
  | .execute => "execute"

/-- Who runs other documents on behalf of a program: the document host, or a stand-in that can only include and
writes the name of the document. -/
inductive Container
  | host
  | bare
  deriving DecidableEq, Repr

/-- The handle of a running executable: the service that its programs find under its exposed name. -/
structure Handle where
  executable : ExecutableId
  context : ContextId
  container : Option Container
  deriving DecidableEq, Repr

inductive Service
  | value (v : Value)
  | handle (h : Handle)

namespace Service

def display : Service → String
  | .value v => v.display
  | .handle _ => "[object Object]"

def handle? : Option Service → Option Handle
  | some (.handle h) => some h
  | _ => none

end Service

/-- What an adapter keeps for a context between programs: a value, a handle, a routine that a program defined (its
text, its name and the scope of the program), something that the language has from the start, the standing of a
service that is looked up when it is used, or what is there to be waited for. -/
inductive Note
  | value (v : Value)
  | handle (h : Handle)
  | routine (text name : String) (scope : Nat)
  | standard (name : String)
  | service
  | later (n : Note)

/-- A name and the scope that it belongs to. The first scope is shared by all programs; a program may have one of
its own. -/
structure NoteKey where
  scope : Nat
  name : String
  deriving DecidableEq, Repr

def NoteKey.shared (name : String) : NoteKey := ⟨0, name⟩

inductive Ask
  | write (stream : Stream) (text : String)
  | bindings
  | setVariable (name : String) (v : Value)
  | attribute (name : String)
  | setAttribute (name text : String)
  | services
  | setService (name : String) (v : Value)
  | documentName (h : Handle)
  | runs
  | call (h : Handle) (mode : CallMode) (name : String)
  | callOnce (h : Handle) (name : String)
  | gate (name : String)
  | notes
  | putNote (key : NoteKey) (n : Note)
  | pause

/-- The type of the answer to each question. -/
def Ask.Answer : Ask → Type
  | .bindings => List (String × Value)
  | .attribute _ => Option String
  | .services => List (String × Service)
  | .documentName _ => String
  | .runs => Nat
  | .call _ _ _ => Except Failure Unit
  | .callOnce _ _ => Except Failure Bool
  | .notes => List (NoteKey × Note)
  | _ => Unit

inductive Dialogue (α : Type) : Type
  | done (a : α)
  | fail (f : Failure)
  | ask (q : Ask) (k : q.Answer → Dialogue α)

namespace Dialogue

variable {α β : Type}

def bind : Dialogue α → (α → Dialogue β) → Dialogue β
  | .done a, f => f a
  | .fail e, _ => .fail e
  | .ask q k, f => .ask q fun r => (k r).bind f

instance : Monad Dialogue where
  pure := .done
  bind := bind

instance : Inhabited (Dialogue α) := ⟨.fail .endless⟩

def pose (q : Ask) : Dialogue q.Answer := .ask q .done

def write (text : String) : Dialogue Unit := pose (.write .out text)

def documentName (h : Handle) : Dialogue String := pose (.documentName h)

def attribute? (name : String) : Dialogue (Option String) := pose (.attribute name)

/-- How often the program's executable has run to its end. -/
def runs : Dialogue Nat := pose .runs

def gate (name : String) : Dialogue Unit := pose (.gate name)

def putNote (key : NoteKey) (n : Note) : Dialogue Unit := pose (.putNote key n)

/-- Lets others go on first. -/
def pause : Dialogue Unit := pose .pause

def ofExcept : Except Failure α → Dialogue α
  | .ok a => .done a
  | .error e => .fail e

/-- Runs another document. A failure of that document becomes the program's own. -/
def call (h : Handle) (mode : CallMode) (name : String) : Dialogue Unit := do
  ofExcept (← pose (.call h mode name))

def callOnce (h : Handle) (name : String) : Dialogue Bool := do
  ofExcept (← pose (.callOnce h name))

def error (message : String) : Dialogue α := .fail (.error message)

def problem (p : Problem) : Dialogue α := .fail p.failure

def variableValue (name : String) : Dialogue (Option Value) := do
  return (← pose .bindings).lookup name

def service? (name : String) : Dialogue (Option Service) := do
  return (← pose .services).lookup name

def note? (key : NoteKey) : Dialogue (Option Note) := do
  return (← pose .notes).lookup key

theorem bind_done (a : α) (f : α → Dialogue β) : (Dialogue.done a).bind f = f a := rfl

theorem bind_assoc {γ : Type} (m : Dialogue α) (f : α → Dialogue β) (g : β → Dialogue γ) :
    (m.bind f).bind g = m.bind fun a => (f a).bind g := by
  induction m with
  | done a => rfl
  | fail e => rfl
  | ask q k ih => simp only [bind, ih]

theorem bind_done_right (m : Dialogue α) : m.bind .done = m := by
  induction m with
  | done a => rfl
  | fail e => rfl
  | ask q k ih => simp only [bind, ih]

end Dialogue

end ScriptedText
