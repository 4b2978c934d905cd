import ScriptedText.Engine.Compile

/-!
A task: a call of the engine with what it still has to do, as a stack of frames. Each frame waits for the reply of
what runs above it. Tasks take turns only where one of them waits for a reply.
-/

namespace ScriptedText

/-- What a hook comes to, if there is one. -/
abbrev Hook := Option (Except Failure Unit)

/-- Hooks around a run as a whole. -/
structure Hooks where
  before : Hook := none
  after : Hook := none

/-- One run of an executable on a context. -/
structure Run where
  executable : ExecutableId
  context : ContextId
  container : Option Container := none
  hooks : Hooks := {}

structure RunOptions where
  /-- Does nothing if the executable has run before. -/
  unlessRan : Bool := false
  /-- Does nothing while the last run is younger than the cache duration. -/
  unlessCached : Bool := false

inductive Call
  | execute (run : Run) (options : RunOptions)
  | makeEnterable (run : Run)
  | enter (e : ExecutableId) (entryPoint : String) (args : List Value)
  | isValid (d : DocumentId) (visited : List DocumentId)
  | getDocument (s : SourceId) (name : String)
  | getDocuments (s : SourceId)
  | createOnce (s : SourceId) (name : String) (isText : Bool) (compilation : Compilation)
  | getExecutable (name : String) (isText : Bool)
  | include (name : String) (c : ContextId)
  | runSource (name : String) (c : ContextId)
  | runOnce (name : String) (c : ContextId)

inductive Reply
  | nothing
  | flag (b : Bool)
  | value (v : Value)
  | document (d : DocumentId)
  | documents (ds : List DocumentId)
  | executable (e : ExecutableId)
  /-- Whether a document is valid, and which ones were looked at on the way. -/
  | validity (isValid : Bool) (visited : List DocumentId)

def Reply.isTrue : Reply → Bool
  | .flag b => b
  | _ => false

abbrev Outcome := Except Failure Reply

/-- Who speaks in a dialogue with the engine. -/
structure Speaker where
  executable : ExecutableId
  context : ContextId
  adapter : AdapterId

/-- A call of an entry point. -/
structure Entry where
  speaker : Speaker
  name : String
  args : List Value

/-- What is done inside an adapter. -/
inductive Inside
  | program (run : Run) (s : PlacedSegment) (a : AdapterId)
  | entry (e : Entry)

def Inside.context : Inside → ContextId
  | .program run _ _ => run.context
  | .entry e => e.speaker.context

/-- The service that a program found under its executable's exposed name, to be put back after it. -/
structure Swap where
  name : String
  previous : Option Service

inductive Frame
  /-- The hook before a run. -/
  | initialized (run : Run)
  /-- A segment of a run; the others follow. -/
  | segment (run : Run) (rest : List PlacedSegment)
  /-- The hook after a run that came to `outcome`. -/
  | finalized (run : Run) (outcome : Except Failure Unit)
  | program (run : Run) (site : Site) (swap : Option Swap)
  /-- The lock is being taken. -/
  | granted (r : RegistrationId) (inside : Inside)
  | holding (r : RegistrationId)
  | claiming (run : Run)
  | entering (name : String)
  | conversation (s : Speaker) (k : Outcome → Dialogue Reply)
  /-- The dependency of `d` at place `i` is being checked. -/
  | dependency (d : DocumentId) (i : Nat)
  /-- The file of `d` is being looked at. -/
  | fileTime (d : DocumentId) (visited : List DocumentId)
  | named (s : SourceId) (name : String) (d : DocumentId)
  | resolving (s : SourceId) (name : String)
  | filed (s : SourceId) (name : String) (file : Files.Path) (d : DocumentId)
  | reading (s : SourceId) (name : String) (file : Files.Path)
  | listing (s : SourceId)
  | collecting (s : SourceId) (names : List String) (found : List DocumentId)
  | creating (s : SourceId) (name : String) (isText : Bool) (compilation : Compilation)
  | searching (libraries : List SourceId) (name : String) (isText : Bool) (compilation : Compilation)
  | fetched (name : String) (isText : Bool) (c : ContextId)
  | included
  | ranOnce

inductive Control
  | call (c : Call)
  | settled (o : Outcome)
  | talking (s : Speaker) (d : Dialogue Reply)
  | waiting

structure Task where
  stack : List Frame := []
  control : Control

/-- One step of a task: the world after it, frames that go on the stack, the first on top, what comes next, and
the tasks that need not wait any more. -/
structure Move where
  world : World
  push : List Frame := []
  control : Control
  wake : List TaskId := []

namespace Move

variable (w : World)

def settle (o : Outcome) (push : List Frame := []) : Move := { world := w, push, control := .settled o }

def reply (r : Reply) : Move := settle w (.ok r)

def refuse (f : Failure) : Move := settle w (.error f)

/-- Does nothing but wait for its turn, below `push`. -/
def pass (push : List Frame) : Move := settle w (.ok .nothing) push

def call (c : Call) (push : List Frame) : Move := { world := w, push, control := .call c }

def say (s : Speaker) (d : Dialogue Reply) (push : List Frame) : Move :=
  { world := w, push, control := .talking s d }

/-- Puts frames below those that the move puts on the stack. -/
def under (m : Move) (frames : List Frame) : Move := { m with push := m.push ++ frames }

end Move

end ScriptedText
