import ScriptedText.Engine.Context
import ScriptedText.Engine.Document
import ScriptedText.Engine.Executable
import ScriptedText.Engine.Lock
import ScriptedText.Language.Registry

/-!
Everything an engine keeps, in tables by number, and the events that it reports.
-/

namespace ScriptedText

inductive Eviction
  | replaced
  | invalid
  deriving DecidableEq, Repr

def Eviction.name : Eviction → String
  | .replaced => "replaced"
  | .invalid => "invalid"

inductive Event
  | compiled (document : String) (segments : Nat)
  | started (document : String) (runs : Nat)
  | ended (document : String)
  | failed (document message : String)
  | evicted (document : String) (reason : Eviction)
  | initialized (c : ContextId)
  | finalized (c : ContextId)
  | prepared (tag source : String)
  | ran (tag document : String) (line column : Nat)
  | released (tag : String) (c : ContextId)
  deriving DecidableEq, Repr

/-- How the documents of a source are compiled on demand. -/
structure Compilation where
  /-- The language of documents whose tag tells none. -/
  tag : String
  prepare : Bool := false
  exposed : String := "executable"
  styles : List Delimiters := Delimiters.standard

/-- Where programs find the documents that they run: a main source, then libraries in order. -/
structure Host where
  main : SourceId
  libraries : List SourceId := []
  compilation : Compilation

structure World where
  clock : Int := 0
  tree : Files.Tree
  registry : Registry := {}
  locks : OrderedMap RegistrationId (Lock ContextId TaskId) := ∅
  sources : List Source := []
  documents : List Document := []
  executables : List Executable := []
  contexts : List Context := []
  host : Option Host := none
  /-- How many scriptlet bodies were made documents so far. -/
  inFlowCount : Nat := 0
  events : List Event := []
  openGates : List String := []
  /-- Tasks that wait for a gate, in order of arrival. -/
  waiters : List (String × TaskId) := []

namespace World

variable (w : World)

/-! A number that stands for nothing reads as an empty thing. -/

def source (s : SourceId) : Source := w.sources[s.index]?.getD default

def document (d : DocumentId) : Document := w.documents[d.index]?.getD default

def executable (e : ExecutableId) : Executable := w.executables[e.index]?.getD default

def context (c : ContextId) : Context := w.contexts[c.index]?.getD default

def lock (r : RegistrationId) : Lock ContextId TaskId := (w.locks.get? r).getD default

def modifySource (s : SourceId) (f : Source → Source) : World :=
  { w with sources := w.sources.modify s.index f }

def modifyDocument (d : DocumentId) (f : Document → Document) : World :=
  { w with documents := w.documents.modify d.index f }

def modifyExecutable (e : ExecutableId) (f : Executable → Executable) : World :=
  { w with executables := w.executables.modify e.index f }

def modifyContext (c : ContextId) (f : Context → Context) : World :=
  { w with contexts := w.contexts.modify c.index f }

def setLock (r : RegistrationId) (l : Lock ContextId TaskId) : World :=
  { w with locks := w.locks.insert r l }

def addSource (s : Source) : World × SourceId :=
  ({ w with sources := w.sources ++ [s] }, ⟨w.sources.length⟩)

def addDocument (d : Document) : World × DocumentId :=
  ({ w with documents := w.documents ++ [d] }, ⟨w.documents.length⟩)

def addExecutable (x : Executable) : World × ExecutableId :=
  ({ w with executables := w.executables ++ [x] }, ⟨w.executables.length⟩)

def addContext (c : Context) : World × ContextId :=
  ({ w with contexts := w.contexts ++ [c] }, ⟨w.contexts.length⟩)

def emit (e : Event) : World := { w with events := w.events ++ [e] }

/-- Reports a failure of a document. Text that a program threw is not reported. -/
def reportFailure (document : String) (f : Failure) : World :=
  match f with
  | .thrown _ | .endless => w
  | f => w.emit (.failed document f.describe)

def adapter? (a : AdapterId) : Option Adapter := w.registry.adapter? a

/-- The namespace of a source, which its executables belong to. -/
def identifier (s : SourceId) : String :=
  match (w.source s).storage with
  | .memory identifier => identifier
  | .files naming _ => w.tree.spell naming.base

/-- The document that a source keeps under a name. -/
def cached? (s : SourceId) (name : String) : Option DocumentId := (w.source s).byName.get? name

end World

end ScriptedText
