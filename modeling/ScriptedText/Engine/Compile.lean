import ScriptedText.Document.Collapse
import ScriptedText.Document.Reading
import ScriptedText.Engine.Cache

/-!
Compilation: a document becomes an executable. Scriptlet bodies that are documents of their own are compiled on the
way and registered in the source, whether or not the rest of the document turns out well.
-/

namespace ScriptedText

/-- Steps that change the world, also where they fail. -/
abbrev Act := ExceptT Failure (StateM World)

/-- A document to compile. -/
structure Draft extends Compilation where
  document : String
  registered : String
  text : String
  /-- Text with scriptlets, or else the source of one program. -/
  isText : Bool := true
  partition : String := ""
  timestamp : Option Int := none
  /-- Where scriptlet bodies are registered. Without it they are programs at their places. -/
  source : Option SourceId := none

namespace Draft

variable (o : Draft)

/-- The draft of a scriptlet body. -/
def body (r : Request) (name : String) : Draft :=
  { o with
    document := o.document ++ "/" ++ name
    registered := name
    text := String.ofList r.source
    tag := r.tag
    isText := true }

def site (p : Place) : Site := ⟨o.document, p.line, p.column⟩

/-- The delimiters of a document that has none of its own. -/
def firstStyle : Delimiters := o.styles.head?.getD .percent

end Draft

/-- A document cut into segments: its delimiters, and the names that its bodies got. -/
structure Parsed where
  segments : List RawSegment
  delimiters : Delimiters
  names : List String := []

def nextInFlowName : Act String := do
  let w ← get
  set { w with inFlowCount := w.inFlowCount + 1 }
  return Document.inFlowName w.inFlowCount

/-- Makes a body a document of its own; `inner` compiles it. -/
def placeRequest (inner : Draft → Act ExecutableId) (o : Draft) (r : Request) : Act (RawSegment × Option String) := do
  let name ← nextInFlowName
  let e ← tryCatch (inner (o.body r name)) fun f => throw (f.within (o.site r.place))
  if let some s := o.source then
    modify fun w => (w.setDocument s name (String.ofList r.source) "" (some e)).1
  return (r.inclusion name, some name)

def placePart (inner : Draft → Act ExecutableId) (o : Draft) : Part → Act (RawSegment × Option String)
  | .segment s => return (s, none)
  | .request r => placeRequest inner o r

def parseText (inner : Draft → Act ExecutableId) (o : Draft) : Act Parsed := do
  let reading := Reading.ofDocument o.styles o.tag o.source.isSome o.text.toList
  if reading.ending = .endless then throw .endless
  let placed ← reading.parts.mapM (placePart inner o)
  if let some f := reading.failure? o.document then throw f
  return { segments := placed.map Prod.fst, delimiters := reading.delimiters.getD o.firstStyle
           names := placed.filterMap Prod.snd }

/-- Pure source is one program, if there is any. -/
def parseSource (o : Draft) : Parsed :=
  { segments := if o.text = "" then [] else [⟨.plain, o.tag, 1, 1, o.text⟩], delimiters := o.firstStyle }

/-- Collapsed segments; a document without any has one that is empty. -/
def collapsed (forms : FormTable) (tag : String) (segments : List RawSegment) : List Segment :=
  match collapse forms (segments.map (RawSegment.lower forms)) with
  | [] => [⟨false, tag, 1, 1, ""⟩]
  | list => list

def placeAll (segments : List Segment) : List PlacedSegment :=
  segments.zipIdx.map fun (s, i) => { toSegment := s, position := i }

/-- What an adapter has against a program; preparing it goes on record. -/
def checkProgram (a : Adapter) (prepare : Bool) (source : String) : Act Unit := do
  liftExcept (a.create source)
  if prepare then
    if a.observed then modify (·.emit (.prepared a.info.defaultTag source))
    liftExcept (a.prepare source)
where
  liftExcept (x : Except Failure Unit) : Act Unit :=
    match x with
    | .ok _ => return ()
    | .error f => throw f

/-- A refusal of a program as a fault at its site. A parsing fault that has a site keeps that one. -/
def refused (tag : String) (site : Site) : Failure → Failure
  | .fault f =>
    if f.kind = .parsing then .fault (if f.sites = [] then f.within site else f)
    else (Problem.programRejected tag f.message).failure [site]
  | .endless => .endless
  | f => (Problem.programRejected tag f.describe).failure [site]

/-- Gives a program segment its program. -/
def resolveSegment (o : Draft) (s : PlacedSegment) : Act PlacedSegment := do
  if !s.isProgram then return s
  let site := s.site o.document
  match (← get).registry.adapterForTag? s.tag with
  | none => throw ((Problem.adapterMissing s.tag).failure [site])
  | some a =>
    tryCatch (checkProgram a o.prepare s.text) fun f => throw (refused s.tag site f)
    return { s with program := some s.text }

def construct (inner : Draft → Act ExecutableId) (o : Draft) : Act Executable := do
  let w ← get
  let parsed ← if o.isText then parseText inner o else pure (parseSource o)
  let segments := placeAll (collapsed (w.registry.forms o.exposed) o.tag parsed.segments)
  return {
    name := o.document, registered := o.registered, partition := o.partition
    timestamp := o.timestamp.getD w.clock, exposed := o.exposed, delimiters := parsed.delimiters
    segments := ← segments.mapM (resolveSegment o), dependencies := parsed.names }

/-- Compiles a document, with `inner` for the documents inside it, and reports how that went. -/
def compileWith (inner : Draft → Act ExecutableId) (o : Draft) : Act ExecutableId := do
  let x ← tryCatch (construct inner o) fun f => do
    modify (·.reportFailure o.document f)
    throw f
  modifyGet fun w => let (w, e) := w.addExecutable x; (e, w.emit (.compiled o.document x.segments.length))

/-- Compiles a document in which bodies are nested at most `depth` deep. -/
def compileWithin : Nat → Draft → Act ExecutableId
  | 0 => fun _ => throw .endless
  | depth + 1 => compileWith (compileWithin depth)

/-- Compiles a document. Bodies are shorter than what they stand in, so they are not nested deeper than that is
long. -/
def compile (o : Draft) : Act ExecutableId := compileWithin (o.text.length + 1) o

def World.compile (w : World) (o : Draft) : World × Except Failure ExecutableId :=
  let (r, w) := (ScriptedText.compile o).run.run w
  (w, r)

end ScriptedText
