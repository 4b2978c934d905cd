import ScriptedText.Engine.Task

/-!
Running documents by name on behalf of a program: from the main source, or else from the first library that has
them.
-/

namespace ScriptedText

namespace World

/-- Records the document on the one whose program asks for it, if that is a document of the main source. -/
def recordDependency (w : World) (host : Host) (name : String) (c : ContextId) : World :=
  match Service.handle? ((w.context c).services.get? host.compilation.exposed) with
  | none => w
  | some h =>
    let x := w.executable h.executable
    if x.partition = w.identifier host.main then
      match w.cached? host.main x.registered with
      | some d => w.modifyDocument d (·.addDependency name)
      | none => w
    else w

end World

namespace Move

variable (w : World)

def noHost : Failure := .misuse "No document host"

def searchIn (s : SourceId) (libraries : List SourceId) (name : String) (isText : Bool) (compilation : Compilation) :
    Move :=
  call w (.createOnce s name isText compilation) [.searching libraries name isText compilation]

def getExecutable (name : String) (isText : Bool) : Move :=
  match w.host with
  | none => refuse w noHost
  | some host => searchIn w host.main host.libraries name isText host.compilation

/-- A document that is missing in one source is looked for in the next. Any other failure is final. -/
def afterSearching (libraries : List SourceId) (name : String) (isText : Bool) (compilation : Compilation)
    (o : Outcome) : Move :=
  match o, libraries with
  | .error (.fault f), s :: rest =>
    match f.kind with
    | .documentMissing _ => searchIn w s rest name isText compilation
    | _ => settle w o
  | _, _ => settle w o

/-- Fetches a document to run it: as text that is included, or as source. -/
def fetch (name : String) (isText : Bool) (c : ContextId) : Move :=
  call w (.getExecutable name isText) [.fetched name isText c]

def afterFetched (name : String) (isText : Bool) (c : ContextId) (e : ExecutableId) : Move :=
  let w := match w.host with
    | some host => if isText then w.recordDependency host name c else w
    | none => w
  call w (.execute { executable := e, context := c, container := some .host } {}) [.included]

/-- Lists a document as executed on the context. The flag is false when it was listed before. -/
def markExecuted (name : String) (c : ContextId) : World × Bool :=
  let (x, fresh) := (w.context c).markExecuted name
  (w.modifyContext c fun _ => x, fresh)

def runOnce (name : String) (c : ContextId) : Move :=
  match markExecuted w name c with
  | (w, false) => reply w (.flag false)
  | (w, true) => call w (.runSource name c) [.ranOnce]

end Move

end ScriptedText
