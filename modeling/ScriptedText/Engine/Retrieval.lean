import ScriptedText.Engine.Task

/-!
Getting a document from a source, by its name and then by its file; and the executable of a document, which is
compiled once.
-/

namespace ScriptedText.Move

variable (w : World) (s : SourceId) (name : String)

def keptByName (d : DocumentId) : Move :=
  let (w, winner) := w.keepByName s name d
  reply w (.document winner)

/-- Looks for a document by its name. -/
def getDocument : Move :=
  match w.cached? s name, (w.source s).storage with
  | some d, _ => call w (.isValid d []) [.named s name d]
  | none, .memory _ => refuse w (Problem.documentMissing name).failure
  | none, .files _ _ => pass w [.resolving s name]

/-- Goes on with the document of that name, which was found valid or not. -/
def afterNamed (d : DocumentId) (valid : Bool) : Move :=
  if valid then reply w (.document d)
  else
    match (w.source s).storage with
    | .memory _ =>
      let (w, fresh) := w.renew s name d
      reply w (.document fresh)
    | .files _ _ =>
      let old := w.document d
      let w := w.evict s d
      if old.file.isNone then
        let (w, fresh) := w.createDocument s name old.text old.tag none
        keptByName w s name fresh
      else pass w [.resolving s name]

/-- Looks for a document by the file that the name stands for. -/
def afterResolving : Move :=
  match (w.source s).storage with
  | .memory _ => refuse w (Problem.documentMissing name).failure
  | .files naming _ =>
    match naming.fileOf w.tree name with
    | .error f => refuse w f
    | .ok file =>
      match (w.source s).byFile.get? file with
      | some d => call w (.isValid d []) [.filed s name file d]
      | none => pass w [.reading s name file]

def afterFiled (file : Files.Path) (d : DocumentId) (valid : Bool) : Move :=
  if valid then keptByName w s name d else pass (w.evict s d) [.reading s name file]

/-- Reads a document from its file. -/
def afterReading (file : Files.Path) : Move :=
  match Files.Naming.read w.tree file name with
  | .error f => refuse w f
  | .ok (text, mtime) =>
    let (w, d) := w.addDocument
      { name, text, tag := Files.bareExtension (file.getLast?.getD ""), timestamp := mtime, file := some file
        source := s, lastCheck := w.clock }
    let (w, winner) := w.keepByFile s file d
    keptByName w s name winner

/-- All documents: those that memory has, or one for every file. -/
def getDocuments : Move :=
  match (w.source s).storage with
  | .memory _ => reply w (.documents (w.source s).byName.values)
  | .files _ _ => pass w [.listing s]

def collect (names : List String) (found : List DocumentId) : Move :=
  match names with
  | [] => reply w (.documents found)
  | name :: rest => call w (.getDocument s name) [.collecting s rest found]

def afterListing : Move :=
  match (w.source s).storage with
  | .memory _ => reply w (.documents [])
  | .files naming _ =>
    match naming.allNames w.tree with
    | .error f => refuse w f
    | .ok names => collect w s names []

/-- The draft of a document of the source. The language is that of its tag, where there is one. -/
def draftOf (d : DocumentId) (isText : Bool) (compilation : Compilation) : Draft :=
  let doc := w.document d
  { compilation with
    tag := (w.registry.tagOfExtension? doc.tag).getD compilation.tag
    document := name, registered := name, text := doc.text, isText
    partition := w.identifier s, timestamp := some doc.timestamp, source := some s }

/-- The executable of a document, compiled unless it has one. -/
def afterCreating (d : DocumentId) (isText : Bool) (compilation : Compilation) : Move :=
  match (w.document d).executable with
  | some e => reply w (.executable e)
  | none =>
    match w.compile (draftOf w s name d isText compilation) with
    | (w, .error f) => refuse w f
    | (w, .ok e) =>
      let (w, winner) := w.attachExecutable d e
      reply w (.executable winner)

end ScriptedText.Move
