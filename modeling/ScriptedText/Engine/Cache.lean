import ScriptedText.Engine.World

/-!
What a source keeps: registering, replacing and evicting documents. Documents made from scriptlet bodies go with
the document that they belong to.
-/

namespace ScriptedText

/-- Drops names together with the names that the documents under them lead to. -/
def dropReachable (next : DocumentId → List String) (names : List String) (m : OrderedMap String DocumentId) :
    OrderedMap String DocumentId :=
  match names with
  | [] => m
  | name :: rest =>
    match _ : m.get? name with
    | some d => dropReachable next (next d ++ rest) (m.erase name)
    | none => dropReachable next rest m
termination_by (m.size, names.length)
decreasing_by
  · exact Prod.Lex.left _ _ (OrderedMap.size_erase_lt (by simp_all [OrderedMap.contains]))
  · exact Prod.Lex.right _ (by simp)

namespace World

variable (w : World)

/-- Drops the in-flow documents of a document, and theirs. -/
def dropInFlow (s : SourceId) (d : DocumentId) : World :=
  w.modifySource s fun source =>
    { source with
      byName := dropReachable (fun d => (w.document d).inFlowDependencies) (w.document d).inFlowDependencies
        source.byName }

/-- Puts an executable on a document that has none, and gives the one that it has then. -/
def attachExecutable (d : DocumentId) (e : ExecutableId) : World × ExecutableId :=
  match (w.document d).executable with
  | some winner => (w, winner)
  | none =>
    (w.modifyDocument d fun doc =>
      { doc.addDependencies (w.executable e).dependencies with executable := some e }, e)

/-- A new document without a file. -/
def createDocument (s : SourceId) (name text tag : String) (e : Option ExecutableId) : World × DocumentId :=
  let (w, d) := w.addDocument { name, text, tag, timestamp := w.clock, source := s, lastCheck := w.clock }
  match e with
  | some e => ((w.attachExecutable d e).1, d)
  | none => (w, d)

/-- Makes every document of a source invalid that depends on the name. -/
def invalidateDependents (s : SourceId) (name : String) : World :=
  (w.source s).byName.values.foldl (fun w d =>
    if (w.document d).dependencies.contains name then w.modifyDocument d Document.invalidate else w) w

/-- Registers a document in place of the one under that name, which is given back. -/
def setDocument (s : SourceId) (name text tag : String) (e : Option ExecutableId) : World × Option DocumentId :=
  let previous := w.cached? s name
  let (w, d) := w.createDocument s name text tag e
  let w := w.modifySource s fun source => { source with byName := source.byName.insert name d }
  match previous with
  | none => (w, none)
  | some old =>
    let w := w.modifyDocument old Document.invalidate
    let w := w.modifySource s fun source => { source with byFile := (source.byFile.eraseValue old).1 }
    let w := (w.dropInFlow s old).emit (.evicted name .replaced)
    (w.invalidateDependents s name, some old)

/-- Keeps `d` under a name unless there is a document already, and gives the one that is there then. -/
def keepByName (s : SourceId) (name : String) (d : DocumentId) : World × DocumentId :=
  let (byName, winner) := (w.source s).byName.insertIfAbsent name d
  (w.modifySource s fun source => { source with byName }, winner)

def keepByFile (s : SourceId) (file : Files.Path) (d : DocumentId) : World × DocumentId :=
  let (byFile, winner) := (w.source s).byFile.insertIfAbsent file d
  (w.modifySource s fun source => { source with byFile }, winner)

def setDocumentIfAbsent (s : SourceId) (name text tag : String) (e : Option ExecutableId) : World × DocumentId :=
  let (w, d) := w.createDocument s name text tag e
  w.keepByName s name d

/-- Forgets a document that is not valid any more. -/
def evict (s : SourceId) (d : DocumentId) : World :=
  let w := w.modifySource s fun source => source.forget d
  (w.dropInFlow s d).emit (.evicted (w.document d).name .invalid)

/-- Registers an invalid document anew from its text. If the name has another document by now, that one stays. -/
def renew (s : SourceId) (name : String) (d : DocumentId) : World × DocumentId :=
  let w := (w.emit (.evicted name .invalid)).dropInFlow s d
  let old := w.document d
  let (w, fresh) := w.createDocument s name old.text old.tag none
  if w.cached? s name = some d then
    (w.modifySource s fun source => { source with byName := source.byName.insert name fresh }, fresh)
  else (w, (w.cached? s name).getD fresh)

end World

end ScriptedText
