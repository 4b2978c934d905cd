import ScriptedText.Engine.Task

/-!
Whether a document is valid: it is not, once a document that it depends on is not, or once its file has changed.
Each document is looked at once in a check; files are looked at once per interval.
-/

namespace ScriptedText

namespace World

/-- The dependency to look at from place `i` on, with its place: names that the source does not keep are passed
over. -/
def nextDependency? (w : World) (d : DocumentId) (i : Nat) : Option (Nat × DocumentId) :=
  let doc := w.document d
  (doc.dependencies.zipIdx.drop i).findSome? fun (name, j) => (w.cached? doc.source name).map fun dep => (j, dep)

/-- Whether the file of a document, or what has come to be in its place, is no newer than what was read. -/
def isUnchanged (w : World) (d : DocumentId) : Bool :=
  let doc := w.document d
  match doc.file with
  | none => true
  | some file =>
    match w.tree.status file with
    | .file _ _ mtime | .directory _ (some mtime) => mtime ≤ doc.timestamp
    | _ => false

end World

namespace Move

/-- The document itself, after its dependencies. -/
def checkFile (w : World) (d : DocumentId) (visited : List DocumentId) : Move :=
  let doc := w.document d
  let interval := (w.source doc.source).interval
  if doc.file.isNone || interval = -1 then
    reply (w.modifyDocument d fun doc => { doc with validity := .valid }) (.validity true visited)
  else if w.clock - doc.lastCheck ≤ interval then reply w (.validity true visited)
  else pass (w.modifyDocument d fun doc => { doc with lastCheck := w.clock }) [.fileTime d visited]

def checkFrom (w : World) (d : DocumentId) (visited : List DocumentId) (i : Nat) : Move :=
  match w.nextDependency? d i with
  | some (j, dep) => call w (.isValid dep visited) [.dependency d j]
  | none => checkFile w d visited

def isValid (w : World) (d : DocumentId) (visited : List DocumentId) : Move :=
  if (w.document d).validity = .invalid then reply w (.validity false visited)
  else if visited.contains d then reply w (.validity true visited)
  else checkFrom w d (visited ++ [d]) 0

def afterDependency (w : World) (d : DocumentId) (i : Nat) (valid : Bool) (visited : List DocumentId) : Move :=
  if valid then checkFrom w d visited (i + 1)
  else reply (w.modifyDocument d Document.invalidate) (.validity false visited)

def afterFileTime (w : World) (d : DocumentId) (visited : List DocumentId) : Move :=
  let unchanged := w.isUnchanged d
  reply (w.modifyDocument d fun doc => { doc with validity := if unchanged then .valid else .invalid })
    (.validity unchanged visited)

end Move

end ScriptedText
