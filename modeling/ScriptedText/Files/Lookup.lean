import ScriptedText.Fault.Basic
import ScriptedText.Files.Tree

/-!
From document names to files. A name that is no file of its own stands for a file with that stem and any
extension; a directory stands for its default document.
-/

namespace ScriptedText.Files

structure Naming where
  base : Path
  /-- The stem that a directory's document has. -/
  defaultName : String := "index"
  /-- The extension, without its dot, that wins among files of one stem. -/
  preferredExtension : Option String := none

/-- Drops one leading dot. -/
def withoutDot (extension : String) : String :=
  match extension.toList with
  | '.' :: rest => String.ofList rest
  | _ => extension

namespace Naming

variable (n : Naming)

def unreadable (name reason : String) : Failure := (Problem.documentUnreadable name reason).failure

def missing (name : String) : Failure := (Problem.documentMissing name).failure

/-- Files of a listing with a stem, in the order of their names. -/
def candidates (listing : List (String × Node)) (wanted : String) : List String :=
  let files := listing.filter fun
    | (name, .file _ _) => stem name = wanted
    | _ => false
  (files.map Prod.fst).mergeSort Text.unitsLe

/-- The candidate with the preferred extension, or else the first. -/
def choose (candidates : List String) : Option String :=
  (n.preferredExtension.bind fun e => candidates.find? fun c => extension c = "." ++ e) <|> candidates.head?

def findVariant (t : Tree) (directory : Path) (wanted name : String) : Except Failure Path :=
  match t.list directory with
  | .error reason => .error (unreadable name reason)
  | .ok none => .error (missing name)
  | .ok (some listing) =>
    match n.choose (candidates listing wanted) with
    | none => .error (missing name)
    | some file => .ok (directory ++ [file])

/-- The file of a document name. -/
def fileOf (t : Tree) (name : String) : Except Failure Path :=
  let path := Path.resolve n.base (relativeName name)
  match Path.below? n.base path with
  | none => .error (missing name)
  | some _ =>
    match t.status path with
    | .failed reason => .error (unreadable name (reason ++ ", stat '" ++ t.spell path ++ "'"))
    | .directory _ _ => n.findVariant t path n.defaultName name
    | .file _ _ _ => .ok path
    | .absent => n.findVariant t path.dropLast ((path.getLast?).getD "") name

/-- Names of the documents in a directory and below it. Names that start with a dot are passed over, and links
are neither files nor directories. `depth` bounds the nesting of directories. -/
def listNames (t : Tree) : Nat → Path → String → Except Failure (List String)
  | 0, _, _ => .ok []
  | depth + 1, directory, above =>
    match t.list directory with
    | .error reason => .error (.error reason)
    | .ok none =>
      let reason := match t.status directory with
        | .file _ _ _ => "ENOTDIR: not a directory"
        | _ => "ENOENT: no such file or directory"
      .error (.error (reason ++ ", scandir '" ++ t.spell directory ++ "'"))
    | .ok (some listing) => do
      let visible := listing.filter fun e => !Text.startsWith e.1 "."
      let sorted := visible.mergeSort fun a b => collatesLe a.1 b.1
      let lists ← sorted.mapM fun (name, node) =>
        match node with
        | .directory _ => listNames t depth (directory ++ [name]) (above ++ name ++ "/")
        | .file _ _ => .ok [above ++ name]
        | .link _ => .ok []
      return lists.flatten

/-- All document names below the base directory. -/
def allNames (t : Tree) : Except Failure (List String) := listNames t (t.nodes.size + 1) n.base ""

/-- Text and time of a file that a document is read from. -/
def read (t : Tree) (file : Path) (name : String) : Except Failure (String × Int) :=
  match t.status file with
  | .file _ bytes mtime => .ok (Text.decodeUtf8 bytes, mtime)
  | .failed reason => .error (unreadable name (reason ++ ", open '" ++ t.spell file ++ "'"))
  | .directory _ _ => .error (unreadable name "EISDIR: illegal operation on a directory, read")
  | .absent => .error (missing name)

end Naming

end ScriptedText.Files
