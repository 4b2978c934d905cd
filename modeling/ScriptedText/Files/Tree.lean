import ScriptedText.Files.Path
import ScriptedText.OrderedMap
import ScriptedText.Text.Utf8

/-!
A tree of files. Paths are followed as an operating system does: through symbolic links, up to a limit, with a
failure for names and paths that are too long and for links that lead in a circle.
-/

namespace ScriptedText.Files

/-- What stands in a directory. The time of a directory is known once it was set; a directory that changed since is
newer than anything. -/
inductive Node
  | file (bytes : List UInt8) (mtime : Int)
  | directory (mtime : Option Int)
  | link (target : String)
  deriving DecidableEq

/-- Nodes by path. The origin itself is a directory, and its own path is how messages spell it. -/
structure Tree where
  origin : String
  nodes : OrderedMap Path Node := ∅

/-- What following a path comes to. -/
inductive Status
  | file (path : Path) (bytes : List UInt8) (mtime : Int)
  | directory (path : Path) (mtime : Option Int)
  | absent
  | failed (reason : String)
  deriving DecidableEq

namespace Tree

def spell (t : Tree) (p : Path) : String := "/".intercalate (t.origin :: p)

/-- The longest name, in bytes. -/
def nameLimit : Nat := 255

/-- The longest path, in bytes. -/
def pathLimit : Nat := 4095

/-- How many links a path may lead through. -/
def linkLimit : Nat := 40

def tooLong : String := "ENAMETOOLONG: name too long"

def byteLength (s : String) : Nat := (Text.encodeUtf8 s).length

def tooManyLinks : String := "ELOOP: too many symbolic links encountered"

/-- Follows the rest of a path from a directory; `onLink` goes on where a link leads. What is outside the tree is
not there. -/
def walkWith (t : Tree) (onLink : Path → List String → Status) : Path → List String → Status
  | here, [] =>
    match t.nodes.get? here with
    | some (.directory mtime) => .directory here mtime
    | _ => .directory here none
  | here, c :: rest =>
    if c = "" || c = "." then walkWith t onLink here rest
    else if c = ".." then if here.isEmpty then .absent else walkWith t onLink here.dropLast rest
    else if nameLimit < byteLength c then .failed tooLong
    else
      match t.nodes.get? (here ++ [c]) with
      | none => .absent
      | some (.directory _) => walkWith t onLink (here ++ [c]) rest
      | some (.file bytes mtime) => if rest.isEmpty then .file (here ++ [c]) bytes mtime else .absent
      | some (.link target) =>
        match (t.origin ++ "/").toList.isPrefixOf? target.toList with
        | some inside => onLink [] (components (String.ofList inside) ++ rest)
        | none => if Text.startsWith target "/" then .absent else onLink here (components target ++ rest)

def walk (t : Tree) : Nat → Path → List String → Status
  | 0 => t.walkWith fun _ _ => .failed tooManyLinks
  | links + 1 => t.walkWith (t.walk links)

/-- What is at a path, links followed. -/
def status (t : Tree) (p : Path) : Status :=
  if p.head? = some ".." then .absent
  else if pathLimit < byteLength (t.spell p) then .failed tooLong
  else t.walk linkLimit [] p

/-- What a written path comes to from a working directory, followed name by name: what a step up leaves has to be
there, and what a slash follows has to be a directory. -/
def follow (t : Tree) (cwd : Path) (written : String) : Status :=
  if written = "" then .absent
  else if pathLimit < byteLength written then .failed tooLong
  else
    match (t.origin ++ "/").toList.isPrefixOf? written.toList with
    | some inside => t.walk linkLimit [] (components (String.ofList inside))
    | none =>
      if written = t.origin then t.walk linkLimit [] []
      else if Text.startsWith written "/" then .absent
      else t.walk linkLimit cwd (components written)

/-- The path that is written, from a working directory if it is not absolute, with steps up taken without a look at
what is there. An absolute one outside the tree leads nowhere. -/
def locate (t : Tree) (cwd : Path) (written : String) : Path :=
  match (t.origin ++ "/").toList.isPrefixOf? written.toList with
  | some inside => Path.resolve [] (String.ofList inside)
  | none =>
    if written = "" then cwd
    else if written = t.origin then []
    else if Text.startsWith written "/" then ".." :: Path.resolve [] written
    else Path.resolve cwd written

/-- Names in a directory and what they are, links not followed. -/
def entries (t : Tree) (directory : Path) : List (String × Node) :=
  t.nodes.entries.filterMap fun (p, n) =>
    match p.getLast? with
    | some name => if p.dropLast = directory then some (name, n) else none
    | none => none

/-- The entries of the directory at a path. -/
def list (t : Tree) (p : Path) : Except String (Option (List (String × Node))) :=
  match t.status p with
  | .directory real _ => .ok (some (t.entries real))
  | .failed reason => .error (reason ++ ", scandir '" ++ t.spell p ++ "'")
  | _ => .ok none

/-- A directory whose entries have changed. -/
def renew (t : Tree) (directory : Path) : Tree :=
  match t.nodes.get? directory with
  | some (.directory _) => { t with nodes := t.nodes.insert directory (.directory none) }
  | _ => t

def put (t : Tree) (p : Path) (n : Node) : Tree :=
  let old := if t.nodes.contains p then t else t.renew p.dropLast
  { old with nodes := old.nodes.insert p n }

/-- Makes the missing directories on the way to a path, and gives its real path. -/
def makeDirectory (t : Tree) (p : Path) : Tree × Path :=
  p.foldl (fun (t, here) c =>
    match t.status (here ++ [c]) with
    | .directory real _ => (t, real)
    | .absent => (t.put (here ++ [c]) (.directory none), here ++ [c])
    | _ => (t, here ++ [c])) (t, [])

/-- The real path of a file that is there, or the path where a new one goes. -/
def placeOf (t : Tree) (p : Path) : Tree × Path :=
  match t.status p with
  | .file real _ _ => (t, real)
  | _ =>
    let (t, parent) := t.makeDirectory p.dropLast
    (t, parent ++ (p.getLast?).toList)

def write (t : Tree) (p : Path) (bytes : List UInt8) (mtime : Int) : Tree :=
  let (t, real) := t.placeOf p
  t.put real (.file bytes mtime)

/-- Sets the time of a file or directory that is there. -/
def touch (t : Tree) (p : Path) (mtime : Int) : Tree :=
  match t.status p with
  | .file real bytes _ => t.put real (.file bytes mtime)
  | .directory real _ => if real.isEmpty then t else t.put real (.directory (some mtime))
  | _ => t

/-- The real path of the directory that a path's last name stands in. -/
def parentOf (t : Tree) (p : Path) : Path :=
  match t.status p.dropLast with
  | .directory real _ => real
  | _ => p.dropLast

/-- Removes what is at a path, with all that is below it; a link goes, not what it leads to. -/
def remove (t : Tree) (p : Path) : Tree :=
  let real := t.parentOf p ++ (p.getLast?).toList
  let t := if t.nodes.contains real then t.renew real.dropLast else t
  { t with nodes := t.nodes.filter fun q _ => !real.isPrefixOf q }

def symlink (t : Tree) (p : Path) (target : String) : Tree :=
  let (t, parent) := t.makeDirectory p.dropLast
  t.put (parent ++ (p.getLast?).toList) (.link target)

end Tree

end ScriptedText.Files
