import ScriptedText.CommandLine.Program

/-!
The command on real files: the directory that documents come from and the configuration file are read into a tree,
and the output is written out.
-/

namespace ScriptedText.CommandLine

/-- What the command may look at: the base directory and the configuration file that was asked for. -/
def placesToRead (argv : List String) : List String :=
  match parse argv with
  | .ok (.run r) => r.base.getD "." :: r.config.toList
  | _ => []

/-- Milliseconds since the epoch. -/
def milliseconds (time : IO.FS.SystemTime) : Int := time.sec * 1000 + (time.nsec.toNat / 1000000 : Nat)

/-- Reads the file at a place that is written, if there is one that can be read. -/
def readFile (t : Files.Tree) (written : String) (p : Files.Path) : IO Files.Tree := do
  try
    let info ← (← IO.FS.realPath written).metadata
    return t.write p (← IO.FS.readBinFile written).data.toList (milliseconds info.modified)
  catch _ => return t

/-- Reads a directory with all that is below it. A link is kept with the real path that it leads to, and so is
the file there. -/
partial def readDirectory (t : Files.Tree) (written : String) (p : Files.Path) : IO Files.Tree := do
  let mut t := (t.makeDirectory p).1
  for entry in ← (← IO.FS.realPath written).readDir do
    let here := p ++ [entry.fileName]
    let place := entry.path.toString
    match (← entry.path.symlinkMetadata).type with
    | .dir => t ← readDirectory t place here
    | .file => t ← readFile t place here
    | .symlink =>
      let target ← IO.FS.realPath place
      t := t.symlink here target.toString
      if !(← target.isDir) then t ← readFile t target.toString (t.locate [] target.toString)
    | .other => pure ()
  return t

/-- Reads what is at a path, or nothing if nothing is there. -/
def readPlace (t : Files.Tree) (p : Files.Path) : IO Files.Tree := do
  let written := t.spell p
  try
    if ← (← IO.FS.realPath written).isDir then readDirectory t written p else readFile t written p
  catch _ => return t

def readTree (cwd : Files.Path) (places : List String) : IO Files.Tree :=
  places.foldlM (fun t place => readPlace t (t.locate cwd place)) { origin := "" }

end ScriptedText.CommandLine

open ScriptedText in
def main (argv : List String) : IO UInt32 := do
  let cwd := Files.Path.resolve [] (← IO.currentDir).toString
  let tree ← CommandLine.readTree cwd (CommandLine.placesToRead argv)
  let output := CommandLine.run tree cwd argv
  (← IO.getStdout).putStr output.out
  (← IO.getStderr).putStr output.err
  return output.status.toUInt32
