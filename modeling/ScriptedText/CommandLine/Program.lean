import ScriptedText.CommandLine.Config
import ScriptedText.CommandLine.Log
import ScriptedText.CommandLine.Report
import ScriptedText.Engine.Machine
import ScriptedText.Language.Mustache.Adapter
import ScriptedText.Language.Scripting.Adapter

/-!
The command as a whole: it runs one document from a directory of files, and tells what it wrote.
-/

namespace ScriptedText.CommandLine

structure Output where
  out : String := ""
  err : String := ""
  status : Nat := 0
  deriving DecidableEq, Repr

def version : String := "0.1.0"

def usage : String := "Usage:
  weft-exec <document> [options]  Execute a document
  weft-exec --help                Show this help message
  weft-exec --version             Show version information

Options:
  --base <dir>          Directory documents are resolved in (default: current directory)
  --language <tag>      Default language for untagged scriptlets
  --config <file>       Configuration file (default: <base>/weft.yaml)
  --format <format>     Error output format: human, json (default: human)
  --verbose             Log compilation and execution events to stderr

Examples:
  weft-exec index
  weft-exec pages/about.html --base site
  weft-exec report --language handlebars --format json"

def lines (texts : List String) : String := String.join (texts.map (· ++ "\n"))

/-- The world of one run: the files, the two languages, one source and one context. -/
def world (t : Files.Tree) (base : Files.Path) (c : Config) : World :=
  let naming : Files.Naming :=
    { base, defaultName := c.defaultName, preferredExtension := c.preferredExtension.map Files.withoutDot }
  let compilation : Compilation := { tag := c.defaultLanguage, prepare := c.prepare, exposed := c.exposedName }
  { tree := t
    registry := Registry.ofAdapters [Scripting.adapter, Mustache.adapter]
    sources := [{ storage := .files naming c.interval }]
    contexts := [{}]
    host := some { main := ⟨0⟩, compilation } }

/-- Compiles a document and runs it once. -/
def execute (w : World) (document : String) : World × Except Failure Unit :=
  let m : Machine := { world := w }
  match m.run (.getExecutable document true) with
  | (m, .error f) => (m.world, .error f)
  | (m, .ok (.executable e)) =>
    let (m, o) := m.run (.execute { executable := e, context := ⟨0⟩, container := some .host } {})
    (m.world, o.map fun _ => ())
  | (m, .ok _) => (m.world, .ok ())

/-- The lines that end a command that failed. -/
def failureLines (format : Format) (verbose : Bool) (f : Failure) : String :=
  match report format verbose f with
  | .ok text => text ++ "\n"
  | .error f => f.describe ++ "\n"

def failed (format : Format) (verbose : Bool) (f : Failure) : Output :=
  { err := failureLines format verbose f, status := 1 }

def runRequest (t : Files.Tree) (cwd : Files.Path) (r : Request) : Output :=
  let base := t.locate cwd (r.base.getD "")
  match Config.resolve t cwd base r.config r.language with
  | .error f => failed r.format r.verbose (.error f.message)
  | .ok c =>
    let (w, result) := execute (world t base c) r.document
    let log := if r.verbose then lines (w.events.filterMap fun e => (LogEntry.ofEvent? e).map LogEntry.line) else ""
    let x := w.context ⟨0⟩
    match result with
    | .ok _ => { out := x.out, err := x.err ++ log }
    | .error f => { out := x.out, err := x.err ++ log ++ failureLines r.format r.verbose f, status := 1 }

/-- The command on a tree of files, from a working directory. -/
def run (t : Files.Tree) (cwd : Files.Path) (argv : List String) : Output :=
  match parse argv with
  | .error m => failed .human false (.error m.message)
  | .ok .help => { out := usage ++ "\n" }
  | .ok .version => { out := version ++ "\n" }
  | .ok (.run r) => runRequest t cwd r

end ScriptedText.CommandLine
