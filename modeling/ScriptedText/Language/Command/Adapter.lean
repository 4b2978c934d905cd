import ScriptedText.Language.Adapter
import ScriptedText.Language.Command.Token

/-!
The command language: programs of simple commands for trying out documents. It can print, change the context,
run other documents, wait for gates, fail in several ways, and define entry points.
-/

namespace ScriptedText.Command

/-- What is written for an exposed variable. -/
def variableText (name : String) : Dialogue String := do
  return ((← Dialogue.variableValue name).getD .undefined).display

/-- The value of a word: a variable after a dollar sign, else text, without its apostrophes if it has them. -/
def valueOf : Token → Dialogue String
  | .quoted s => pure s
  | .bare s =>
    match s.toList with
    | '$' :: name => variableText (String.ofList name)
    | '\'' :: rest => pure (if rest.getLast? = some '\'' then String.ofList rest.dropLast else s)
    | _ => pure s

def operand (s : Statement) (i : Nat) : Dialogue String :=
  match s.operands[i]? with
  | some t => valueOf t
  | none => pure ""

/-- A fault of the language itself, in the language `tag`. -/
def parsingFault (message : String) (details : Option (List (String × Value))) (sites : List Site) : Failure :=
  .fault { kind := .parsing, code := .programRejected, message, sites, details }

def executionFault (message : String) (details : Option (List (String × Value))) : Failure :=
  .fault { kind := .execution, code := .programFailed, message, details }

/-- The site that the language gives to faults that it locates itself. -/
def ownSite : Site := ⟨"toy", 9, 9⟩

/-- The failure that a statement asks for at preparation. -/
def refusal (tag : String) (s : Statement) : Option Failure :=
  let message := s.operandText 0
  match s.command with
  | .bare "badprepare" => some (.error message)
  | .bare "badparse" => some (parsingFault message (some [("tag", .text tag)]) [])
  | .bare "badparseframe" => some (parsingFault message (some [("tag", .text tag)]) [ownSite])
  | _ => none

/-- The statements of a source, unless one of them asks for a failure. -/
def check (tag source : String) : Except Failure (List Statement) := do
  let list ← statements source
  match list.findSome? (refusal tag) with
  | some e => .error e
  | none => return list

def create (source : String) : Except Failure Unit :=
  match statements source with
  | .error _ => .ok ()
  | .ok list =>
    match list.find? fun s => s.command = .bare "badcreate" with
    | some s => .error (.error (s.operandText 0))
    | none => .ok ()

def handle (exposed : String) : Dialogue Handle := do
  match Service.handle? (← Dialogue.service? exposed) with
  | some h => return h
  | none => Dialogue.error "no service"

def printAll : List Token → Dialogue Unit
  | [] => pure ()
  | t :: rest => do
    Dialogue.write (← valueOf t)
    printAll rest

def showService (name : String) : Dialogue Unit := do
  match ← Dialogue.service? name with
  | some (.handle h) => Dialogue.write ("service:" ++ (← Dialogue.documentName h))
  | some (.value v) => Dialogue.write v.display
  | none => Dialogue.write "undefined"

def runOnce (exposed name : String) : Dialogue Unit := do
  let h ← handle exposed
  match h.container with
  | some .host => Dialogue.write (if ← Dialogue.callOnce h name then "true" else "false")
  | _ => Dialogue.error "no container"

/-- An object of which only the text is known; its message is no text. -/
def namelessFailure : Failure := .thrown "[object Object]"

def runStatement (exposed : String) (s : Statement) : Dialogue Unit := do
  match s.command with
  | .quoted c => Dialogue.error ("unknown command: " ++ c)
  | .bare c =>
    match c with
    | "nop" | "badcreate" => return ()
    | "print" => printAll s.operands
    | "err" => Dialogue.pose (.write .err (← operand s 0))
    | "set" => Dialogue.pose (.setVariable (← operand s 0) (.text (← operand s 1)))
    | "attr" => Dialogue.pose (.setAttribute (← operand s 0) (← operand s 1))
    | "showattr" => Dialogue.write ((← Dialogue.attribute? (← operand s 0)).getD "undefined")
    | "swap" => Dialogue.pose (.setService (← operand s 0) (.text (← operand s 1)))
    | "svc" => showService (← operand s 0)
    | "count" => Dialogue.write (toString (← Dialogue.runs))
    | "include" => let name ← operand s 0; Dialogue.call (← handle exposed) .include name
    | "execute" => let name ← operand s 0; Dialogue.call (← handle exposed) .execute name
    | "once" => let name ← operand s 0; runOnce exposed name
    | "wait" => Dialogue.gate (← operand s 0)
    | "def" => Dialogue.putNote (.shared (← operand s 0)) (.routine (← operand s 2) (← operand s 1) 0)
    | "fail" => Dialogue.fail (.error (← operand s 0))
    | "failstr" => Dialogue.fail (.thrown (← operand s 0))
    | "failobj" => Dialogue.fail (.thrown (← operand s 0))
    | "failnum" => Dialogue.fail namelessFailure
    | "failweft" =>
      let message ← operand s 0
      Dialogue.fail (executionFault message (some [("reason", .text message)]))
    | "failframe" => Dialogue.fail (parsingFault (← operand s 0) none [ownSite])
    | c => Dialogue.error ("unknown command: " ++ c)

def runAll (exposed : String) : List Statement → Dialogue Unit
  | [] => pure ()
  | s :: rest => do
    runStatement exposed s
    Dialogue.pause
    runAll exposed rest

def run (tag source exposed : String) : Dialogue Unit := do
  runAll exposed (← Dialogue.ofExcept (check tag source))

/-- Calls an entry point: what it does is told by the kind that it was defined with. -/
def enter (name : String) (args : List Value) : Dialogue Value := do
  match ← Dialogue.note? (.shared name) with
  | some (.routine arg kind _) =>
    match kind with
    | "echo" => return .list args
    | "const" => return .text arg
    | "print" => do Dialogue.write arg; return .null
    | "fail" => Dialogue.error arg
    | "failweft" => Dialogue.fail (executionFault arg none)
    | "wait" => do Dialogue.gate arg; return .text "done"
    | kind => Dialogue.error ("unknown entry kind: " ++ kind)
  | _ => Dialogue.problem (.entryPointMissing name)

def forms : SourceForms where
  literal text := "print " ++ Text.quote text ++ ";"
  expression e := "print " ++ e ++ ";"
  inclusion e := "include " ++ e ++ ";"

/-- An adapter of the command language for some tags and extensions. -/
structure Options where
  tags : List String := ["toy"]
  extensions : List String := ["toy"]
  threadSafe : Bool := true
  enters : Bool := true
  releases : Bool := true

def defaultTag (o : Options) : String := o.tags.head?.getD "toy"

def adapter (o : Options) : Adapter where
  info :=
    { name := "Toy", version := "1", languageName := "Toy", tags := o.tags, extensions := o.extensions
      defaultTag := defaultTag o, defaultExtension := o.extensions.head?.getD "" }
  threadSafe := o.threadSafe
  observed := true
  forms := fun _ => forms
  create := create
  prepare source := do let _ ← check (defaultTag o) source
  run := run (defaultTag o)
  enter := if o.enters then some enter else none
  releases := o.releases

end ScriptedText.Command
