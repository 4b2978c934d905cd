import ScriptedText.Language.Adapter
import ScriptedText.Language.Scripting.Evaluation

/-!
The scripting language. All programs that run in one context share their globals; services and exposed variables
are made known under their names at the start of every program, and a service is looked up when it is used.
-/

namespace ScriptedText.Scripting

/-- What exactly does not parse is not told. -/
def rejection : Failure := (Problem.programRejected "javascript" "").failure

/-- Whether a name can stand where a program is wrapped to publish it: what names a variable or a value. -/
def isPublishable (name : String) : Bool := isName true name || ["this", "null", "true", "false"].contains name

def compile (source : String) : Except Failure Program :=
  match program? source with
  | some p => if (publishedNames source).all isPublishable then .ok p else .error rejection
  | none => .error rejection

/-- The routines that every context has from its first program on. -/
def openGlobals : Dialogue Unit := do
  if (← Dialogue.pose .notes).isEmpty then
    Dialogue.putNote (.shared "print") (.standard "print")
    Dialogue.putNote (.shared "println") (.standard "println")

def declareServices : List (String × Service) → Dialogue Unit
  | [] => pure ()
  | (name, _) :: rest => do
    Dialogue.putNote (.shared name) .service
    declareServices rest

def declareVariables : List (String × Value) → Dialogue Unit
  | [] => pure ()
  | (name, v) :: rest => do
    Dialogue.putNote (.shared name) (.value v)
    declareVariables rest

/-- Makes the functions of a program known in a scope of the run. -/
def declareRoutines (source : String) (number : Nat) : List Routine → Dialogue Unit
  | [] => pure ()
  | r :: rest => do
    Dialogue.putNote ⟨number, r.name⟩ (.routine source r.name number)
    declareRoutines source number rest

/-- A scope that has not been used. -/
def freshScope : Dialogue Nat := do
  return (← Dialogue.pose .notes).foldl (fun n entry => max n (entry.1.scope + 1)) 1

/-- Makes functions known to all programs that are declared at the start of a line. -/
def publish (scope : Scope) : List String → Dialogue Unit
  | [] => pure ()
  | name :: rest => do
    if scope.declares name then assignGlobal name (.routine scope.source name scope.number)
    publish scope rest

def run (source _exposed : String) : Dialogue Unit := do
  let p ← Dialogue.ofExcept (compile source)
  openGlobals
  declareServices (← Dialogue.pose .services)
  declareVariables (← Dialogue.pose .bindings)
  let scope := Scope.ofProgram source p (← freshScope)
  declareRoutines source scope.number p.routines
  publish scope (publishedNames source)
  let _ ← evalBody (depthLimit + source.length) scope p.statements

/-- Calls a global routine. All that objects have is there as soon as a program ran. -/
def enter (name : String) (args : List Value) : Dialogue Value := do
  match ← global? name with
  | some (.standard own) =>
    if (standardObjects.lookup own).isSome || (← Dialogue.pose .notes).isEmpty then
      Dialogue.problem (.entryPointMissing name)
    else if inherited.contains own then return (← callInherited own true (args.map .value)).toValue
    else return (← callStandard own name (args.map .value)).toValue
  | some (.routine source own number) =>
    let p ← Dialogue.ofExcept (compile source)
    let scope := Scope.ofProgram source p number
    return (← invoke depthLimit scope (.routine source own number) name (args.map .value)).toValue
  | _ => Dialogue.problem (.entryPointMissing name)

def forms (exposed : String) : SourceForms where
  literal text := "print(" ++ Text.quote text ++ ");"
  expression e := "print(" ++ e ++ ");"
  inclusion e := "await " ++ exposed ++ ".include(" ++ e ++ ");"

def adapter : Adapter where
  info :=
    { name := "JavaScript (node:vm)", version := "", languageName := "JavaScript", tags := ["javascript", "js"]
      extensions := ["js"], defaultTag := "javascript", defaultExtension := "js" }
  threadSafe := true
  forms := forms
  prepare source := do let _ ← compile source
  run := run
  enter := some enter
  releases := true

end ScriptedText.Scripting
