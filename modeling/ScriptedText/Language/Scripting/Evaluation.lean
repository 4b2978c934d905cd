import ScriptedText.Language.Scripting.Standard
import ScriptedText.Text.Unit16

/-!
The meaning of programs. Names stand for a routine's parameters, then for the functions of its program, then for
the context's globals, then for what the language has from the start. Functions and globals are kept as notes: the functions of each run under a scope of their
own, so that a routine finds those that were there when its program ran.
-/

namespace ScriptedText.Scripting

/-! ### Names -/

/-- What is in force while a routine or the program itself runs. -/
structure Scope where
  params : List (String × Datum)
  source : String
  program : Program
  number : Nat

def Scope.ofProgram (source : String) (p : Program) (number : Nat) : Scope := ⟨[], source, p, number⟩

/-- The program with a source: often the one that is running. -/
def Scope.programOf? (s : Scope) (source : String) : Option Program :=
  if source = s.source then some s.program else program? source

/-- The names of values that cannot be changed. -/
def constant? (name : String) : Option Value :=
  if name = "undefined" then some .undefined
  else if name = "NaN" then some (.number .nan)
  else if name = "Infinity" then some (.number (.infinite false))
  else none

def noted? (key : NoteKey) : Dialogue (Option Datum) := do
  match ← Dialogue.note? key with
  | some n => return some (.ofNote (← Dialogue.service? key.name) n)
  | none => return none

def global? (name : String) : Dialogue (Option Datum) := do
  match constant? name, ← noted? (.shared name) with
  | some v, _ => return some (.value v)
  | none, some d => return some d
  | none, none => return inherited? name

/-- Whether a name is that of a function of the program. -/
def Scope.declares (s : Scope) (name : String) : Bool := s.program.routines.any (·.name = name)

def Scope.find (s : Scope) (name : String) : Dialogue Datum := do
  match s.params.lookup name with
  | some d => return d
  | none =>
    match ← if s.declares name then noted? ⟨s.number, name⟩ else global? name, standard? name with
    | some d, _ | none, some d => return d
    | none, none => Dialogue.error (name ++ " is not defined")

/-- A service's name and that of a constant are never assigned to: nothing happens. -/
def assignGlobal (name : String) (d : Datum) : Dialogue Unit := do
  match constant? name, ← Dialogue.note? (.shared name) with
  | some _, _ | none, some .service => return ()
  | none, _ => Dialogue.putNote (.shared name) d.toNote

/-- Assigns to the name that is nearest. -/
def Scope.assign (s : Scope) (name : String) (d : Datum) : Dialogue Scope := do
  if (s.params.lookup name).isSome then
    return { s with params := (name, d) :: s.params }
  else
    if s.declares name then Dialogue.putNote ⟨s.number, name⟩ d.toNote else assignGlobal name d
    return s

def member (d : Datum) (field : String) : Dialogue Datum :=
  match d with
  | .handle h =>
    match field with
    | "documentName" => do return .text (← Dialogue.documentName h)
    | "include" => return .method h .include
    | "execute" => return .method h .execute
    | _ => return .undefined
  | .value .undefined =>
    Dialogue.error ("Cannot read properties of undefined (reading '" ++ field ++ "')")
  | .value .null => Dialogue.error ("Cannot read properties of null (reading '" ++ field ++ "')")
  | .value (.record fields) => return .value ((Value.field? fields field).getD .undefined)
  | .value (.text s) => return if field = "length" then .value (.int (Text.units s.toList)) else .undefined
  | .value (.list items) => return if field = "length" then .value (.int items.length) else .undefined
  | .standard name => do
    if name = "this" || name = "globalThis" then return (← global? field).getD .undefined else return .undefined
  | _ => return .undefined

/-! ### Programs -/

mutual

/-- The value of an expression; `fuel` bounds the depth of calls. -/
def eval : Nat → Scope → Expr → Dialogue Datum
  | 0, _, _ => Dialogue.error "Maximum call stack size exceeded"
  | fuel + 1, scope, e =>
    match e with
    | .literal v => return .value v
    | .name x => scope.find x
    | .member e field => do member (← eval fuel scope e) field
    | .add a b => do
      let x ← eval fuel scope a
      x.add (← eval fuel scope b)
    | .signed negative e => do
      let n ← (← eval fuel scope e).toNumber
      return .value (.number (if negative then n.negate else n))
    | .wait e => do
      let d ← eval fuel scope e
      Dialogue.pause
      match d with
      | .later d => return d
      | d => return d
    | .call f args => do
      let callee ← eval fuel scope f
      let values ← evalAll fuel scope args
      invoke fuel scope callee f.spelling values

def evalAll : Nat → Scope → List Expr → Dialogue (List Datum)
  | 0, _, _ => Dialogue.error "Maximum call stack size exceeded"
  | _ + 1, _, [] => return []
  | fuel + 1, scope, e :: rest => do
    let d ← eval fuel scope e
    let ds ← evalAll fuel scope rest
    return d :: ds

/-- Calls a datum from within a scope. -/
def invoke : Nat → Scope → Datum → String → List Datum → Dialogue Datum
  | 0, _, _, _, _ => Dialogue.error "Maximum call stack size exceeded"
  | fuel + 1, scope, callee, spelling, args =>
    match callee with
    | .method h mode => do
      Dialogue.call h mode (← (args.head?.getD .undefined).asText)
      return .later .undefined
    | .routine source name number =>
      match (scope.programOf? source).bind fun p => (p.routine? name).map fun r => (p, r) with
      | none => return .undefined
      | some (p, r) => do
        let params := r.params.zip (args ++ List.replicate r.params.length .undefined)
        let d ← evalBody fuel { Scope.ofProgram source p number with params := params.reverse } r.body
        return if r.isAsync then d.deferred else d
    | .standard name => callStandard name spelling args
    | _ => Dialogue.error (spelling ++ " is not a function")

/-- Runs statements in order; the first that gives a value ends them. -/
def evalBody : Nat → Scope → List Statement → Dialogue Datum
  | 0, _, _ => Dialogue.error "Maximum call stack size exceeded"
  | _ + 1, _, [] => return .undefined
  | fuel + 1, scope, s :: rest =>
    match s with
    | .expression e => do
      let _ ← eval fuel scope e
      evalBody fuel scope rest
    | .assign x e => do
      let scope ← scope.assign x (← eval fuel scope e)
      evalBody fuel scope rest
    | .throw args => do
      match (← evalAll fuel scope args).head? with
      | none | some (.value .undefined) => Dialogue.error ""
      | some d => Dialogue.error (← d.asText)
    | .give (some e) => eval fuel scope e
    | .give none => return .undefined

end

/-- How deep calls may be nested, apart from how deep the program itself is. -/
def depthLimit : Nat := 10000

end ScriptedText.Scripting
