import ScriptedText.Fault.Basic

/-!
Faults that a host or an adapter makes itself. A fault of a narrow kind needs a code of that kind's category.
-/

namespace ScriptedText.Fault

/-- The code with this id, if it is in the catalogue and, where a category is asked for, belongs to it. -/
def codeFor (wanted : Option Category) (id : String) : Except Failure Code :=
  match Code.ofId? id, wanted with
  | none, none => .error (.misuse (if id = "" then "errorId is required" else "Unknown error ID: " ++ id))
  | none, some _ => .error (.misuse ("Unknown error ID: " ++ id))
  | some code, none => .ok code
  | some code, some category =>
    if code.category = category then .ok code
    else .error (.misuse ("Expected " ++ category.name ++ " error ID, got: " ++ id))

/-- The category that a kind of fault asks of its code. -/
def wantedCategory : FaultKind → Option Category
  | .general => none
  | .parsing => some .parse
  | .execution | .entryPointMissing _ => some .execution
  | .document | .documentMissing _ => some .document

def make (kind : FaultKind) (id message : String) (sites : List Site) (details : Option (List (String × Value)))
    (caused : Bool) : Except Failure Fault := do
  let code ← codeFor (wantedCategory kind) id
  return { kind, code, message, sites, details, caused }

/-- The text of a detail, empty when it is missing. A record that hides its text cannot be used. -/
def nameIn (details : List (String × Value)) (key : String) : Except Failure String :=
  match Value.field? details key with
  | none | some .null | some .undefined => .ok ""
  | some v =>
    match v.text? with
    | some s => .ok s
    | none => .error (.misuse "Cannot convert object to primitive value")

/-- The fault that the catalogue has under an id, worded from the details. Faults of documents have no site. -/
def ofCatalogue (id : String) (details : List (String × Value)) (site : Option Site) : Except Failure Fault := do
  let some code := Code.ofId? id | .error (.misuse ("Unknown error ID: " ++ id))
  let message := Fault.render code details
  match code with
  | .entryPointMissing =>
    return (Problem.entryPointMissing (← nameIn details "entryPoint")).fault site.toList
  | .documentMissing =>
    return (Problem.documentMissing (← nameIn details "name")).fault
  | _ =>
    match code.category with
    | .parse => return { kind := .parsing, code, message, sites := site.toList, details := some details }
    | .execution => return { kind := .execution, code, message, sites := site.toList, details := some details }
    | .document => return { kind := .document, code, message, details := some details }

end ScriptedText.Fault
