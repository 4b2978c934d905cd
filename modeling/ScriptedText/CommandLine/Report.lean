import ScriptedText.CommandLine.Arguments
import ScriptedText.Fault.Basic
import ScriptedText.Value.Json

/-!
Reports of failures, for people and in JSON.
-/

namespace ScriptedText.CommandLine

def siteLine (s : Site) : String :=
  "  at " ++ s.document ++ ":" ++ (Number.ofInt s.line).text ++ ":" ++ (Number.ofInt s.column).text

/-- A line per detail. A value without a text of its own cannot be reported. -/
def detailLines (details : List (String × Value)) : Except Failure (List String) :=
  details.mapM fun (key, v) =>
    match v.text? with
    | some text => .ok ("  = " ++ key ++ ": " ++ text)
    | none => .error (.misuse "Cannot convert object to primitive value")

def humanReport (verbose : Bool) : Failure → Except Failure String
  | .fault f => do
    let head := "error[" ++ f.code.id ++ "]: " ++ f.message
    let details ← if verbose then detailLines (f.details.getD []) else .ok []
    return "\n".intercalate (head :: f.sites.map siteLine ++ details)
  | f => .ok ("error: " ++ f.describe)

def siteValue (s : Site) : Value :=
  .record [("documentName", .text s.document), ("line", .int s.line), ("column", .int s.column)]

/-- Fields of a record, less those that have no value. -/
def present (fields : List (String × Value)) : List (String × Value) :=
  fields.filter fun
    | (_, .undefined) => false
    | _ => true

def jsonReport : Failure → String
  | .fault f =>
    Value.indented 0 (.record [
      ("errorId", .text f.code.id), ("message", .text f.message), ("frames", .list (f.sites.map siteValue)),
      ("context", .record (present (f.details.getD [])))])
  | f => Value.indented 0 (.record [("message", .text f.describe)])

def report (format : Format) (verbose : Bool) (f : Failure) : Except Failure String :=
  match format with
  | .human => humanReport verbose f
  | .json => .ok (jsonReport f)

/-- A report in a format that is given by name. -/
def reportIn (format : String) (verbose : Bool) (f : Failure) : Except Failure String :=
  match Format.ofName? format with
  | some format => report format verbose f
  | none => .error (.misuse ("Unknown format: " ++ format))

end ScriptedText.CommandLine
