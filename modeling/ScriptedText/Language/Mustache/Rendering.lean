import ScriptedText.Language.Dialogue
import ScriptedText.Language.Mustache.Template
import ScriptedText.Text.Base64
import ScriptedText.Text.Unit16

/-!
Rendering of templates. It leaves a numbered slot, between two NUL characters, for every document to include; the
names of these documents come with the rendered text.
-/

namespace ScriptedText.Mustache

def htmlEscape (c : Char) : List Char :=
  if c = '&' then "&amp;".toList
  else if c = '<' then "&lt;".toList
  else if c = '>' then "&gt;".toList
  else if c = '"' then "&quot;".toList
  else if c = '\'' then "&#x27;".toList
  else if c = '\x60' then "&#x60;".toList
  else if c = '=' then "&#x3D;".toList
  else [c]

/-- The helper that writes folded literal text back. -/
def literalHelper : String := "weftLiteral"

def includeHelper : String := "include"

def slotMark : Char := '\x00'

/-! ### Values -/

/-- What a template sees under a name: an exposed variable, or else a service. -/
structure View where
  services : List (String × Service)
  bindings : List (String × Value)

def missing : Service := .value .undefined

def View.find (v : View) (name : String) : Service :=
  if name = "__proto__" then missing
  else
    match v.bindings.lookup name, v.services.lookup name with
    | some value, _ => .value value
    | none, some s => s
    | none, none => missing

/-- What a value has under a name: a text has its length and its characters. -/
def field (s : Service) (name : String) : Service :=
  match s with
  | .value (.text t) =>
    if name = "length" then .value (.int (Text.units t.toList))
    else ((Value.index? name).bind (t.toList[·]?)).elim missing fun c => .value (.text (String.singleton c))
  | .value .null => .value .null
  | _ => missing

/-- The names that a template sees, as one value. -/
def View.whole (v : View) : Service :=
  .value (.record (v.bindings ++ v.services.map fun (name, _) => (name, .undefined)))

def View.follow (v : View) (p : Path) : Service :=
  if 0 < p.depth then missing
  else
    let fields := if p.isData then
        match p.fields with
        | "root" :: rest => some rest
        | _ => none
      else some p.fields
    match fields with
    | none => missing
    | some [] => v.whole
    | some (name :: rest) => rest.foldl field (v.find name)

def View.value (v : View) : Operand → Service
  | .literal x => .value x
  | .path p => v.follow p

def isTruthy : Service → Bool
  | .handle _ => true
  | .value .undefined | .value .null => false
  | .value (.bool b) => b
  | .value (.number n) => n ≠ .zero && n ≠ .nan
  | .value (.text s) => s ≠ ""
  | .value _ => true

/-- Zero counts as something. -/
def isFilled (s : Service) : Bool :=
  isTruthy s || (match s with | .value (.number n) => n = .zero | _ => false)

/-! ### Helpers -/

/-- What a mustache comes to: text that is written as it is, a value, or a document to include. -/
inductive Yield
  | verbatim (cs : List Char)
  | value (s : Service)
  | inclusion (document : String)

def notCallable (what : String) : Except Failure Yield := .error (.error (what ++ " is not a function"))

def unreadable (name : String) : Except Failure Yield :=
  .error (.error ("Cannot read properties of undefined (reading '" ++ name ++ "')"))

/-- A helper that wants one argument and a block, which a mustache never has. -/
def branch (name : String) (arguments : List Service) (positive negative : String) (test : Service → Bool) :
    Except Failure Yield :=
  match arguments with
  | [x] => notCallable (if test x then positive else negative)
  | _ => .error (.error ("#" ++ name ++ " requires exactly one argument"))

/-- Whether a loop over a value would have a turn. -/
def hasItems : Service → Bool
  | .handle _ => true
  | .value (.record fields) => !fields.isEmpty
  | .value (.list items) => !items.isEmpty
  | _ => false

/-- The helpers that every template knows. -/
def standardHelper? (name : String) (arguments : List Service) : Option (Except Failure Yield) :=
  match name with
  | "if" | "unless" => some (branch name arguments "options.fn" "options.inverse" isTruthy)
  | "with" => some (branch name arguments "fn" "options.inverse" isFilled)
  | "each" => match arguments with
    | [] => some (.error (.error "Must pass iterator to #each"))
    | x :: _ => some (notCallable (if hasItems x then "fn" else "inverse"))
  | "lookup" => match arguments with
    | [] => some (unreadable "lookupProperty")
    | [x] => some (if isTruthy x then unreadable "lookupProperty" else .ok (.value x))
    | x :: name :: _ => some (.ok (.value (if isTruthy x then field x name.display else x)))
  | "log" => some (.ok (.value missing))
  | "helperMissing" =>
    some (if arguments.isEmpty then .ok (.value missing) else .error (.error "Missing helper: \"helperMissing\""))
  | "blockHelperMissing" => match arguments with
    | [] => some (unreadable "inverse")
    | x :: _ => some (notCallable (match x with
      | .value (.bool false) | .value .null | .value .undefined => "inverse"
      | _ => "fn"))
  | _ => none

/-- The helpers for documents. -/
def documentHelper? (name : String) (arguments : List Service) : Option (Except Failure Yield) :=
  if name = includeHelper then
    match arguments with
    | [] => some (unreadable "data")
    | [x] => some (.ok (.inclusion x.display))
    | _ :: .value .undefined :: _ => some (unreadable "data")
    | _ => some (.error (.error "include is only available inside weft documents"))
  else if name = literalHelper then
    let text := (arguments.head?.map Service.display).getD "[object Object]"
    some (.ok (.verbatim (Text.decode64 text).toList))
  else none

/-- The name of the helper that a mustache may mean. -/
def helperName? (head : Operand) : Option String :=
  match head with
  | .literal v => some v.display
  | .path p => match p.fields with
    | [name] => if p.isScoped then none else some name
    | _ => none

def spelling : Operand → String
  | .literal v => v.display
  | .path p => p.spelling

/-- What is found under a mustache's first name. A literal there counts as a name. -/
def headValue (v : View) : Operand → Service
  | .literal x => v.find x.display
  | .path p => v.follow p

def yield (v : View) (m : Insertion) : Except Failure Yield :=
  let arguments := m.arguments.map v.value
  let found := (helperName? m.head).bind fun name =>
    standardHelper? name arguments <|> documentHelper? name arguments
  match found with
  | some result => result
  | none =>
    let x := headValue v m.head
    if arguments.isEmpty && !m.isNamed then .ok (.value x)
    else if isTruthy x then notCallable "(intermediate value)(intermediate value)(intermediate value).call"
    else if arguments.isEmpty then .ok (.value missing)
    else .error (.error ("Missing helper: \"" ++ spelling m.head ++ "\""))

/-! ### Output -/

/-- Output in pieces. Numbers that nothing but numbers stand before are added up. -/
inductive Piece
  | text (cs : List Char)
  | number (n : Number) (own : List Char)

/-- The number that a raw value counts as beside others. -/
def countOf? : Service → Option Number
  | .value (.number n) => some n
  | .value (.bool b) => some (.ofInt (if b then 1 else 0))
  | _ => none

/-- Nothing is written for a value that is missing. -/
def valueText : Service → List Char
  | .value .undefined | .value .null => []
  | s => s.display.toList

def valuePiece (isRaw : Bool) (s : Service) : Piece :=
  if isRaw then
    match countOf? s with
    | some n => .number n (valueText s)
    | none => .text (valueText s)
  else .text ((valueText s).flatMap htmlEscape)

/-- Renders the parts in order; the names of the documents to include come second. -/
def renderParts (v : View) : List Part → List String → Except Failure (List Piece × List String)
  | [], slots => .ok ([], slots)
  | .text cs :: rest, slots => do
    let (out, slots) ← renderParts v rest slots
    return (if cs.isEmpty then out else .text cs :: out, slots)
  | .insertion m :: rest, slots => do
    match ← yield v m with
    | .verbatim cs =>
      let (out, slots) ← renderParts v rest slots
      return (.text cs :: out, slots)
    | .value x =>
      let (out, slots) ← renderParts v rest slots
      return (valuePiece m.isRaw x :: out, slots)
    | .inclusion document =>
      let slot := slotMark :: (toString slots.length).toList ++ [slotMark]
      let (out, slots) ← renderParts v rest (slots ++ [document])
      return (.text slot :: out, slots)

def Piece.chars : Piece → List Char
  | .text cs => cs
  | .number _ own => own

/-- Pieces put together after numbers that came to `sum`, which is written as `own`. -/
def joinAfter (sum : Number) (own : List Char) : List Piece → List Char
  | .number n _ :: rest => joinAfter (sum.add n) (sum.add n).text.toList rest
  | pieces => own ++ pieces.flatMap Piece.chars

def join : List Piece → List Char
  | .number n own :: rest => joinAfter n own rest
  | pieces => pieces.flatMap Piece.chars

def render (v : View) (parts : List Part) : Except Failure (List Char × List String) := do
  let (pieces, slots) ← renderParts v parts []
  return (join pieces, slots)

end ScriptedText.Mustache
