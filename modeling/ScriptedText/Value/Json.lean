import ScriptedText.Text.Quoted
import ScriptedText.Value.Basic

/-!
Values in JSON notation: on one line, on indented lines, and read back with the order of fields kept.
-/

namespace ScriptedText.Value

mutual

def json : Value → String
  | .undefined => "null"
  | .null => "null"
  | .bool b => if b then "true" else "false"
  | .number n => n.textOrNull
  | .text s => Text.quote s
  | .list items => "[" ++ ",".intercalate (jsonItems items) ++ "]"
  | .record fields => "\x7b" ++ ",".intercalate (jsonFields fields) ++ "\x7d"

def jsonItems : List Value → List String
  | [] => []
  | v :: rest => json v :: jsonItems rest

def jsonFields : List (String × Value) → List String
  | [] => []
  | (key, v) :: rest => (Text.quote key ++ ":" ++ json v) :: jsonFields rest

end

def spaces (n : Nat) : String := String.ofList (List.replicate n ' ')

/-- Lines between two brackets, two blanks further in; an empty list or record stays on its line. -/
def block (opening closing : String) (depth : Nat) (lines : List String) : String :=
  if lines.isEmpty then opening ++ closing
  else
    let inner := lines.map fun line => spaces (2 * (depth + 1)) ++ line
    opening ++ "\n" ++ ",\n".intercalate inner ++ "\n" ++ spaces (2 * depth) ++ closing

mutual

def indented (depth : Nat) : Value → String
  | .list items => block "[" "]" depth (indentedItems (depth + 1) items)
  | .record fields => block "\x7b" "\x7d" depth (indentedFields (depth + 1) fields)
  | .undefined => "null"
  | .null => "null"
  | .bool b => if b then "true" else "false"
  | .number n => n.textOrNull
  | .text s => Text.quote s

def indentedItems (depth : Nat) : List Value → List String
  | [] => []
  | v :: rest => indented depth v :: indentedItems depth rest

def indentedFields (depth : Nat) : List (String × Value) → List String
  | [] => []
  | (key, v) :: rest => (Text.quote key ++ ": " ++ indented depth v) :: indentedFields depth rest

end

def isJsonBlank (c : Char) : Bool := c = ' ' || c = '\t' || c = '\n' || c = '\r'

def skipBlank (cs : List Char) : List Char := cs.dropWhile isJsonBlank

/-- A string whose opening quote was read. -/
def readString (cs : List Char) : Option (String × List Char) := do
  let (inside, rest) ← Text.quotedInside cs
  let text ← Text.unescape? inside
  some (String.ofList text, rest)

/-- A number with its sign, and what follows it. -/
def readNumber (cs : List Char) : Option (Number × List Char) :=
  let read (negative : Bool) (cs : List Char) : Option (Number × List Char) :=
    (Decimal.read? cs).map fun (d, rest) => (.ofDecimal negative d, rest)
  match cs with
  | '-' :: rest => read true rest
  | _ => read false cs

mutual

/-- Reads one value at the head of a text; `fuel` bounds the nesting and the number of items. -/
def readValue : Nat → List Char → Option (Value × List Char)
  | 0, _ => none
  | fuel + 1, cs =>
    match skipBlank cs with
    | '"' :: rest => (readString rest).map fun (s, rest) => (.text s, rest)
    | '[' :: rest =>
      match skipBlank rest with
      | ']' :: rest => some (.list [], rest)
      | rest => (readItems fuel rest).map fun (items, rest) => (.list items, rest)
    | '\x7b' :: rest =>
      match skipBlank rest with
      | '\x7d' :: rest => some (.record [], rest)
      | rest => (readFields fuel rest).map fun (fields, rest) => (recordOf fields, rest)
    | 't' :: 'r' :: 'u' :: 'e' :: rest => some (.bool true, rest)
    | 'f' :: 'a' :: 'l' :: 's' :: 'e' :: rest => some (.bool false, rest)
    | 'n' :: 'u' :: 'l' :: 'l' :: rest => some (.null, rest)
    | cs => (readNumber cs).map fun (n, rest) => (.number n, rest)

def readItems : Nat → List Char → Option (List Value × List Char)
  | 0, _ => none
  | fuel + 1, cs => do
    let (v, rest) ← readValue fuel cs
    match skipBlank rest with
    | ',' :: rest => (readItems fuel rest).map fun (items, rest) => (v :: items, rest)
    | ']' :: rest => some ([v], rest)
    | _ => none

def readFields : Nat → List Char → Option (List (String × Value) × List Char)
  | 0, _ => none
  | fuel + 1, cs =>
    match skipBlank cs with
    | '"' :: rest => do
      let (key, rest) ← readString rest
      match skipBlank rest with
      | ':' :: rest =>
        let (v, rest) ← readValue fuel rest
        match skipBlank rest with
        | ',' :: rest => (readFields fuel rest).map fun (fields, rest) => ((key, v) :: fields, rest)
        | '\x7d' :: rest => some ([(key, v)], rest)
        | _ => none
      | _ => none
    | _ => none

end

def ofJson? (s : String) : Option Value := do
  let cs := s.toList
  let (v, rest) ← readValue (cs.length + 1) cs
  if (skipBlank rest).isEmpty then some v else none

example : (ofJson? "[1, \"a\\n\", null, -2.50]").map json = some "[1,\"a\\n\",null,-2.5]" := by decide +kernel

end ScriptedText.Value
