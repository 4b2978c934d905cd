import ScriptedText.Language.Scripting.Datum

/-!
Routines that the language has from the start: those for output, those that every object has, and those that turn
values into texts, numbers and truths. The first are globals, the second are found where there is no global, and the
others after these.
-/

namespace ScriptedText.Scripting

/-- Routines that every object has. -/
def inherited : List String :=
  ["hasOwnProperty", "isPrototypeOf", "propertyIsEnumerable", "toLocaleString", "toString", "valueOf",
    "__defineGetter__", "__defineSetter__", "__lookupGetter__", "__lookupSetter__"]

/-- What an object without routines of its own finds under a name. -/
def inherited? (name : String) : Option Datum :=
  if name = "constructor" then some (.standard "Object")
  else if inherited.contains name then some (.standard name)
  else none

/-- Routines that make objects and are not for calls. -/
def makers : List String :=
  ["ArrayBuffer", "DataView", "FinalizationRegistry", "Map", "Proxy", "Set", "SharedArrayBuffer", "WeakMap", "WeakRef",
    "WeakSet", "Int8Array", "Uint8Array", "Uint8ClampedArray", "Int16Array", "Uint16Array", "Int32Array",
    "Uint32Array", "BigInt64Array", "BigUint64Array", "Float32Array", "Float64Array"]

/-- Routines that make errors. -/
def errorMakers : List String :=
  ["Error", "EvalError", "RangeError", "ReferenceError", "SyntaxError", "TypeError", "URIError"]

def otherRoutines : List String :=
  ["AggregateError", "Array", "BigInt", "Boolean", "Date", "Function", "Number", "Object", "Promise", "RegExp", "String",
    "Symbol", "decodeURI", "decodeURIComponent", "encodeURI", "encodeURIComponent", "escape", "eval", "isFinite",
    "isNaN", "parseFloat", "parseInt", "unescape"]

def standard? (name : String) : Option Datum :=
  if (standardObjects.lookup name).isSome || (makers ++ errorMakers ++ otherRoutines).contains name then
    some (.standard name)
  else none

/-! ### Numbers from texts -/

/-- The value of a digit or letter as a digit. -/
def digitValue (c : Char) : Nat :=
  if c.isDigit then c.toNat - '0'.toNat else if c.isAlpha then c.toLower.toNat - 'a'.toNat + 10 else 36

/-- A sign at the head, and what follows it. -/
def signOf (cs : List Char) : Bool × List Char :=
  match cs with
  | '-' :: rest => (true, rest)
  | '+' :: rest => (false, rest)
  | cs => (false, cs)

/-- The integer that a text starts with, in a base; none is given as zero. -/
def leadingInteger (cs : List Char) (base : Int) : Number :=
  let (negative, cs) := signOf (Text.trimLeft cs)
  let (base, cs) := match cs with
    | '0' :: c :: rest => if (c = 'x' || c = 'X') && (base = 0 || base = 16) then (16, rest) else (base, cs)
    | _ => (base, cs)
  let base := if base = 0 then 10 else base
  let digits := cs.takeWhile fun c => digitValue c < base
  if base < 2 || 36 < base || digits.isEmpty then .nan
  else
    let n := digits.foldl (fun n c => n * base + digitValue c) 0
    .ofInt (if negative then -n else n)

/-- The decimal that a text starts with. -/
def leadingDecimal (cs : List Char) : Number :=
  let (negative, cs) := signOf (Text.trimLeft cs)
  if ("Infinity".toList.isPrefixOf? cs).isSome then .infinite negative
  else
    match Decimal.read? cs with
    | some (d, _) => .ofDecimal negative d
    | none => .nan

/-! ### Calls -/

/-- The names of the globals that were made, and what they stand for. -/
def ownGlobals : Dialogue (List (String × Note)) := do
  return (← Dialogue.pose .notes).filterMap fun (key, n) => if key.scope = 0 then some (key.name, n) else none

/-- Globals as a record, without routines. -/
def globalsRecord : Dialogue Value := do
  return Value.recordOf ((← ownGlobals).filterMap fun (name, n) =>
    match n with
    | .value v => some (name, v)
    | _ => none)

/-- Whether a datum is more than a bare value. -/
def isObject : Datum → Bool
  | .value (.record _) | .value (.list _) => true
  | .value _ => false
  | _ => true

/-- A routine that every object has, called on the globals or on nothing. -/
def callInherited (name : String) (onGlobals : Bool) (args : List Datum) : Dialogue Datum := do
  let first := args.head?.getD .undefined
  match name, onGlobals with
  | "isPrototypeOf", false =>
    if isObject first then Dialogue.error "Cannot convert undefined or null to object"
    else return .value (.bool false)
  | "toString", false => return .text "[object Undefined]"
  | "toLocaleString", false => Dialogue.error "Object.prototype.toLocaleString called on null or undefined"
  | _, false => Dialogue.error "Cannot convert undefined or null to object"
  | "toString", _ | "toLocaleString", _ => return .text "[object Object]"
  | "valueOf", _ => return .value (← globalsRecord)
  | "hasOwnProperty", _ | "propertyIsEnumerable", _ =>
    let name ← first.asText
    return .value (.bool ((← ownGlobals).any (·.1 = name)))
  | "isPrototypeOf", _ => return .value (.bool false)
  | "__defineGetter__", _ | "__defineSetter__", _ =>
    Dialogue.error ("Object.prototype." ++ name ++ ": Expecting function")
  | _, _ => return .undefined

/-- An error with a message reads as both. -/
def errorText (name message : String) : String := if message = "" then name else name ++ ": " ++ message

/-- A routine that turns its argument into something else. -/
def convert (name : String) (args : List Datum) : Dialogue Datum := do
  let first := args.head?.getD .undefined
  match name with
  | "String" => return .text (← if args.isEmpty then pure "" else first.asText)
  | "Number" => return .value (.number (← if args.isEmpty then pure .zero else first.toNumber))
  | "Boolean" => return .value (.bool first.isTruthy)
  | "Object" =>
    match first with
    | .value .undefined | .value .null => return .value (.record [])
    | d => return d
  | "parseInt" =>
    let text ← first.asText
    let base ← ((args.drop 1).head?.getD .undefined).toNumber
    return .value (.number (leadingInteger text.toList (base.int?.getD 0)))
  | "parseFloat" => return .value (.number (leadingDecimal (← first.asText).toList))
  | "isNaN" => return .value (.bool ((← first.toNumber) = .nan))
  | "isFinite" =>
    match ← first.toNumber with
    | .finite _ _ => return .value (.bool true)
    | _ => return .value (.bool false)
  | "Promise" => Dialogue.error "Promise constructor cannot be invoked without 'new'"
  | name =>
    if errorMakers.contains name then
      return .text (errorText name (← if first matches .value .undefined then pure "" else first.asText))
    else if makers.contains name then Dialogue.error ("Constructor " ++ name ++ " requires 'new'")
    else return .undefined

/-- Calls a standard routine on nothing. Objects are not for calls. -/
def callStandard (name spelling : String) (args : List Datum) : Dialogue Datum := do
  match name with
  | "print" =>
    Dialogue.write (← (args.head?.getD .undefined).asText)
    return .undefined
  | "println" =>
    let text ← match args.head? with
      | none | some (.value .undefined) => pure ""
      | some d => d.asText
    Dialogue.write (text ++ "\n")
    return .undefined
  | name =>
    if (standardObjects.lookup name).isSome then Dialogue.error (spelling ++ " is not a function")
    else if inherited.contains name then callInherited name false args
    else convert name args

end ScriptedText.Scripting
