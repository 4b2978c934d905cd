import ScriptedText.Language.Dialogue
import ScriptedText.Language.Scripting.Syntax

/-!
What expressions yield, and what it counts as where a text, a number or a truth is wanted.
-/

namespace ScriptedText.Scripting

/-- Objects that the language has from the start, and what they say they are. -/
def standardObjects : List (String × String) :=
  [("this", "Object"), ("globalThis", "Object"), ("__proto__", "Object"), ("arguments", "Arguments"), ("Math", "Math"),
    ("JSON", "JSON"), ("Reflect", "Reflect"), ("Atomics", "Atomics"), ("Intl", "Intl"),
    ("WebAssembly", "WebAssembly"), ("console", "console")]

/-- What an expression yields. A routine is kept as the source of its program, its name and the scope of the run. -/
inductive Datum
  | value (v : Value)
  | handle (h : Handle)
  | routine (source name : String) (scope : Nat)
  /-- What the language has from the start, by its name. -/
  | standard (name : String)
  | method (h : Handle) (mode : CallMode)
  | later (d : Datum)
  deriving Inhabited

namespace Datum

def undefined : Datum := .value .undefined

def text (s : String) : Datum := .value (.text s)

/-- A routine reads as its declaration. -/
def routineText (source name : String) : String := (((program? source).bind (·.routine? name)).map Routine.text).getD ""

def standardText (name : String) : String :=
  match standardObjects.lookup name with
  | some kind => "[object " ++ kind ++ "]"
  | none => "function " ++ name ++ "() \x7b [native code] \x7d"

/-- The text of a datum. Records may lack one. -/
def text? : Datum → Option String
  | .value v => v.text?
  | .handle _ => some "[object Object]"
  | .routine source name _ => some (routineText source name)
  | .standard name => some (standardText name)
  | .method _ mode => some ("async " ++ mode.name ++ "(documentName)")
  | .later _ => some "[object Promise]"

def asText (d : Datum) : Dialogue String :=
  match d.text? with
  | some s => return s
  | none => Dialogue.error "Cannot convert object to primitive value"

/-- What is there to be waited for. Waiting once is enough. -/
def deferred : Datum → Datum
  | .later d => .later d
  | d => .later d

def toValue : Datum → Value
  | .value v => v
  | .later d => d.toValue
  | .handle _ => .record []
  | _ => .undefined

def toNote : Datum → Note
  | .value v => .value v
  | .handle h => .handle h
  | .routine source name scope => .routine source name scope
  | .standard name => .standard name
  | .method _ _ => .value .undefined
  | .later d => .later d.toNote

def ofService : Option Service → Datum
  | some (.handle h) => .handle h
  | some (.value v) => .value v
  | none => undefined

/-- What a note stands for; a service is not in it and is given. -/
def ofNote (service : Option Service) : Note → Datum
  | .value v => .value v
  | .handle h => .handle h
  | .routine source name scope => .routine source name scope
  | .standard name => .standard name
  | .service => ofService service
  | .later n => .later (ofNote service n)

/-- The number that a value counts as in a sum, if it is not text. -/
def number? : Datum → Option Number
  | .value .undefined => some .nan
  | .value .null => some .zero
  | .value (.bool b) => some (.ofInt (if b then 1 else 0))
  | .value (.number n) => some n
  | _ => none

def isTruthy : Datum → Bool
  | .value .undefined | .value .null => false
  | .value (.bool b) => b
  | .value (.number n) => n ≠ .zero && n ≠ .nan
  | .value (.text s) => s ≠ ""
  | _ => true

/-- Numbers are added; where one side is text, the texts are put together. -/
def add (a b : Datum) : Dialogue Datum := do
  match a.number?, b.number? with
  | some x, some y => return .value (.number (x.add y))
  | _, _ =>
    let s ← a.asText
    return .text (s ++ (← b.asText))

/-- The number that anything counts as where a number is wanted. -/
def toNumber (d : Datum) : Dialogue Number := do
  match d.number? with
  | some n => return n
  | none => return .ofChars (← d.asText).toList

end Datum

end ScriptedText.Scripting
