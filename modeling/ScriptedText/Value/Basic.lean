import ScriptedText.Value.Number

/-!
Values that programs, fault details and configuration files hold, and their text.
-/

namespace ScriptedText

inductive Value
  | undefined
  | null
  | bool (b : Bool)
  | number (n : Number)
  | text (s : String)
  | list (items : List Value)
  | record (fields : List (String × Value))
  deriving Inhabited

namespace Value

def int (n : Int) : Value := .number (.ofInt n)

/-- The place of a record's key among the keys that are counted before all others: a canonical index. -/
def index? (key : String) : Option Nat :=
  let cs := key.toList
  if cs.isEmpty || !cs.all Char.isDigit || (cs.head? = some '0' && cs.length ≠ 1) then none
  else
    let n := cs.foldl (fun n c => n * 10 + (c.toNat - 48)) 0
    if n < 4294967295 then some n else none

def putField (fields : List (String × Value)) (key : String) (v : Value) : List (String × Value) :=
  if fields.any (·.1 = key) then fields.map fun f => if f.1 = key then (key, v) else f
  else fields ++ [(key, v)]

/-- Fields in the order in which a record lists them: indices by size, then the others as they came. A key that
comes twice keeps its first place and its last value. -/
def orderedFields (pairs : List (String × Value)) : List (String × Value) :=
  let fields := pairs.foldl (fun fs p => putField fs p.1 p.2) []
  let indexed := fields.filter fun f => (index? f.1).isSome
  indexed.mergeSort (fun a b => (index? a.1).getD 0 ≤ (index? b.1).getD 0) ++
    fields.filter fun f => (index? f.1).isNone

def recordOf (pairs : List (String × Value)) : Value := .record (orderedFields pairs)

def field? (fields : List (String × Value)) (key : String) : Option Value := fields.lookup key

/-- What a record answers, as text, under the names that it knows without having such a field. -/
def inheritedText? (name : String) : Option String :=
  if name = "__proto__" then some "[object Object]"
  else if name = "constructor" then some "function Object() \x7b [native code] \x7d"
  else if ["__defineGetter__", "__defineSetter__", "hasOwnProperty", "__lookupGetter__", "__lookupSetter__",
      "isPrototypeOf", "propertyIsEnumerable", "toString", "valueOf", "toLocaleString"].contains name then
    some ("function " ++ name ++ "() \x7b [native code] \x7d")
  else none

mutual

/-- The text of a value. A record has none when its own `toString` field stands in the way, nor has a list that
holds such a record. -/
def text? : Value → Option String
  | .undefined => some "undefined"
  | .null => some "null"
  | .bool b => some (if b then "true" else "false")
  | .number n => some n.text
  | .text s => some s
  | .list items => (itemTexts? items).map (",".intercalate ·)
  | .record fields => if fields.any (·.1 = "toString") then none else some "[object Object]"

/-- Texts of a list's items, where nothing is written for a missing one. -/
def itemTexts? : List Value → Option (List String)
  | [] => some []
  | .undefined :: rest => (itemTexts? rest).map ("" :: ·)
  | .null :: rest => (itemTexts? rest).map ("" :: ·)
  | v :: rest => do
    let t ← text? v
    (itemTexts? rest).map (t :: ·)

end

/-- What is written for a value that may have no text of its own. -/
def display (v : Value) : String :=
  v.text?.getD (match v with | .list _ => "[object Array]" | _ => "[object Object]")

/-- What stands in a message for a name, given the record of its details. -/
def textUnder? (fields : List (String × Value)) (name : String) : Option String :=
  match field? fields name with
  | some .undefined => none
  | some v => some v.display
  | none => inheritedText? name

end Value

end ScriptedText
