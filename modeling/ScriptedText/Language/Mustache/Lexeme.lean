import ScriptedText.Text.Blank
import ScriptedText.Text.Cut
import ScriptedText.Value.Basic

/-!
What stands between the braces of a mustache, piece by piece: names, separators, literals, and the closing braces.
-/

namespace ScriptedText.Mustache

inductive Lexeme
  /-- A name, or a name in brackets, which then means nothing special. -/
  | name (x : String) (bracketed : Bool)
  | separator (c : Char)
  | data
  | equals
  | literal (v : Value)
  deriving Inhabited

/-- How a mustache is closed: by three braces or two, and whether blanks after it are dropped. -/
structure Closing where
  isTriple : Bool
  trims : Bool
  deriving DecidableEq, Repr

def isNameChar (c : Char) : Bool :=
  !(Text.isBlank c || "!\"#%&'()*+,./;<=>@[\\]^\x60\x7b|\x7d~".toList.contains c)

/-- Whether a name may end here: something that is neither a quote nor the like has to follow it. -/
def endsName : List Char → Bool
  | c :: _ => Text.isBlank c || "=~\x7d/.)|]".toList.contains c
  | [] => false

/-- Whether a literal may end here. -/
def endsLiteral : List Char → Bool
  | c :: _ => Text.isBlank c || "~\x7d)]".toList.contains c
  | [] => false

/-- The text in quotes at the head. A backslash keeps a quote from ending it, if another quote comes later that can
end it. -/
def quotedText (quote : Char) : List Char → Option (List Char × List Char)
  | [] => none
  | '\\' :: c :: rest =>
    if c = quote then
      match quotedText quote rest with
      | some (s, after) => some (c :: s, after)
      | none => some (['\\'], rest)
    else (quotedText quote (c :: rest)).map fun (s, after) => ('\\' :: s, after)
  | c :: rest =>
    if c = quote then some ([], rest)
    else (quotedText quote rest).map fun (s, after) => (c :: s, after)

/-- A name between brackets, after the opening one. A backslash keeps a bracket from ending it. -/
def bracketedName : List Char → Option (List Char × List Char)
  | [] => none
  | '\\' :: ']' :: rest =>
    match bracketedName rest with
    | some (s, after) => some (']' :: s, after)
    | none => some (['\\'], rest)
  | ']' :: rest => some ([], rest)
  | c :: rest => (bracketedName rest).map fun (s, after) => (c :: s, after)

def constants : List (String × Value) :=
  [("true", .bool true), ("false", .bool false), ("undefined", .undefined), ("null", .null)]

/-- A number of digits with a sign and a fraction, and what follows it. -/
def number? (cs : List Char) : Option (Number × List Char) :=
  let digits := if cs.head? = some '-' then cs.drop 1 else cs
  let whole := digits.takeWhile Char.isDigit
  let rest := digits.drop whole.length
  let fraction := match rest with
    | '.' :: rest => rest.takeWhile Char.isDigit
    | _ => []
  let rest := if fraction.isEmpty then rest else rest.drop (fraction.length + 1)
  if whole.isEmpty || !endsLiteral rest then none
  else some (.ofDecimal (cs.head? = some '-') ⟨digitsValue (whole ++ fraction), -fraction.length⟩, rest)

def constant? (cs : List Char) : Option (Value × List Char) :=
  let word := cs.takeWhile isNameChar
  let rest := cs.drop word.length
  if endsLiteral rest then (constants.lookup (String.ofList word)).map fun v => (v, rest) else none

/-- One piece at the head of a text that is not a blank, and what follows it. -/
def lexeme? (cs : List Char) : Option (Lexeme × List Char) :=
  match cs with
  | '=' :: rest => some (.equals, rest)
  | '@' :: rest => some (.data, rest)
  | '/' :: rest => some (.separator '/', rest)
  | '.' :: '.' :: rest => some (.name ".." false, rest)
  | '.' :: rest => some (if endsName rest then .name "." false else .separator '.', rest)
  | '"' :: rest => (quotedText '"' rest).map fun (s, rest) => (.literal (.text (String.ofList s)), rest)
  | '\'' :: rest => (quotedText '\'' rest).map fun (s, rest) => (.literal (.text (String.ofList s)), rest)
  | '[' :: rest => (bracketedName rest).map fun (s, rest) => (.name (String.ofList s) true, rest)
  | cs =>
    match constant? cs, number? cs with
    | some (v, rest), _ => some (.literal v, rest)
    | none, some (n, rest) => some (.literal (.number n), rest)
    | none, none =>
      let word := cs.takeWhile isNameChar
      let rest := cs.drop word.length
      if word.isEmpty || !endsName rest then none else some (.name (String.ofList word) false, rest)

/-- The closing braces at the head. Four of them close nothing here. -/
def closing? (cs : List Char) : Option (Closing × List Char) :=
  match cs with
  | '\x7d' :: '\x7d' :: '\x7d' :: '\x7d' :: _ => none
  | '\x7d' :: '~' :: '\x7d' :: '\x7d' :: rest => some (⟨true, true⟩, rest)
  | '\x7d' :: '\x7d' :: '\x7d' :: rest => some (⟨true, false⟩, rest)
  | '~' :: '\x7d' :: '\x7d' :: rest => some (⟨false, true⟩, rest)
  | '\x7d' :: '\x7d' :: rest => some (⟨false, false⟩, rest)
  | _ => none

/-- The pieces up to the closing braces; `fuel` bounds their number. -/
def lexemes? : Nat → List Char → Option (List Lexeme × Closing × List Char)
  | 0, _ => none
  | fuel + 1, cs =>
    let cs := Text.trimLeft cs
    match closing? cs with
    | some (closing, rest) => some ([], closing, rest)
    | none => do
      let (l, rest) ← lexeme? cs
      let (ls, closing, rest) ← lexemes? fuel rest
      some (l :: ls, closing, rest)

end ScriptedText.Mustache
