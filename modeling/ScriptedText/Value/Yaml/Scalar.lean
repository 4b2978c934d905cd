import ScriptedText.Text.Cut
import ScriptedText.Text.Quoted
import ScriptedText.Value.Basic

/-!
Scalars of YAML: what a plain one stands for in the core schema, how lines of one scalar are folded, and what stands
between quotes.
-/

namespace ScriptedText.Yaml

def isBlank (c : Char) : Bool := c = ' ' || c = '\t'

def trimLeft (cs : List Char) : List Char := cs.dropWhile isBlank

def trimRight (cs : List Char) : List Char := (cs.reverse.dropWhile isBlank).reverse

def trim (cs : List Char) : List Char := trimRight (trimLeft cs)

/-! ### What a plain scalar stands for -/

/-- The sign before a number, if it is negative, and the rest. -/
def signOf : List Char → Bool × List Char
  | '-' :: rest => (true, rest)
  | '+' :: rest => (false, rest)
  | rest => (false, rest)

def intOf? (cs : List Char) : Option Number :=
  match cs with
  | '0' :: 'x' :: digits => (Number.natOf? 16 digits).map fun n => .ofInt n
  | '0' :: 'o' :: digits => (Number.natOf? 8 digits).map fun n => .ofInt n
  | _ => let (negative, digits) := signOf cs; (Number.natOf? 10 digits).map fun n => .ofQuotient negative n 1

def floatOf? (cs : List Char) : Option Number :=
  let (negative, rest) := signOf cs
  if [".inf", ".Inf", ".INF"].contains (String.ofList rest) then some (.infinite negative)
  else if [".nan", ".NaN", ".NAN"].contains (String.ofList cs) then some .nan
  else (Decimal.ofChars? rest).map (.ofDecimal negative)

def nullOf? (cs : List Char) : Option Value :=
  if ["", "~", "null", "Null", "NULL"].contains (String.ofList cs) then some .null else none

def boolOf? (cs : List Char) : Option Value :=
  if ["true", "True", "TRUE"].contains (String.ofList cs) then some (.bool true)
  else if ["false", "False", "FALSE"].contains (String.ofList cs) then some (.bool false)
  else none

def plainValue (cs : List Char) : Value :=
  match nullOf? cs <|> boolOf? cs, intOf? cs <|> floatOf? cs with
  | some v, _ => v
  | none, some n => .number n
  | none, none => .text (String.ofList cs)

/-- What a scalar stands for whose kind is told. A text that is no such thing stands for itself. -/
def valueOfKind (kind : String) (cs : List Char) : Value :=
  let found := match kind with
    | "null" => nullOf? cs
    | "bool" => boolOf? cs
    | "int" => (intOf? cs).map .number
    | "float" => if (intOf? cs).isSome then none else (floatOf? cs).map .number
    | _ => none
  found.getD (.text (String.ofList cs))

/-! ### Folded lines -/

/-- What stands for a line break that `count` empty lines follow. -/
def foldedBreak (count : Nat) : List Char := if count = 0 then [' '] else List.replicate count '\n'

/-- Lines after the first, `empties` empty ones having been passed. -/
def foldRest (empties : Nat) : List (List Char) → List Char
  | [] => []
  | [last] => foldedBreak empties ++ last
  | line :: rest =>
    if line.isEmpty then foldRest (empties + 1) rest else foldedBreak empties ++ line ++ foldRest 0 rest

def foldLines : List (List Char) → List Char
  | [] => []
  | line :: rest => line ++ foldRest 0 rest

/-- Whether lines that go on with a scalar are far enough in. Empty ones need not be. -/
def isIndented (next : Nat) : List (List Char) → Bool
  | [] => true
  | line :: rest =>
    let inside := line.dropWhile (· = ' ')
    ((inside.isEmpty && !rest.isEmpty) || next ≤ line.length - inside.length) && isIndented next rest

/-! ### Quoted scalars -/

/-- The inside of a text in apostrophes, after the first one: an apostrophe inside is written twice. -/
def singleInside : List Char → Option (List Char × List Char)
  | [] => none
  | '\'' :: '\'' :: rest => (singleInside rest).map fun (s, rest) => ('\'' :: s, rest)
  | '\'' :: rest => some ([], rest)
  | c :: rest => (singleInside rest).map fun (s, rest) => (c :: s, rest)

def trimLines : List (List Char) → List (List Char)
  | [] => []
  | [last] => [trimLeft last]
  | line :: rest => trim line :: trimLines rest

/-- The lines of a quoted text without the blanks around breaks. -/
def quotedLines : List (List Char) → List (List Char)
  | line :: more :: rest => trimRight line :: trimLines (more :: rest)
  | lines => lines

/-- The character that a letter after a backslash stands for. -/
def escapes : List (Char × Char) :=
  [('0', '\x00'), ('a', '\x07'), ('b', '\x08'), ('t', '\t'), ('n', '\n'), ('v', '\x0b'), ('f', '\x0c'), ('r', '\r'),
    ('e', '\x1b'), (' ', ' '), ('"', '"'), ('/', '/'), ('\\', '\\'), ('N', '\u0085'), ('_', '\u00a0'),
    ('L', '\u2028'), ('P', '\u2029'), ('\t', '\t')]

/-- How many hexadecimal digits follow a letter that gives a character by number. -/
def hexWidth? (c : Char) : Option Nat :=
  if c = 'x' then some 2 else if c = 'u' then some 4 else if c = 'U' then some 8 else none

/-- Whether a line ends after blanks. -/
def blankToBreak (cs : List Char) : Bool := (trimLeft cs).head? = some '\n'

/-- The breaks that follow a line break with nothing but blanks between them, and what comes then. -/
def breaks (cs : List Char) : Nat × List Char :=
  let run := cs.takeWhile fun c => isBlank c || c = '\n'
  (run.count '\n', cs.drop run.length)

/-- Text between quotation marks, of which every character is read. -/
def unescapeQuoted : Nat → List Char → Option (List Char)
  | _, [] => some []
  | 0, _ => none
  | fuel + 1, '\\' :: '\n' :: rest => unescapeQuoted fuel (trimLeft rest)
  | fuel + 1, '\\' :: c :: rest =>
    match hexWidth? c, escapes.lookup c with
    | some width, _ => do
      let digits := rest.take width
      if digits.length < width then failure
      let code ← Number.natOf? 16 digits
      let rest := rest.drop width
      if 0x10FFFF < code then failure
      let (c, rest) := if code < 0x10000 then Text.joinUnits code rest else (Char.ofNat code, rest)
      (unescapeQuoted fuel rest).map (c :: ·)
    | none, some e => (unescapeQuoted fuel rest).map (e :: ·)
    | none, none => none
  | fuel + 1, '\n' :: rest =>
    let (count, rest) := breaks rest
    (unescapeQuoted fuel rest).map (foldedBreak count ++ ·)
  | fuel + 1, c :: rest =>
    if isBlank c && blankToBreak rest then unescapeQuoted fuel (trimLeft rest)
    else (unescapeQuoted fuel rest).map (c :: ·)

/-- A quoted text at the head of `cs`, and what follows it. Its lines have to be `next` blanks in. -/
def quoted? (next : Nat) (cs : List Char) : Option (List Char × List Char) :=
  match cs with
  | '"' :: rest => do
    let (inside, rest) ← Text.quotedInside rest
    if !isIndented next ((Text.splitAt '\n' inside).drop 1) then failure
    let text ← unescapeQuoted inside.length inside
    some (text, rest)
  | '\'' :: rest => do
    let (inside, rest) ← singleInside rest
    let lines := Text.splitAt '\n' inside
    if !isIndented next (lines.drop 1) then failure
    some (foldLines (quotedLines lines), rest)
  | _ => none

example : (plainValue "0x10".toList).display = "16" ∧ (plainValue "+.5e1".toList).display = "5" := by decide +kernel
example : (quoted? 1 "'a \n\n  it''s' b".toList) = some ("a\nit's".toList, " b".toList) := by decide +kernel
example : (quoted? 1 "\"a\\\n b\\x41 \n c\"".toList) = some ("abA c".toList, []) := by decide +kernel
example : (quoted? 1 "'a\nb'".toList) = none := by decide +kernel

end ScriptedText.Yaml
