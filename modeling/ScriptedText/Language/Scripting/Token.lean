import ScriptedText.Language.Scripting.Wrap
import ScriptedText.Text.Quoted
import ScriptedText.Text.Symbol
import ScriptedText.Value.Number

/-!
Words, numbers, strings and marks of the scripting language. A line break before a token is kept on record,
since it can end a statement.
-/

namespace ScriptedText.Scripting

inductive Token
  | number (n : Number)
  | text (s : String)
  | word (s : String)
  | mark (c : Char)
  deriving DecidableEq, Repr

/-- A token with the text from its start on and the text after it. -/
structure Lexeme where
  token : Token
  afterBreak : Bool
  start : List Char
  after : List Char

def simpleEscape (c : Char) : Char :=
  if c = 'n' then '\n'
  else if c = 't' then '\t'
  else if c = 'r' then '\r'
  else if c = 'b' then '\x08'
  else if c = 'f' then '\x0c'
  else if c = 'v' then '\x0b'
  else c

def hex2? : List Char → Option (Nat × List Char)
  | a :: b :: rest => do some ((← Text.hexValue? a) * 16 + (← Text.hexValue? b), rest)
  | _ => none

/-- A character by its number, in four hexadecimal digits or any number of them in braces. -/
def numbered? (cs : List Char) : Option (Char × List Char) :=
  match cs with
  | '\x7b' :: rest => do
    let digits := rest.takeWhile (· ≠ '\x7d')
    let n ← Number.natOf? 16 digits
    match rest.drop digits.length with
    | _ :: rest => if n < 0x110000 then some (Char.ofNat n, rest) else none
    | [] => none
  | cs => do
    let (unit, rest) ← Text.hex4? cs
    some (Text.joinUnits unit rest)

def isOctal (c : Char) : Bool := '0' ≤ c && c ≤ '7'

/-- A character by its number in at most three octal digits, below 256. -/
def octal (cs : List Char) : Char × List Char :=
  let digits := (cs.take (if cs.head?.any (· ≤ '3') then 3 else 2)).takeWhile isOctal
  (Char.ofNat ((Number.natOf? 8 digits).getD 0), cs.drop digits.length)

/-- A string up to its closing quote. A line break must not stand in it, unless a backslash stands before it:
then neither counts. -/
def stringWithin (quote : Char) : Nat → List Char → Option (List Char × List Char)
  | 0, _ => none
  | _, [] => none
  | fuel + 1, '\\' :: 'u' :: rest => do
    let (c, rest) ← numbered? rest
    (stringWithin quote fuel rest).map fun (s, after) => (c :: s, after)
  | fuel + 1, '\\' :: 'x' :: rest => do
    let (n, rest) ← hex2? rest
    (stringWithin quote fuel rest).map fun (s, after) => (Char.ofNat n :: s, after)
  | fuel + 1, '\\' :: '\r' :: '\n' :: rest => stringWithin quote fuel rest
  | fuel + 1, '\\' :: c :: rest =>
    if isOctal c then
      let (c, rest) := octal (c :: rest)
      (stringWithin quote fuel rest).map fun (s, after) => (c :: s, after)
    else if Text.endsLine c then stringWithin quote fuel rest
    else (stringWithin quote fuel rest).map fun (s, after) => (simpleEscape c :: s, after)
  | fuel + 1, c :: rest =>
    if c = quote then some ([], rest)
    else if c = '\n' || c = '\r' then none
    else (stringWithin quote fuel rest).map fun (s, after) => (c :: s, after)

/-- What follows a comment between `/*` and `*/`, and whether a line ends in it. -/
def afterBlock : List Char → Option (Bool × List Char)
  | [] => none
  | '*' :: '/' :: rest => some (false, rest)
  | c :: rest => (afterBlock rest).map fun (b, after) => (b || Text.endsLine c, after)

def startsWord (c : Char) : Bool := startsName c || Text.isForeignLetter c

def inWord (c : Char) : Bool := startsWord c || c.isDigit

/-- Digits, where one underscore may stand between two of them. -/
def digitRun (isDigit : Char → Bool) : List Char → List Char × List Char
  | c :: '_' :: d :: rest =>
    if isDigit c then
      if isDigit d then let (digits, after) := digitRun isDigit (d :: rest); (c :: digits, after)
      else ([c], '_' :: d :: rest)
    else ([], c :: '_' :: d :: rest)
  | c :: rest =>
    if isDigit c then let (digits, after) := digitRun isDigit rest; (c :: digits, after) else ([], c :: rest)
  | [] => ([], [])

def digitsWithin (base : Nat) (c : Char) : Bool := (Text.hexValue? c).any (· < base)

def ofBase (base : Nat) (cs : List Char) : Option (Number × List Char) := do
  let (digits, rest) := digitRun (digitsWithin base) cs
  let n ← Number.natOf? base digits
  some (.ofInt n, rest)

/-- A whole number with a fraction and an exponent, where it has them. -/
def decimal? (cs : List Char) : Option (Number × List Char) := do
  let (whole, rest) := digitRun Char.isDigit cs
  let (d, after) ← Decimal.read? (whole ++ rest)
  some (.ofDecimal false d, after)

/-- A number at the head. One that starts with a zero and has no digit above seven is octal. -/
def number? (cs : List Char) : Option (Number × List Char) :=
  match cs with
  | '0' :: c :: rest =>
    if c = 'x' || c = 'X' then ofBase 16 rest
    else if c = 'o' || c = 'O' then ofBase 8 rest
    else if c = 'b' || c = 'B' then ofBase 2 rest
    else if c = '_' then none
    else if c.isDigit then
      let digits := (c :: rest).takeWhile Char.isDigit
      if digits.all isOctal then
        (Number.natOf? 8 digits).map fun n => (.ofInt n, (c :: rest).drop digits.length)
      else (Decimal.read? (c :: rest)).map fun (d, after) => (.ofDecimal false d, after)
    else decimal? cs
  | cs => decimal? cs

def startsNumber : List Char → Bool
  | '.' :: c :: _ => c.isDigit
  | c :: _ => c.isDigit
  | [] => false

/-- Marks that change a variable: there are none. -/
def isStep : List Char → Bool
  | '+' :: '+' :: _ | '-' :: '-' :: _ => true
  | _ => false

def tokenizeFrom : Nat → Bool → List Char → Option (List Lexeme)
  | _, _, [] => some []
  | 0, _, _ => none
  | fuel + 1, broken, '/' :: '/' :: rest => tokenizeFrom fuel broken (rest.dropWhile (!Text.endsLine ·))
  | fuel + 1, broken, '/' :: '*' :: rest => do
    let (b, rest) ← afterBlock rest
    tokenizeFrom fuel (broken || b) rest
  | fuel + 1, broken, c :: rest =>
    let cs := c :: rest
    if Text.isBlank c then tokenizeFrom fuel (broken || Text.endsLine c) rest
    else if c = '"' || c = '\'' then do
      let (s, rest) ← stringWithin c (rest.length + 1) rest
      (tokenizeFrom fuel false rest).map (⟨.text (String.ofList s), broken, cs, rest⟩ :: ·)
    else if startsNumber cs then do
      let (n, rest) ← number? cs
      if rest.head?.any inWord then failure
      (tokenizeFrom fuel false rest).map (⟨.number n, broken, cs, rest⟩ :: ·)
    else if startsWord c then
      let w := cs.takeWhile inWord
      let rest := cs.dropWhile inWord
      (tokenizeFrom fuel false rest).map (⟨.word (String.ofList w), broken, cs, rest⟩ :: ·)
    else if isStep cs then none
    else (tokenizeFrom fuel false rest).map (⟨.mark c, broken, cs, rest⟩ :: ·)

def tokens? (source : String) : Option (List Lexeme) :=
  let cs := source.toList
  tokenizeFrom cs.length false cs

end ScriptedText.Scripting
