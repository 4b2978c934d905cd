import ScriptedText.Text.Unit16
import ScriptedText.Value.Yaml.Scalar

/-!
Where the reading of a YAML text stands, and what is read alike in brackets and by indentation: names and kinds set
before a value, plain scalars over several lines, and what follows a mark.
-/

namespace ScriptedText.Yaml

structure Cursor where
  rest : List Char
  /-- Values that were given a name, the last one first. -/
  named : List (String × Value) := []

abbrev Reader := StateT Cursor Option

def remaining : Reader (List Char) := return (← get).rest

def goTo (cs : List Char) : Reader Unit := modify fun c => { c with rest := cs }

/-- Whether nothing stands here: a blank, a line break or the end. -/
def isGap : List Char → Bool
  | [] => true
  | c :: _ => isBlank c || c = '\n' || c = '\r'

def isBracketMark (c : Char) : Bool := [',', '[', ']', '\x7b', '\x7d'].contains c

/-- Whether a text starts with the mark `c`, which counts only if nothing stands right after it. -/
def marks (inBrackets : Bool) (c : Char) : List Char → Bool
  | x :: rest => x = c && (isGap rest || (inBrackets && (rest.head?.map isBracketMark).getD false))
  | [] => false

/-- Whether only a comment is left on the line, which a blank sets off. -/
def endsLine (cs : List Char) : Bool :=
  match trimLeft cs with
  | [] | '\n' :: _ => true
  | '#' :: _ => (cs.head?.map isBlank).getD false
  | _ => false

def toLineEnd : Reader Unit := do
  let cs ← remaining
  if endsLine cs then goTo (cs.dropWhile (· ≠ '\n')) else failure

/-- A line with content: the blanks before it, whether a tab follows them, and the text. -/
structure Line where
  indent : Nat
  tabbed : Bool
  text : List Char

/-- The next line with content, from the start of a line on. -/
def contentLine? : Nat → List Char → Option Line
  | 0, _ => none
  | fuel + 1, cs =>
    let inner := cs.dropWhile (· = ' ')
    match trimLeft inner with
    | [] => none
    | '\n' :: rest => contentLine? fuel rest
    | '#' :: rest => contentLine? fuel ((rest.dropWhile (· ≠ '\n')).drop 1)
    | text => some ⟨(cs.takeWhile (· = ' ')).length, inner.head? = some '\t', text⟩

/-- The next line with content, from the end of a line on. -/
def lineAhead? (cs : List Char) : Option Line := contentLine? (cs.length + 1) (cs.drop 1)

/-! ### Contents and their properties -/

inductive Content
  | plain (cs : List Char)
  | quoted (cs : List Char)
  | whole (v : Value)

/-- What may be set before a value: the kind of a scalar, which is empty for kinds that are not known here, and a
name under which the value can be had again. -/
structure Props where
  kind : Option String := none
  name : Option String := none

namespace Props

def isGiven (p : Props) : Bool := p.kind.isSome || p.name.isSome

def value (p : Props) : Content → Value
  | .whole v => v
  | .plain cs => match p.kind with
    | none => plainValue cs
    | some kind => valueOfKind kind cs
  | .quoted cs => match p.kind with
    | none => .text (String.ofList cs)
    | some kind => valueOfKind kind cs

def finish (p : Props) (content : Content) : Reader Value := do
  let v := p.value content
  if let some name := p.name then modify fun c => { c with named := (name, v) :: c.named }
  return v

/-- Properties of one value that were given in two places. -/
def merge? (p q : Props) : Option Props :=
  if (p.kind.isSome && q.kind.isSome) || (p.name.isSome && q.name.isSome) then none
  else some ⟨p.kind <|> q.kind, p.name <|> q.name⟩

end Props

def endsName (c : Char) : Bool := isBlank c || c = '\n' || c = '\r' || isBracketMark c

def isKindChar (c : Char) : Bool := c.isAlphanum || "-#;/?:@&=+$_.!~*'()%".toList.contains c

/-- The kind that a word after an exclamation mark tells. -/
def kindOf? (word : List Char) : Option String :=
  match word with
  | [] => some ""
  | '!' :: kind => if kind.isEmpty || kind.contains '!' then none else some (String.ofList kind)
  | word => if word.contains '!' then none else some ""

/-- A kind that is written in full, up to the closing bracket. -/
def fullKind? (word : List Char) : Option String :=
  if word = ['!'] || word = ['!', '!'] then none
  else some (String.ofList (("tag:yaml.org,2002:".toList.isPrefixOf? word).getD []))

/-- Properties, each with a gap after it. -/
def readProps (inBrackets : Bool) : Nat → Props → Reader Props
  | 0, p => return p
  | fuel + 1, p => do
    match ← remaining with
    | '&' :: cs =>
      let name := cs.takeWhile (!endsName ·)
      if p.name.isSome || name.isEmpty then failure
      next fuel { p with name := some (String.ofList name) } (cs.drop name.length)
    | '!' :: '<' :: cs =>
      let word := cs.takeWhile fun c => !isGap [c] && c ≠ '>'
      match fullKind? word, cs.drop word.length with
      | some kind, '>' :: rest =>
        if p.kind.isSome then failure
        next fuel { p with kind := some kind } rest
      | _, _ => failure
    | '!' :: cs =>
      let word := cs.takeWhile isKindChar
      match kindOf? word with
      | some kind =>
        if p.kind.isSome then failure
        next fuel { p with kind := some kind } (cs.drop word.length)
      | none => failure
    | _ => return p
where
  next (fuel : Nat) (p : Props) (rest : List Char) : Reader Props := do
    if !isGap rest && !(inBrackets && (rest.head?.map isBracketMark).getD false) then failure
    goTo (trimLeft rest)
    readProps inBrackets fuel p

/-! ### Scalars over several lines -/

/-- The text of a plain scalar on one line, up to a comment or a colon. -/
def plainRun (inBrackets : Bool) : Bool → List Char → List Char × List Char
  | _, [] => ([], [])
  | afterBlank, c :: rest =>
    if c = '\n' || (c = '#' && afterBlank) || marks inBrackets ':' (c :: rest) || (inBrackets && isBracketMark c) then
      ([], c :: rest)
    else let (s, after) := plainRun inBrackets (isBlank c) rest; (c :: s, after)

/-- The line that a plain scalar goes on with, and how many empty lines stand before it. -/
def continuation? (next : Nat) (inBrackets : Bool) : Nat → List Char → Option (Nat × List Char)
  | fuel + 1, '\n' :: line =>
    let inner := line.dropWhile (· = ' ')
    let isInside := next ≤ (line.takeWhile (· = ' ')).length
    match trimLeft inner with
    | [] => none
    | '\n' :: rest =>
      if isInside || inner.head? = some '\n' then
        (continuation? next inBrackets fuel ('\n' :: rest)).map fun (empties, text) => (empties + 1, text)
      else none
    | c :: rest =>
      if !isInside || c = '#' || marks inBrackets ':' (c :: rest) || (inBrackets && isBracketMark c) then none
      else some (0, c :: rest)
  | _, _ => none

/-- The lines of a plain scalar and what follows it. -/
def plainLines (next : Nat) (inBrackets : Bool) : Nat → List Char → List (List Char) × List Char
  | 0, cs => ([], cs)
  | fuel + 1, cs =>
    let (run, rest) := plainRun inBrackets false cs
    let run := trimRight run
    match continuation? next inBrackets rest.length rest with
    | none => ([run], cs.drop run.length)
    | some (empties, text) =>
      let (lines, rest) := plainLines next inBrackets fuel text
      (run :: List.replicate empties [] ++ lines, rest)

/-- Characters that no plain scalar starts with. -/
def indicators : List Char := "@\x60%*&!|>,[]\x7b\x7d#".toList

/-- A scalar or a value that has a name. -/
def readScalar (next : Nat) (inBrackets : Bool) (p : Props) : Reader Content := do
  let cs ← remaining
  match cs with
  | [] => failure
  | '*' :: rest =>
    let name := rest.takeWhile (!endsName ·)
    match (← get).named.lookup (String.ofList name) with
    | some v =>
      if p.isGiven then failure
      goTo (rest.drop name.length)
      return .whole v
    | none => failure
  | c :: _ =>
    if c = '"' || c = '\'' then
      match quoted? next cs with
      | some (text, rest) =>
        goTo rest
        return .quoted text
      | none => failure
    else if indicators.contains c || ['-', '?', ':'].any (marks inBrackets · cs) then failure
    else
      let (lines, rest) := plainLines next inBrackets cs.length cs
      goTo rest
      return .plain (foldLines lines)

/-! ### Pairs -/

/-- The text between two places, where the second comes later. -/
def between (start stop : List Char) : List Char := start.take (start.length - stop.length)

/-- Whether a key that no mark stands before fits: on one line, and its colon not far off. -/
def isShortKey (key : List Char) : Bool := !key.contains '\n' && Text.units key ≤ 1024

/-- Whether two keys are the same one. Not a number is never the same. -/
def sameKey : Value → Value → Bool
  | .null, .null => true
  | .bool a, .bool b => a = b
  | .number a, .number b => a = b && a ≠ .nan
  | .text a, .text b => a = b
  | _, _ => false

/-- How a key is written in the record. -/
def keyText : Value → String
  | .null => ""
  | .list [] => "[]"
  | .list items => "[ " ++ ", ".intercalate (items.map Value.display) ++ " ]"
  | .record fields => "\x7b " ++ ", ".intercalate (fields.map fun f => f.1 ++ ": " ++ f.2.display) ++ " \x7d"
  | v => v.display

def hasRepeatedKey : List (Value × Value) → Bool
  | [] => false
  | (key, _) :: rest => rest.any (fun p => sameKey key p.1) || hasRepeatedKey rest

def recordOf? (pairs : List (Value × Value)) : Option Value :=
  if hasRepeatedKey pairs then none else some (Value.recordOf (pairs.map fun p => (keyText p.1, p.2)))

end ScriptedText.Yaml
