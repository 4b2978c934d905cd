import ScriptedText.Value.Yaml.Cursor

/-!
Values of YAML in brackets. Their lines have to be `next` blanks in; only the bracket that ends the whole may stand
one blank less, which is what `closing` is for.
-/

namespace ScriptedText.Yaml

/-- Passes over blanks, line breaks and comments. A comment has to be set off. -/
def flowGap (next closing : Nat) : Nat → Bool → List Char → Option (List Char)
  | 0, _, _ => none
  | fuel + 1, isSetOff, cs =>
    match trimLeft cs with
    | '#' :: rest =>
      if isSetOff || (cs.head?.map isBlank).getD false then flowGap next closing fuel false (rest.dropWhile (· ≠ '\n'))
      else none
    | '\n' :: line =>
      let indent := (line.takeWhile (· = ' ')).length
      match trimLeft line with
      | [] | '\n' :: _ | '#' :: _ => flowGap next closing fuel true line
      | c :: _ =>
        let enough := if c = ']' || c = '\x7d' then closing else next
        if enough ≤ indent then flowGap next closing fuel true line else none
    | text => some text

def skipGap (next closing : Nat) : Reader Unit := do
  let cs ← remaining
  match flowGap next closing (cs.length + 1) false cs with
  | some rest => goTo rest
  | none => failure

/-- Whether a part ends here without any content. -/
def endsPart (cs : List Char) : Bool :=
  marks true ':' cs || (cs.head?.map fun c => c = ',' || c = ']' || c = '\x7d').getD false

/-- Whether the colon after a key stands here. After a quoted or bracketed key nothing has to follow it. -/
def atColon (isClosed : Bool) (cs : List Char) : Bool :=
  marks true ':' cs || (isClosed && cs.head? = some ':')

/-- Goes over the comma to what follows, or over the closing bracket. Tells whether something may follow. -/
def flowNext (next closing : Nat) (bracket : Char) : Reader Bool := do
  skipGap next closing
  match ← remaining with
  | c :: rest =>
    goTo rest
    if c = ',' then return true else if c = bracket then return false else failure
  | [] => failure

mutual

def flowCollection : Nat → Nat → Nat → Reader Value
  | 0, _, _ => failure
  | fuel + 1, next, closing => do
    match ← remaining with
    | '[' :: rest =>
      goTo rest
      return .list (← flowItems fuel next closing)
    | '\x7b' :: rest =>
      goTo rest
      match recordOf? (← flowPairs fuel next closing) with
      | some v => return v
      | none => failure
    | _ => failure

/-- A value, and whether a quote or a bracket ends it. -/
def flowNode : Nat → Nat → Reader (Value × Bool)
  | 0, _ => failure
  | fuel + 1, next => do
    let p ← readProps true 3 {}
    if p.isGiven then skipGap next next
    let cs ← remaining
    if p.isGiven && endsPart cs then return (← p.finish (.plain []), false)
    else if cs.head? = some '[' || cs.head? = some '\x7b' then
      return (← p.finish (.whole (← flowCollection fuel next next)), true)
    else
      let content ← readScalar next true p
      return (← p.finish content, match content with | .quoted _ => true | _ => false)

/-- The value after a colon, which may be missing. -/
def flowValue : Nat → Nat → Nat → Reader Value
  | 0, _, _ => failure
  | fuel + 1, next, closing => do
    goTo ((← remaining).drop 1)
    skipGap next closing
    if endsPart (← remaining) then return .null else return (← flowNode fuel next).1

/-- A key with its value, if there is one. In a list a key that no mark stands before has to be short. -/
def flowPair : Nat → Nat → Nat → Bool → Reader (Value × Option Value × Bool)
  | 0, _, _, _ => failure
  | fuel + 1, next, closing, inList => do
    let isMarked := marks true '?' (← remaining)
    if isMarked then
      goTo ((← remaining).drop 1)
      skipGap next closing
    let start ← remaining
    let (key, isClosed) ← if endsPart start && (isMarked || marks true ':' start) then pure (.null, false)
      else flowNode fuel next
    skipGap next closing
    let stop ← remaining
    if atColon isClosed stop then
      if inList && !isMarked && !isShortKey (between start stop) then failure
      return (key, some (← flowValue fuel next closing), isMarked)
    else return (key, none, isMarked)

def flowItems : Nat → Nat → Nat → Reader (List Value)
  | 0, _, _ => failure
  | fuel + 1, next, closing => do
    skipGap next closing
    match ← remaining with
    | ']' :: rest =>
      goTo rest
      return []
    | _ =>
      let (key, value, isMarked) ← flowPair fuel next closing true
      let item := if value.isSome || isMarked then Value.record [(keyText key, value.getD .null)] else key
      if ← flowNext next closing ']' then return item :: (← flowItems fuel next closing) else return [item]

def flowPairs : Nat → Nat → Nat → Reader (List (Value × Value))
  | 0, _, _ => failure
  | fuel + 1, next, closing => do
    skipGap next closing
    match ← remaining with
    | '\x7d' :: rest =>
      goTo rest
      return []
    | _ =>
      let (key, value, _) ← flowPair fuel next closing false
      let pair := (key, value.getD .null)
      if ← flowNext next closing '\x7d' then return pair :: (← flowPairs fuel next closing) else return [pair]

end

end ScriptedText.Yaml
