import ScriptedText.Value.Yaml.Block

/-!
Texts in YAML notation: one document, which marks may set off from directives before it and from nothing more
after it.
-/

namespace ScriptedText.Yaml

/-- Whether a line begins with a mark of three characters that stands alone. -/
def isMarkLine (mark : String) (line : List Char) : Bool :=
  match mark.toList.isPrefixOf? line with
  | some rest => isGap rest
  | none => false

/-- Whether a line holds nothing, or a comment only. -/
def isIdle (line : List Char) : Bool :=
  match trimLeft line with
  | [] | '#' :: _ => true
  | _ => false

/-- A line up to the comment that a blank sets off. -/
def beforeComment : List Char → List Char
  | [] => []
  | c :: '#' :: rest => if isBlank c then [] else c :: beforeComment ('#' :: rest)
  | c :: rest => c :: beforeComment rest

/-- The words of a directive. -/
def words (line : List Char) : List (List Char) :=
  (Text.splitAt ' ' ((trim (beforeComment line)).map fun c => if c = '\t' then ' ' else c)).filter (!·.isEmpty)

/-- A version is two numbers with a point between them. -/
def isVersion (word : List Char) : Bool :=
  match Text.splitAt '.' word with
  | [a, b] => !a.isEmpty && !b.isEmpty && a.all Char.isDigit && b.all Char.isDigit
  | _ => false

/-- Directives that are not known are passed over. -/
def isDirective (line : List Char) : Bool :=
  match words line with
  | name :: parts =>
    if name = "%YAML".toList then
      match parts with
      | [version] => isVersion version
      | _ => false
    else name ≠ "%TAG".toList || parts.length = 2
  | [] => false

def startsDirective (line : List Char) : Bool := line.head? = some '%'

/-- What the lines before a document come to: the directives, and the lines from the document on. -/
def prelude : List (List Char) → List (List Char) × List (List Char)
  | [] => ([], [])
  | line :: rest =>
    if startsDirective line then let (directives, rest) := prelude rest; (line :: directives, rest)
    else if isIdle line then prelude rest
    else ([], line :: rest)

/-- The text of the only document, from the end of the line above it on. -/
def documentText? (lines : List (List Char)) : Option (List Char) := do
  let (directives, lines) := prelude lines
  if !directives.all isDirective then failure
  let isMarked := (lines.head?.map (isMarkLine "---")).getD false
  if !directives.isEmpty && !isMarked then failure
  let (first, lines) := if isMarked then (((lines.head?.getD []).drop 3), lines.drop 1) else ([], lines)
  let isEnd (line : List Char) : Bool := isMarkLine "---" line || isMarkLine "..." line
  let body := lines.takeWhile (!isEnd ·)
  match lines.drop body.length with
  | [] => some (unsplit (first :: body))
  | mark :: after =>
    if isMarkLine "..." mark && isIdle (mark.drop 3) && after.all fun l => isIdle l || startsDirective l then
      some (unsplit (first :: body))
    else failure

/-- Tabs may stand before the first line of a document only if it is a value in brackets. -/
def tabsFit (cs : List Char) : Bool :=
  match lineAhead? cs with
  | some line => !line.tabbed || 0 < line.indent || line.text.head? = some '[' || line.text.head? = some '\x7b'
  | none => true

def readDocument (cs : List Char) : Reader Value := do
  goTo cs
  if endsLine cs && !tabsFit (cs.dropWhile (· ≠ '\n')) then failure
  let v ← nodeAfter (4 * cs.length + 8) 0 false
  if (lineAhead? (← remaining)).isSome then failure
  return v

/-- Line breaks of two characters are read as one. -/
def joinReturns : List Char → List Char
  | [] => []
  | '\r' :: '\n' :: rest => '\n' :: joinReturns rest
  | c :: rest => c :: joinReturns rest

/-- The value of a text, or nothing if it is not well formed. -/
def ofText? (s : String) : Option Value := do
  let cs := match s.toList with
    | '\ufeff' :: rest => rest
    | cs => cs
  let text ← documentText? (Text.splitAt '\n' (joinReturns cs))
  (readDocument text |>.run ⟨[], []⟩).map Prod.fst

end ScriptedText.Yaml
