import ScriptedText.Fault.Basic
import ScriptedText.Text.Quoted

/-!
Words and statements of the command language. Blanks part words, a semicolon ends a statement, and a word in
quotes is a JSON string.
-/

namespace ScriptedText.Command

inductive Token
  | bare (text : String)
  | quoted (text : String)
  deriving DecidableEq, Repr

def Token.text : Token → String
  | .bare s => s
  | .quoted s => s

def parts (c : Char) : Bool := c = ' ' || c = '\t' || c = '\n' || c = '\r'

def endsWord (c : Char) : Bool := parts c || c = ';' || c = '"'

def badString : Failure := .error "bad string"

/-- Statements as lists of words; `current` holds the words of the statement under way, last word first. Each
round reads a character at least, so that as many rounds as there are characters are enough. -/
def tokenizeFrom : Nat → List Token → List Char → Except Failure (List (List Token))
  | _, current, [] => .ok (if current.isEmpty then [] else [current.reverse])
  | 0, _, _ => .error badString
  | fuel + 1, current, c :: rest =>
    if parts c then tokenizeFrom fuel current rest
    else if c = ';' then do
      let others ← tokenizeFrom fuel [] rest
      return if current.isEmpty then others else current.reverse :: others
    else if c = '"' then
      match Text.quotedInside rest with
      | none => .error badString
      | some (inside, after) =>
        match Text.unescape? inside with
        | none => .error badString
        | some text => tokenizeFrom fuel (.quoted (String.ofList text) :: current) after
    else
      let word := c :: rest.takeWhile (!endsWord ·)
      tokenizeFrom fuel (.bare (String.ofList word) :: current) (rest.dropWhile (!endsWord ·))

/-- A command with its operands. -/
structure Statement where
  command : Token
  operands : List Token
  deriving DecidableEq, Repr

def statements (source : String) : Except Failure (List Statement) := do
  let cs := source.toList
  let lists ← tokenizeFrom cs.length [] cs
  return lists.filterMap fun
    | [] => none
    | command :: operands => some ⟨command, operands⟩

/-- The operand at a place, taken literally. -/
def Statement.operandText (s : Statement) (i : Nat) : String := ((s.operands[i]?).map Token.text).getD ""

end ScriptedText.Command
