import ScriptedText.Language.Scripting.Token
import ScriptedText.Value.Basic

/-!
Programs of the scripting language: function declarations and statements, read from tokens. Where programs wait for
what they call, `await` is no name; the flag `awaits` says so.
-/

namespace ScriptedText.Scripting

inductive Expr
  | literal (v : Value)
  | name (x : String)
  | member (e : Expr) (field : String)
  | call (f : Expr) (args : List Expr)
  | add (a b : Expr)
  | signed (negative : Bool) (e : Expr)
  | wait (e : Expr)
  deriving Inhabited

/-- How an expression is spelled where a message speaks of it. -/
def Expr.spelling : Expr → String
  | .literal (.text s) => "\"" ++ s ++ "\""
  | .literal v => v.display
  | .add a b => "(" ++ a.spelling ++ " + " ++ b.spelling ++ ")"
  | .signed negative e => (if negative then "(-" else "(+") ++ e.spelling ++ ")"
  | .wait e => e.spelling
  | .name x => x
  | .member e field => e.spelling ++ "." ++ field
  | .call f _ => f.spelling ++ "(...)"

inductive Statement
  | expression (e : Expr)
  | assign (x : String) (e : Expr)
  | throw (args : List Expr)
  | give (e : Option Expr)
  deriving Inhabited

structure Routine where
  name : String
  params : List String
  isAsync : Bool
  body : List Statement
  /-- The declaration as it was written. -/
  text : String

structure Program where
  routines : List Routine
  statements : List Statement

abbrev Tokens := List Lexeme

def mark? (c : Char) : Tokens → Option Tokens
  | ⟨.mark d, _, _, _⟩ :: rest => if d = c then some rest else none
  | _ => none

def word? (w : String) : Tokens → Option Tokens
  | ⟨.word x, _, _, _⟩ :: rest => if x = w then some rest else none
  | _ => none

/-- Words that are no names. -/
def reserved : List String :=
  ["break", "case", "catch", "class", "const", "continue", "debugger", "default", "delete", "do", "else", "enum",
    "export", "extends", "false", "finally", "for", "function", "if", "import", "in", "instanceof", "new", "null",
    "return", "super", "switch", "this", "throw", "true", "try", "typeof", "var", "void", "while", "with"]

def isName (awaits : Bool) (x : String) : Bool := !reserved.contains x && !(awaits && x = "await")

/-- The values that have words of their own. -/
def literalWord? (x : String) : Option Value :=
  if x = "null" then some .null
  else if x = "true" then some (.bool true)
  else if x = "false" then some (.bool false)
  else none

mutual

/-- A sum of operands, from left to right. `fuel` bounds the nesting and the number of operands. -/
def readExpr : Nat → Bool → Tokens → Option (Expr × Tokens)
  | 0, _, _ => none
  | fuel + 1, awaits, ts => do
    let (a, rest) ← readOperand fuel awaits ts
    readSum fuel awaits a rest

def readSum : Nat → Bool → Expr → Tokens → Option (Expr × Tokens)
  | 0, _, _, _ => none
  | fuel + 1, awaits, a, ts =>
    match mark? '+' ts with
    | some rest => do
      let (b, rest) ← readOperand fuel awaits rest
      readSum fuel awaits (.add a b) rest
    | none => some (a, ts)

def readOperand : Nat → Bool → Tokens → Option (Expr × Tokens)
  | 0, _, _ => none
  | fuel + 1, awaits, ts =>
    match ts with
    | ⟨.mark '-', _, _, _⟩ :: rest =>
      (readOperand fuel awaits rest).map fun (e, rest) => (.signed true e, rest)
    | ⟨.mark '+', _, _, _⟩ :: rest =>
      (readOperand fuel awaits rest).map fun (e, rest) => (.signed false e, rest)
    | ts =>
      match if awaits then word? "await" ts else none with
      | some rest => (readOperand fuel awaits rest).map fun (e, rest) => (.wait e, rest)
      | none => do
        let (e, rest) ← readAtom fuel awaits ts
        readCalls fuel awaits e rest

def readAtom : Nat → Bool → Tokens → Option (Expr × Tokens)
  | 0, _, _ => none
  | fuel + 1, awaits, ts =>
    match ts with
    | ⟨.number n, _, _, _⟩ :: rest => some (.literal (.number n), rest)
    | ⟨.text s, _, _, _⟩ :: rest => some (.literal (.text s), rest)
    | ⟨.word x, _, _, _⟩ :: rest =>
      match literalWord? x with
      | some v => some (.literal v, rest)
      | none => if isName awaits x || x = "this" then some (.name x, rest) else none
    | ⟨.mark '(', _, _, _⟩ :: rest => do
      let (e, rest) ← readExpr fuel awaits rest
      let rest ← mark? ')' rest
      some (e, rest)
    | _ => none

/-- Members and calls that follow an operand. -/
def readCalls : Nat → Bool → Expr → Tokens → Option (Expr × Tokens)
  | 0, _, _, _ => none
  | fuel + 1, awaits, e, ts =>
    match ts with
    | ⟨.mark '.', _, _, _⟩ :: ⟨.word field, _, _, _⟩ :: rest => readCalls fuel awaits (.member e field) rest
    | ⟨.mark '(', _, _, _⟩ :: rest => do
      let (args, rest) ← readArguments fuel awaits rest
      readCalls fuel awaits (.call e args) rest
    | _ => some (e, ts)

/-- Arguments up to the closing parenthesis. A comma may stand after the last. -/
def readArguments : Nat → Bool → Tokens → Option (List Expr × Tokens)
  | 0, _, _ => none
  | fuel + 1, awaits, ts =>
    match mark? ')' ts with
    | some rest => some ([], rest)
    | none => do
      let (e, rest) ← readExpr fuel awaits ts
      match rest with
      | ⟨.mark ',', _, _, _⟩ :: rest =>
        (readArguments fuel awaits rest).map fun (es, rest) => (e :: es, rest)
      | ⟨.mark ')', _, _, _⟩ :: rest => some ([e], rest)
      | _ => none

end

/-- Whether a statement may end here: at a semicolon, a line break, a closing brace or the end of the source. -/
def endsStatement : Tokens → Bool
  | [] => true
  | ⟨.mark ';', _, _, _⟩ :: _ => true
  | ⟨.mark '\x7d', _, _, _⟩ :: _ => true
  | t :: _ => t.afterBreak

def readStatement (fuel : Nat) (awaits : Bool) (ts : Tokens) : Option (Statement × Tokens) := do
  let (s, rest) ← match ts with
    | ⟨.word "throw", _, _, _⟩ :: ⟨.word "new", broken, _, _⟩ :: ⟨.word "Error", _, _, _⟩ :: rest =>
      if broken then none
      else
        match mark? '(' rest with
        | some rest => (readArguments fuel awaits rest).map fun (args, rest) => (Statement.throw args, rest)
        | none => some (.throw [], rest)
    | ⟨.word "return", _, _, _⟩ :: rest =>
      if endsStatement rest then some (.give none, rest)
      else (readExpr fuel awaits rest).map fun (e, rest) => (.give (some e), rest)
    | ⟨.word x, _, _, _⟩ :: ⟨.mark '=', _, _, _⟩ :: rest =>
      if isName awaits x then (readExpr fuel awaits rest).map fun (e, rest) => (.assign x e, rest) else none
    | ts => (readExpr fuel awaits ts).map fun (e, rest) => (.expression e, rest)
  if endsStatement rest then some (s, rest) else none

/-- Parameters up to the closing parenthesis. A comma may stand after the last. -/
def readParams : Nat → Bool → Tokens → Option (List String × Tokens)
  | 0, _, _ => none
  | fuel + 1, awaits, ts =>
    match ts with
    | ⟨.mark ')', _, _, _⟩ :: rest => some ([], rest)
    | ⟨.word x, _, _, _⟩ :: rest =>
      if !isName awaits x then none
      else
        match rest with
        | ⟨.mark ',', _, _, _⟩ :: rest => (readParams fuel awaits rest).map fun (xs, rest) => (x :: xs, rest)
        | ⟨.mark ')', _, _, _⟩ :: rest => some ([x], rest)
        | _ => none
    | _ => none

/-- Statements up to the closing brace of a function body, and what follows it. -/
def readBody : Nat → Bool → Tokens → Option (List Statement × List Char × Tokens)
  | 0, _, _ => none
  | fuel + 1, awaits, ts =>
    match ts with
    | ⟨.mark ';', _, _, _⟩ :: rest => readBody fuel awaits rest
    | ⟨.mark '\x7d', _, _, after⟩ :: rest => some ([], after, rest)
    | ts => do
      let (s, rest) ← readStatement fuel awaits ts
      (readBody fuel awaits rest).map fun (ss, after, rest) => (s :: ss, after, rest)

/-- A function whose keyword was read; its declaration starts at `start`. -/
def readRoutine (fuel : Nat) (isAsync : Bool) (start : List Char) (ts : Tokens) : Option (Routine × Tokens) :=
  match ts with
  | ⟨.word name, _, _, _⟩ :: ⟨.mark '(', _, _, _⟩ :: rest => do
    if !isName true name then failure
    let (params, rest) ← readParams fuel isAsync rest
    let rest ← mark? '\x7b' rest
    let (body, after, rest) ← readBody fuel isAsync rest
    let text := String.ofList (start.take (start.length - after.length))
    some ({ name, params, isAsync, body, text }, rest)
  | _ => none

def readProgram : Nat → Tokens → Option Program
  | _, [] => some ⟨[], []⟩
  | 0, _ => none
  | fuel + 1, ts =>
    match ts with
    | ⟨.mark ';', _, _, _⟩ :: rest => readProgram fuel rest
    | ⟨.word "function", _, start, _⟩ :: rest => do
      let (r, rest) ← readRoutine (fuel + 1) false start rest
      (readProgram fuel rest).map fun p => ⟨r :: p.routines, p.statements⟩
    | ⟨.word "async", _, start, _⟩ :: ⟨.word "function", false, _, _⟩ :: rest => do
      let (r, rest) ← readRoutine (fuel + 1) true start rest
      (readProgram fuel rest).map fun p => ⟨r :: p.routines, p.statements⟩
    | ts => do
      let (s, rest) ← readStatement (fuel + 1) true ts
      match rest with
      | ⟨.mark '\x7d', _, _, _⟩ :: _ => none
      | _ => (readProgram fuel rest).map fun p => ⟨p.routines, s :: p.statements⟩

def program? (source : String) : Option Program := do
  let ts ← tokens? source
  readProgram (4 * ts.length + 4) ts

/-- Of two functions with one name the later counts. -/
def Program.routine? (p : Program) (name : String) : Option Routine := p.routines.reverse.find? (·.name = name)

end ScriptedText.Scripting
