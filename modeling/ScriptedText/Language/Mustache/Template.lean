import ScriptedText.Language.Mustache.Lexeme

/-!
Templates: text with mustaches, which are names or calls of a helper between two or three braces. A backslash
before the braces makes them text.
-/

namespace ScriptedText.Mustache

/-- Where a value is found: in what the template sees, some levels above it, or in the data of the rendering. -/
structure Path where
  isData : Bool := false
  depth : Nat := 0
  fields : List String
  /-- Whether the path starts from what the template sees and not from a name in it. -/
  isScoped : Bool := false
  spelling : String
  deriving DecidableEq, Repr

inductive Operand
  | literal (v : Value)
  | path (p : Path)
  deriving Inhabited

/-- A mustache: a value to write, or the helper that is called with the arguments. -/
structure Insertion where
  head : Operand
  arguments : List Operand := []
  /-- Whether named arguments come with it. -/
  isNamed : Bool := false
  isRaw : Bool
  trimsBefore : Bool := false
  trimsAfter : Bool := false
  deriving Inhabited

inductive Part
  | text (cs : List Char)
  | insertion (m : Insertion)
  deriving Inhabited

/-! ### Mustaches -/

/-- A path as far as it was read. A step to what the template sees, or above it, comes before all names. -/
def Path.extend? (p : Path) (separator : List Char) (x : String) (bracketed : Bool) : Option Path :=
  let spelling := p.spelling ++ String.ofList separator ++ x
  if !bracketed && ["..", ".", "this"].contains x then
    if p.fields.isEmpty then
      some { p with depth := if x = ".." then p.depth + 1 else p.depth, isScoped := true, spelling }
    else none
  else some { p with fields := p.fields ++ [x], spelling }

/-- The rest of a path. -/
def readPath (p : Path) : List Lexeme → Option (Path × List Lexeme)
  | .separator c :: .name x bracketed :: rest => do readPath (← p.extend? [c] x bracketed) rest
  | rest => some (p, rest)

def readOperand : List Lexeme → Option (Operand × List Lexeme)
  | .literal v :: rest => some (.literal v, rest)
  | .name x bracketed :: rest => do
    let start : Path := { fields := [], spelling := "" }
    let (p, rest) ← readPath (← start.extend? [] x bracketed) rest
    some (.path p, rest)
  | .data :: .name x bracketed :: rest => do
    let start : Path := { isData := true, fields := [], spelling := "@" }
    let (p, rest) ← readPath (← start.extend? [] x bracketed) rest
    some (.path p, rest)
  | _ => none

/-- Arguments up to the closing braces: first those without a name, then those with one. The named ones make no
difference but that they are there. -/
def readArguments : Nat → List Lexeme → Option (List Operand × Bool)
  | _, [] => some ([], false)
  | 0, _ => none
  | fuel + 1, .name _ _ :: .equals :: rest => do
    let (_, rest) ← readOperand rest
    match ← readArguments fuel rest with
    | ([], _) => some ([], true)
    | _ => none
  | fuel + 1, ls => do
    let (a, rest) ← readOperand ls
    (readArguments fuel rest).map fun (as, isNamed) => (a :: as, isNamed)

/-- Whether a text starts with a word and not with a longer one. -/
def startsWord (word : String) (cs : List Char) : Bool :=
  match word.toList.isPrefixOf? cs with
  | some (c :: _) => !(c.isAlphanum || c = '_')
  | some [] => true
  | none => false

/-- A mustache whose opening braces were read. -/
def readMustache (isTriple isRaw trimsBefore : Bool) (cs : List Char) : Option (Insertion × List Char) := do
  let (ls, closing, rest) ← lexemes? (cs.length + 1) cs
  if closing.isTriple ≠ isTriple then failure
  let (head, more) ← readOperand ls
  let (arguments, isNamed) ← readArguments more.length more
  some ({ head, arguments, isNamed, isRaw, trimsBefore, trimsAfter := closing.trims }, rest)

/-- A mustache whose first two braces were read. Branches of a block stand nowhere else, so `else` opens none. -/
def readOpened (trimsBefore : Bool) (cs : List Char) : Option (Insertion × List Char) :=
  match cs with
  | '\x7b' :: rest => readMustache true true trimsBefore rest
  | '&' :: rest => readMustache false true trimsBefore rest
  | cs => if startsWord "else" (Text.trimLeft cs) then none else readMustache false false trimsBefore cs

/-! ### Text -/

/-- Text up to the next pair of opening braces, and from there on. Without such a pair it is all text. -/
def upToBraces (cs : List Char) : List Char × List Char :=
  match Text.cut ['\x7b', '\x7b'] cs with
  | some (before, after) => (before, '\x7b' :: '\x7b' :: after)
  | none => (cs, [])

/-- Text that starts with escaped braces: at least these two, and on to the next braces or the backslashes right
before them. -/
def escapedText (cs : List Char) : List Char × List Char :=
  let (before, rest) := upToBraces (cs.drop 2)
  if rest.isEmpty then (cs.take 2 ++ before, [])
  else
    let slashes := (before.reverse.takeWhile (· = '\\')).length.min 2
    let kept := before.length - slashes
    (cs.take 2 ++ before.take kept, before.drop kept ++ rest)

/-- Reads a template; `fuel` bounds the number of its parts. A template holds no NUL character. -/
def readParts : Nat → List Char → Option (List Part)
  | _, [] => some []
  | 0, _ => none
  | fuel + 1, '\x7b' :: '\x7b' :: '~' :: rest => do
    let (m, rest) ← readOpened true rest
    (readParts fuel rest).map (.insertion m :: ·)
  | _ + 1, '\x7b' :: '\x7b' :: '\x7b' :: '\x7b' :: _ => none
  | fuel + 1, '\x7b' :: '\x7b' :: rest => do
    let (m, rest) ← readOpened false rest
    (readParts fuel rest).map (.insertion m :: ·)
  | fuel + 1, cs =>
    let (before, rest) := upToBraces cs
    if before.contains '\x00' then none
    else if rest.isEmpty then some [.text before]
    else
      let slashes := (before.reverse.takeWhile (· = '\\')).length
      if slashes = 1 then
        let (escaped, rest) := escapedText rest
        if escaped.contains '\x00' then none
        else (readParts fuel rest).map fun parts => .text before.dropLast :: .text escaped :: parts
      else
        let text := if 2 ≤ slashes then before.dropLast else before
        (readParts fuel rest).map (.text text :: ·)

/-- Drops the blanks that the mustaches beside a text want to be dropped. -/
def trimTexts (afterTrim : Bool) : List Part → List Part
  | [] => []
  | .insertion m :: rest => .insertion m :: trimTexts m.trimsAfter rest
  | .text cs :: rest =>
    let cs := if afterTrim then Text.trimLeft cs else cs
    let cs := match rest with
      | .insertion m :: _ => if m.trimsBefore then (Text.trimLeft cs.reverse).reverse else cs
      | _ => cs
    .text cs :: trimTexts false rest

def template? (source : String) : Option (List Part) :=
  let cs := source.toList
  (readParts (cs.length + 1) cs).map (trimTexts false)

example : (template? "\x7b\x7belse\x7d\x7d").isNone ∧ (template? "\x7b\x7b\x7belse\x7d\x7d\x7d").isSome := by decide +kernel
example : (template? "a\x7b\x7bx'b'\x7d\x7d").isNone ∧ (template? "a\x7b\x7bx 'b'\x7d\x7d").isSome := by decide +kernel

end ScriptedText.Mustache
