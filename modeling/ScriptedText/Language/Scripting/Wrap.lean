import ScriptedText.Text.Blank

/-!
The wrapping of a program: its source becomes the body of an asynchronous function, and functions declared at the
start of a line are published, so that entry points can be found after the run.
-/

namespace ScriptedText.Scripting

/-- Lines of a source, without the characters that end them. -/
def lines : List Char → List (List Char)
  | [] => [[]]
  | c :: rest =>
    if Text.endsLine c then [] :: lines rest
    else match lines rest with
      | [] => [[c]]
      | line :: more => (c :: line) :: more

def isGap (c : Char) : Bool := c = ' ' || c = '\t'

def startsName (c : Char) : Bool := c.isAlpha || c = '_' || c = '$'

def inName (c : Char) : Bool := startsName c || c.isDigit

def afterWord? (word : String) (cs : List Char) : Option (List Char) := word.toList.isPrefixOf? cs

/-- What follows `async` and at least one blank, if that is how the text starts. -/
def skipAsync (cs : List Char) : List Char :=
  match afterWord? "async" cs with
  | some (c :: rest) => if isGap c then rest.dropWhile isGap else cs
  | _ => cs

/-- The name of the function that a line declares at its start. A star may stand before the name, and nothing
has to. -/
def declaredName? (line : List Char) : Option String := do
  let rest ← afterWord? "function" (skipAsync (line.dropWhile isGap))
  let rest := rest.dropWhile isGap
  let rest := match rest with
    | '*' :: more => more.dropWhile isGap
    | _ => rest
  match rest with
  | c :: more => if startsName c then some (String.ofList (c :: more.takeWhile inName)) else none
  | [] => none

def publishedNames (source : String) : List String := (lines source.toList).filterMap declaredName?

def publication (name : String) : String :=
  "if (typeof " ++ name ++ " === 'function') globalThis." ++ name ++ " = " ++ name ++ ";"

def wrap (source : String) : String :=
  "(async function () \x7b " ++ " ".intercalate ((publishedNames source).map publication) ++ source ++
    "\n\x7d).call(globalThis);"

example : publishedNames "functionfoo\n async function *g()\nfunction 1a" = ["foo", "g"] := by decide +kernel

end ScriptedText.Scripting
