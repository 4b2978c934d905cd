import ScriptedText.Text.Blank
import ScriptedText.Text.Cut
import ScriptedText.Text.Unit16

/-!
Paths as lists of components below the origin of a file tree, and names of files with their extensions.
-/

namespace ScriptedText.Files

abbrev Path := List String

/-- Components of a written path. -/
def components (s : String) : List String := (Text.splitAt '/' s.toList).map String.ofList

/-- Goes one written component further. A step up from the origin leaves the tree for good. -/
def Path.step (p : Path) (c : String) : Path :=
  if c = "" || c = "." then p
  else if c = ".." then
    match p.getLast? with
    | none | some ".." => p ++ [c]
    | some _ => p.dropLast
  else p ++ [c]

/-- Goes along a written path. -/
def Path.resolve (p : Path) (written : String) : Path := (components written).foldl Path.step p

def isSlash (c : Char) : Bool := c = '/' || c = '\\'

/-- A document name without the slashes of either kind that it starts with. -/
def relativeName (name : String) : String := String.ofList (name.toList.dropWhile isSlash)

/-- The components of `p` below `base`, for a path that does not leave it. A component that starts with two dots
counts as leaving when it comes first. -/
def Path.below? (base p : Path) : Option Path :=
  match base.isPrefixOf? p with
  | none => none
  | some [] => some []
  | some (c :: rest) => if Text.startsWith c ".." then none else some (c :: rest)

/-- The place of the dot that sets off the extension: the last one, unless it comes first. -/
def extensionDot? (name : List Char) : Option Nat :=
  if name = ['.', '.'] then none
  else
    match name.reverse.findIdx? (· = '.') with
    | none => none
    | some i => if i + 1 = name.length then none else some (name.length - 1 - i)

/-- The extension of a file name with its dot, or nothing. -/
def extension (name : String) : String :=
  match extensionDot? name.toList with
  | none => ""
  | some i => String.ofList (name.toList.drop i)

/-- A file name without its extension. -/
def stem (name : String) : String :=
  match extensionDot? name.toList with
  | none => name
  | some i => String.ofList (name.toList.take i)

/-- The extension of a file name without its dot. -/
def bareExtension (name : String) : String := String.ofList ((extension name).toList.drop 1)

/-- Characters in the order in which names are listed, before letters of either case. -/
def collationTable : List Char :=
  "_-,;:!?.'\"()[]\x7b\x7d@*/\\&#%\x60^+<=>|~$0123456789".toList

/-- The place of a character in a listing, without regard to case. -/
def collationKey (c : Char) : Nat :=
  if Text.isBlank c then 0
  else
    match collationTable.findIdx? (· = c) with
    | some i => i + 1
    | none => 1000 + c.toLower.toNat

def caseKey (c : Char) : Nat := if c.isUpper then 1 else 0

/-- Listing order: first without regard to case, a shorter name before its continuations; then small letters
before capitals at the first difference. -/
def collatesLe (a b : String) : Bool :=
  let ka := a.toList.map collationKey
  let kb := b.toList.map collationKey
  if ka = kb then Text.listLe (a.toList.map caseKey) (b.toList.map caseKey) else Text.listLe ka kb

example : extension "dot." = "." ∧ extension ".hidden" = "" ∧ stem "two.a.b" = "two.a" := by decide +kernel
example : Path.resolve ["base"] "docs/../.././x//y" = ["x", "y"] := by decide +kernel

end ScriptedText.Files
