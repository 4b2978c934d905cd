import ScriptedText.Document.Segment

/-!
Collapsing: neighbours become one segment where that keeps the meaning. Both passes glue a list from the left
with a rule that says when the segment at hand takes up the next one.
-/

namespace ScriptedText

/-- `current` takes up the segments after it for as long as the rule allows; the first that it refuses goes on
in its place. -/
def glueFrom (absorb : Segment → Segment → Option Segment) (current : Segment) : List Segment → List Segment
  | [] => [current]
  | s :: rest =>
    match absorb current s with
    | some current => glueFrom absorb current rest
    | none => current :: glueFrom absorb s rest

def glue (absorb : Segment → Segment → Option Segment) : List Segment → List Segment
  | [] => []
  | s :: rest => glueFrom absorb s rest

namespace Segment

/-- A neighbour of the same kind and tag adds its text. The earlier location is kept. -/
def joinAlike (a b : Segment) : Option Segment :=
  if a.isProgram = b.isProgram ∧ a.tag = b.tag then some (a.append b.text) else none

/-- A program takes up what has its tag: another program's source, or a literal in the form that its language
gives to literals. -/
def takeUp (forms : FormTable) (a b : Segment) : Option Segment :=
  if a.isProgram ∧ a.tag = b.tag then
    if b.isProgram then some (a.append b.text)
    else (forms b.tag).map fun f => a.append (f.literal b.text)
  else none

end Segment

def mergeAdjacent : List Segment → List Segment := glue Segment.joinAlike

def foldLiterals (forms : FormTable) : List Segment → List Segment := glue (Segment.takeUp forms)

def collapse (forms : FormTable) (segments : List Segment) : List Segment :=
  foldLiterals forms (mergeAdjacent segments)

end ScriptedText
