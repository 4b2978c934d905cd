import ScriptedText.Text.Blank

/-!
What stands between two delimiters: a marker, a language tag and code.
-/

namespace ScriptedText

inductive Marker
  | plain
  | expression
  | inclusion
  | inFlow
  deriving DecidableEq, Repr

def Marker.ofChar? (c : Char) : Option Marker :=
  if c = '=' then some .expression
  else if c = '&' then some .inclusion
  else if c = ':' then some .inFlow
  else none

structure Scriptlet where
  marker : Marker
  tag : Option (List Char)
  code : List Char
  deriving DecidableEq, Repr

namespace Scriptlet

/-- The marker of a body and what stands after it. Blanks after an in-flow marker are skipped. -/
def markerOf : List Char → Marker × List Char
  | [] => (.plain, [])
  | c :: rest =>
    match Marker.ofChar? c with
    | some .inFlow => (.inFlow, Text.trimLeft rest)
    | some m => (m, rest)
    | none => (.plain, c :: rest)

/-- A tag is the run of characters up to the first blank, which belongs to neither tag nor code. Text that
starts with a blank, or has none, is code without a tag. -/
def tagOf (cs : List Char) : Option (List Char) × List Char :=
  match cs.dropWhile (!Text.isBlank ·) with
  | [] => (none, cs)
  | _ :: code =>
    if (cs.takeWhile (!Text.isBlank ·)).isEmpty then (none, cs)
    else (some (cs.takeWhile (!Text.isBlank ·)), code)

def ofBody (body : List Char) : Scriptlet :=
  let (marker, rest) := markerOf body
  let (tag, code) := tagOf rest
  ⟨marker, tag, code⟩

def isBlank (s : Scriptlet) : Bool := Text.allBlank s.code

end Scriptlet

end ScriptedText
