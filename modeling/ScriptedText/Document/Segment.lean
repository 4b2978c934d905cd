import ScriptedText.Document.Place
import ScriptedText.Fault.Basic

/-!
Segments of a document: first as they were written, then as literal text or program source.
-/

namespace ScriptedText

inductive SegmentKind
  | literal
  | plain
  | expression
  | inclusion
  deriving DecidableEq, Repr

/-- A segment as it was written. -/
structure RawSegment where
  kind : SegmentKind
  tag : String
  line : Nat
  column : Nat
  text : String
  deriving DecidableEq, Repr

/-- A segment as it runs: literal text, or source of a program in the language of its tag. -/
structure Segment where
  isProgram : Bool
  tag : String
  line : Nat
  column : Nat
  text : String
  deriving DecidableEq, Repr

/-- How a language writes, as program source, a literal text, the value of an expression, and the inclusion of
the document that an expression names. -/
structure SourceForms where
  literal : String → String
  expression : String → String
  inclusion : String → String

/-- The forms of each tag that has a language. -/
abbrev FormTable := String → Option SourceForms

/-- Turns shorthands into program source. A tag without a language leaves the text as it is. -/
def RawSegment.lower (forms : FormTable) (s : RawSegment) : Segment :=
  let text := match s.kind, forms s.tag with
    | .expression, some f => f.expression s.text
    | .inclusion, some f => f.inclusion s.text
    | _, _ => s.text
  ⟨s.kind ≠ .literal, s.tag, s.line, s.column, text⟩

namespace Segment

def append (s : Segment) (text : String) : Segment := { s with text := s.text ++ text }

def site (s : Segment) (document : String) : Site := ⟨document, s.line, s.column⟩

end Segment

/-- A segment at its position in an executable, with the source of its program once that is resolved. -/
structure PlacedSegment extends Segment where
  position : Nat
  program : Option String := none
  deriving DecidableEq, Repr

/-- A program is attached exactly once. -/
def PlacedSegment.attach (s : PlacedSegment) (source : String) : Except Failure PlacedSegment :=
  match s.program with
  | none => .ok { s with program := some source }
  | some _ => .error (.error ("Segment " ++ toString s.position ++ " already has a resolved program"))

end ScriptedText
