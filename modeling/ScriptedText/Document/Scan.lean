import ScriptedText.Document.Delimiters
import ScriptedText.Document.Place

/-!
A document as literal texts and scriptlet bodies in turn. `flatten_scan` says that a complete scan loses
nothing.
-/

namespace ScriptedText

inductive Piece
  | literal (place : Place) (text : List Char)
  | scriptlet (place : Place) (body : List Char)
  deriving DecidableEq, Repr

/-- How a scan ends. It is `endless` when both delimiters are empty: then the cursor never moves. -/
inductive ScanEnd
  | complete
  | unclosed (place : Place)
  | endless
  deriving DecidableEq, Repr

/-- One turn of the scan: up to the next scriptlet and over it. -/
inductive Turn
  | tail
  | unclosed (literal : List Char)
  | scriptlet (literal body rest : List Char)
  deriving DecidableEq, Repr

namespace Delimiters

def turn (d : Delimiters) (cs : List Char) : Turn :=
  match Text.cut d.opening.toList cs with
  | none => .tail
  | some (literal, afterOpening) =>
    match Text.cut d.closing.toList afterOpening with
    | none => .unclosed literal
    | some (body, rest) => .scriptlet literal body rest

end Delimiters

namespace Piece

/-- A literal piece, left out when it is empty. -/
def literals (place : Place) (text : List Char) : List Piece :=
  if text.isEmpty then [] else [.literal place text]

/-- The text that a piece was read from. -/
def source (d : Delimiters) : Piece → List Char
  | .literal _ text => text
  | .scriptlet _ body => d.opening.toList ++ body ++ d.closing.toList

theorem flatMap_source_literals (d : Delimiters) (p : Place) (text : List Char) :
    (literals p text).flatMap (source d) = text := by
  cases text <;> simp [literals, source]

end Piece

/-- At most `turns` turns of the scan from a place on. -/
def scanTurns (d : Delimiters) : Nat → Place → List Char → List Piece × ScanEnd
  | _, _, [] => ([], .complete)
  | 0, _, _ :: _ => ([], .endless)
  | turns + 1, place, cs =>
    match d.turn cs with
    | .tail => ([.literal place cs], .complete)
    | .unclosed literal => (Piece.literals place literal, .unclosed (place.after literal))
    | .scriptlet literal body rest =>
      let opened := place.after literal
      let closed := ((opened.after d.opening.toList).after body).after d.closing.toList
      let (pieces, ending) := scanTurns d turns closed rest
      (Piece.literals place literal ++ .scriptlet opened body :: pieces, ending)

/-- The scan of a whole document. A turn that moves the cursor moves it by a character at least, so that a scan
which needs more turns than the document has characters never ends. -/
def scan (d : Delimiters) (source : List Char) : List Piece × ScanEnd := scanTurns d source.length {} source

theorem Delimiters.eq_append_of_turn {d : Delimiters} {cs literal body rest : List Char}
    (h : d.turn cs = .scriptlet literal body rest) :
    cs = literal ++ d.opening.toList ++ (body ++ d.closing.toList ++ rest) := by
  unfold turn at h
  split at h
  · cases h
  · next hc =>
    split at h
    · cases h
    · next hb =>
      cases h
      rw [Text.cut_eq_append hc, ← Text.cut_eq_append hb]

theorem flatten_scanTurns {d : Delimiters} {turns : Nat} {p : Place} {cs : List Char}
    (h : (scanTurns d turns p cs).2 = .complete) :
    (scanTurns d turns p cs).1.flatMap (Piece.source d) = cs := by
  induction turns generalizing p cs with
  | zero => cases cs <;> simp_all [scanTurns]
  | succ turns ih =>
    cases cs with
    | nil => simp [scanTurns]
    | cons c cs =>
      simp only [scanTurns] at h ⊢
      cases ht : d.turn (c :: cs) with
      | tail => simp [Piece.source]
      | unclosed literal => simp [ht] at h
      | scriptlet literal body rest =>
        simp only [ht] at h ⊢
        simp only [List.flatMap_append, List.flatMap_cons, Piece.flatMap_source_literals, Piece.source, ih h]
        simp [Delimiters.eq_append_of_turn ht]

/-- Literals and scriptlets of a complete scan, put together again, are the document. -/
theorem flatten_scan {d : Delimiters} {source : List Char} (h : (scan d source).2 = .complete) :
    (scan d source).1.flatMap (Piece.source d) = source :=
  flatten_scanTurns h

end ScriptedText
