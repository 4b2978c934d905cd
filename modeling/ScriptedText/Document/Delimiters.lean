import ScriptedText.Text.Cut

/-!
Delimiters of scriptlets. A document uses one style: the first whose opening delimiter occurs in it.
-/

namespace ScriptedText

structure Delimiters where
  opening : String
  closing : String
  deriving DecidableEq, Repr, Inhabited

namespace Delimiters

def percent : Delimiters := ⟨"<%", "%>"⟩

def question : Delimiters := ⟨"<?", "?>"⟩

/-- The styles of a document for which none are given. -/
def standard : List Delimiters := [percent, question]

def detect (styles : List Delimiters) (source : List Char) : Option Delimiters :=
  styles.find? fun d => Text.occurs d.opening.toList source

end Delimiters

end ScriptedText
