import ScriptedText.Document.Place

/-!
Places counted along a text agree with places read off the text: a line is what the line feeds before it say, a
column what stands since the last of them.
-/

namespace ScriptedText.Place

/-- What stands after the last line feed. -/
def lastLine (cs : List Char) : List Char := (cs.reverse.takeWhile (· ≠ '\n')).reverse

/-- The place of what comes right after `before` in a document. -/
def behind (before : List Char) : Place :=
  ⟨before.count '\n' + 1, Text.units (lastLine before) + 1, Text.units before⟩

theorem lastLine_append_feed (cs : List Char) : lastLine (cs ++ ['\n']) = [] := by
  simp [lastLine]

theorem lastLine_append_of_ne {c : Char} (h : c ≠ '\n') (cs : List Char) :
    lastLine (cs ++ [c]) = lastLine cs ++ [c] := by
  simp [lastLine, h]

theorem behind_append_char (before : List Char) (c : Char) : behind (before ++ [c]) = (behind before).next c := by
  have hunits : Text.units [c] = Text.width c := rfl
  by_cases hc : c = '\n'
  · subst hc
    simp only [behind, next, if_true, lastLine_append_feed, Text.units_append, List.count_append]
    rfl
  · simp only [behind, next, if_neg hc, lastLine_append_of_ne hc, Text.units_append, hunits,
      List.count_append, Place.mk.injEq]
    refine ⟨?_, by omega, trivial⟩
    simp [hc]

/-- Counting character by character from the start of a document comes to the place behind the text. -/
theorem after_behind (before cs : List Char) : (behind before).after cs = behind (before ++ cs) := by
  induction cs generalizing before with
  | nil => simp [after]
  | cons c cs ih =>
      have hstep : (behind before).after (c :: cs) = ((behind before).next c).after cs := rfl
      rw [hstep, ← behind_append_char, ih, List.append_assoc, List.singleton_append]

theorem start_eq_behind : ({} : Place) = behind [] := rfl

end ScriptedText.Place
