import ScriptedText.Text.Unit16

/-!
Places in a document. Lines and columns count from one; only a line feed starts a line; columns and offsets
count 16-bit units.
-/

namespace ScriptedText

structure Place where
  line : Nat := 1
  column : Nat := 1
  offset : Nat := 0
  deriving DecidableEq, Repr, Inhabited

namespace Place

def next (p : Place) (c : Char) : Place :=
  if c = '\n' then ⟨p.line + 1, 1, p.offset + 1⟩
  else ⟨p.line, p.column + Text.width c, p.offset + Text.width c⟩

/-- The place after a text that starts at `p`. -/
def after (p : Place) (cs : List Char) : Place := cs.foldl next p

theorem after_append (p : Place) (a b : List Char) : p.after (a ++ b) = (p.after a).after b :=
  List.foldl_append

theorem offset_next (p : Place) (c : Char) : (p.next c).offset = p.offset + Text.width c := by
  unfold next
  split
  · next h => subst h; rfl
  · rfl

theorem offset_after (p : Place) (cs : List Char) : (p.after cs).offset = p.offset + Text.units cs := by
  induction cs generalizing p with
  | nil => rfl
  | cons c cs ih =>
    simp only [after, Text.units, List.foldl_cons, List.foldr_cons] at ih ⊢
    rw [ih, offset_next, Nat.add_assoc]

end Place

end ScriptedText
