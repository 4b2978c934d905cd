/-!
Lengths and order of text in 16-bit units: a character outside the basic plane counts two. Columns and offsets
are counted in these units and file names are sorted by them.
-/

namespace ScriptedText.Text

def width (c : Char) : Nat := if c.toNat < 0x10000 then 1 else 2

def units (cs : List Char) : Nat := cs.foldr (fun c n => width c + n) 0

/-- The 16-bit units of one character. -/
def unitsOf (c : Char) : List Nat :=
  let n := c.toNat
  if n < 0x10000 then [n] else [0xD800 + (n - 0x10000) / 0x400, 0xDC00 + (n - 0x10000) % 0x400]

def codeUnits (s : String) : List Nat := s.toList.flatMap unitsOf

/-- Lists of numbers in the order of their first difference, a list before its continuations. -/
def listLe : List Nat → List Nat → Bool
  | [], _ => true
  | _ :: _, [] => false
  | a :: as, b :: bs => a < b || (a == b && listLe as bs)

/-- Whether `a` comes no later than `b` when texts are compared unit by unit. -/
def unitsLe (a b : String) : Bool := listLe (codeUnits a) (codeUnits b)

theorem units_append (a b : List Char) : units (a ++ b) = units a + units b := by
  induction a with
  | nil => simp [units]
  | cons c a ih =>
    simp only [units, List.cons_append, List.foldr_cons] at ih ⊢
    rw [ih, Nat.add_assoc]

theorem length_unitsOf (c : Char) : (unitsOf c).length = width c := by
  unfold unitsOf width
  split <;> simp [*]

end ScriptedText.Text
