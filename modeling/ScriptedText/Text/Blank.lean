/-!
Blank characters and line ends. A tag ends at a blank, blank code makes no segment, and programs are
trimmed of blanks; line ends matter only to the line rule of published functions.
-/

namespace ScriptedText.Text

/-- The blank characters: tab, line feed, vertical tab, form feed, carriage return, the space separators of
Unicode, its two separators of lines and paragraphs, and the byte order mark. -/
def isBlank (c : Char) : Bool :=
  let n := c.toNat
  (9 ≤ n && n ≤ 13) || n = 0x20 || n = 0xA0 || n = 0x1680 || (0x2000 ≤ n && n ≤ 0x200A) ||
    n = 0x2028 || n = 0x2029 || n = 0x202F || n = 0x205F || n = 0x3000 || n = 0xFEFF

/-- The four characters that end a line of program text. Only the first counts for places in a document. -/
def endsLine (c : Char) : Bool :=
  c = '\n' || c = '\r' || c.toNat = 0x2028 || c.toNat = 0x2029

/-- Whether a character's code point lies in one of the ranges, whose ends are in them. -/
def inRanges (ranges : List (Nat × Nat)) (c : Char) : Bool := ranges.any fun r => r.1 ≤ c.toNat && c.toNat ≤ r.2

def allBlank (cs : List Char) : Bool := cs.all isBlank

def trimLeft (cs : List Char) : List Char := cs.dropWhile isBlank

def trim (cs : List Char) : List Char := (trimLeft (trimLeft cs).reverse).reverse

theorem isBlank_of_endsLine {c : Char} (h : endsLine c = true) : isBlank c = true := by
  simp only [endsLine, Bool.or_eq_true, decide_eq_true_eq] at h
  rcases h with ((rfl | rfl) | h) | h
  · decide
  · decide
  · simp [isBlank, h]
  · simp [isBlank, h]

theorem trim_length_le (cs : List Char) : (trim cs).length ≤ cs.length := by
  have drop (xs : List Char) : (trimLeft xs).length ≤ xs.length :=
    (List.dropWhile_sublist _).length_le
  calc (trim cs).length = (trimLeft (trimLeft cs).reverse).length := by simp [trim]
    _ ≤ (trimLeft cs).length := by simpa using drop (trimLeft cs).reverse
    _ ≤ cs.length := drop cs

end ScriptedText.Text
