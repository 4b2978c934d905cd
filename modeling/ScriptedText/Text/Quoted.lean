/-!
Quoted strings of JSON: `encode` writes one, `unescape?` reads the inside of one back.
-/

namespace ScriptedText.Text

def hexDigit (n : Nat) : Char := Char.ofNat (if n < 10 then 48 + n else 87 + n)

def hexValue? (c : Char) : Option Nat :=
  let n := c.toNat
  if 48 ≤ n && n ≤ 57 then some (n - 48)
  else if 97 ≤ n && n ≤ 102 then some (n - 87)
  else if 65 ≤ n && n ≤ 70 then some (n - 55)
  else none

/-- A quote, a backslash and the control characters are escaped; all else stands for itself. -/
def escape (c : Char) : List Char :=
  if c = '"' then ['\\', '"']
  else if c = '\\' then ['\\', '\\']
  else if c = '\x08' then ['\\', 'b']
  else if c = '\x0c' then ['\\', 'f']
  else if c = '\n' then ['\\', 'n']
  else if c = '\r' then ['\\', 'r']
  else if c = '\t' then ['\\', 't']
  else if c.toNat < 0x20 then ['\\', 'u', '0', '0', hexDigit (c.toNat / 16), hexDigit (c.toNat % 16)]
  else [c]

def quote (s : String) : String :=
  String.ofList ('"' :: s.toList.flatMap escape ++ ['"'])

/-- The number written by four hexadecimal digits at the head of a text. -/
def hex4? : List Char → Option (Nat × List Char)
  | a :: b :: c :: d :: rest => do
    let value := ((← hexValue? a) * 16 + (← hexValue? b)) * 256 + (← hexValue? c) * 16 + (← hexValue? d)
    some (value, rest)
  | _ => none

/-- One character per one-letter escape. -/
def plainEscape? (c : Char) : Option Char :=
  if c = '"' then some '"'
  else if c = '\\' then some '\\'
  else if c = '/' then some '/'
  else if c = 'b' then some '\x08'
  else if c = 'f' then some '\x0c'
  else if c = 'n' then some '\n'
  else if c = 'r' then some '\r'
  else if c = 't' then some '\t'
  else none

/-- The character for a 16-bit unit and, if it opens a surrogate pair that the text goes on with, the pair's
character. A surrogate on its own reads as the replacement character. -/
def joinUnits (unit : Nat) (rest : List Char) : Char × List Char :=
  if 0xD800 ≤ unit && unit < 0xDC00 then
    match rest with
    | '\\' :: 'u' :: tail =>
      match hex4? tail with
      | some (low, tail') =>
        if 0xDC00 ≤ low && low < 0xE000 then
          (Char.ofNat (0x10000 + (unit - 0xD800) * 0x400 + (low - 0xDC00)), tail')
        else ('\uFFFD', rest)
      | none => ('\uFFFD', rest)
    | _ => ('\uFFFD', rest)
  else if 0xDC00 ≤ unit && unit < 0xE000 then ('\uFFFD', rest)
  else (Char.ofNat unit, rest)

/-- Reads the inside of a quoted string; `fuel` bounds the number of characters. -/
def unescapeWithin : Nat → List Char → Option (List Char)
  | _, [] => some []
  | 0, _ :: _ => none
  | fuel + 1, '\\' :: 'u' :: rest => do
    let (unit, rest) ← hex4? rest
    let (c, rest) := joinUnits unit rest
    (unescapeWithin fuel rest).map (c :: ·)
  | fuel + 1, '\\' :: e :: rest => do
    let c ← plainEscape? e
    (unescapeWithin fuel rest).map (c :: ·)
  | fuel + 1, c :: rest =>
    if c = '\\' || c = '"' || c.toNat < 0x20 then none
    else (unescapeWithin fuel rest).map (c :: ·)

/-- The text that stands for `cs` between quotes, refused where an escape is unknown, a quote is bare or a
control character is not escaped. -/
def unescape? (cs : List Char) : Option (List Char) := unescapeWithin cs.length cs

/-- The inside of a quoted string up to the next quote that no backslash stands before, and what follows it. -/
def quotedInside : List Char → Option (List Char × List Char)
  | [] => none
  | '"' :: rest => some ([], rest)
  | '\\' :: c :: rest => (quotedInside rest).map fun (inside, after) => ('\\' :: c :: inside, after)
  | c :: rest => (quotedInside rest).map fun (inside, after) => (c :: inside, after)

example : quote "a\"\\\n\x01é" = "\"a\\\"\\\\\\n\\u0001é\"" := by decide +kernel
example : unescape? "a\\u00e9\\ud83d\\ude00\\n".toList = some "aé😀\n".toList := by decide +kernel
example : unescape? "\\x".toList = none := by decide +kernel

end ScriptedText.Text
