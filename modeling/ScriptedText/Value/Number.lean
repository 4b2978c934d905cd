import ScriptedText.Text.Blank
import ScriptedText.Text.Quoted
import ScriptedText.Value.Decimal

/-!
Binary numbers of 53 digits: the nearest one to a quotient, sums, and the shortest decimal that stands for one. All
arithmetic is exact and rounds once, to nearest and to even where two are equally near. Zero has no sign.
-/

namespace ScriptedText

def twoTo (n : Nat) : Nat := Nat.pow 2 n

/-- A finite number is `significand * 2 ^ exponent`. It is kept with as many digits as there are places for, so that
one number has one form. -/
inductive Number
  | nan
  | infinite (negative : Bool)
  | finite (significand exponent : Int)
  deriving DecidableEq, Repr, Inhabited

namespace Number

/-- The exponent of the smallest numbers, which have less than 53 digits. -/
def leastExponent : Int := -1074

def greatestExponent : Int := 971

def zero : Number := .finite 0 leastExponent

/-- `num / den` to the nearest integer, a half going to the even neighbour. -/
def roundEven (num den : Nat) : Nat :=
  let q := num / den
  let r := num % den
  if 2 * r < den then q else if den < 2 * r then q + 1 else if q % 2 = 0 then q else q + 1

/-- `num / den` to the nearest integer, a half going up. -/
def roundUp (num den : Nat) : Nat := (2 * num + den) / (2 * den)

/-- `n * 2 ^ e`, for an `e` that is not negative; otherwise `n`. -/
def shift (n : Nat) (e : Int) : Nat := n * twoTo e.toNat

/-- The greatest `e` with `2 ^ e ≤ num / den`. -/
def floorLog (num den : Nat) : Int :=
  let guess : Int := (Nat.log2 num : Int) - Nat.log2 den
  if shift den guess ≤ shift num (-guess) then guess else guess - 1

def signed (negative : Bool) (n : Nat) : Int := if negative then -n else n

/-- The nearest number to `num / den`, which is infinite beyond the greatest. -/
def ofQuotient (negative : Bool) (num den : Nat) : Number :=
  if num = 0 then zero
  else
    let e := max (floorLog num den - 52) leastExponent
    let m := roundEven (shift num (-e)) (shift den e)
    let (m, e) := if m = twoTo 53 then (twoTo 52, e + 1) else (m, e)
    if greatestExponent < e then .infinite negative else .finite (signed negative m) e

/-- The nearest number to a decimal. Powers of ten far out of reach are not worked out. -/
def ofDecimal (negative : Bool) (d : Decimal) : Number :=
  if d.digits = 0 || d.wholePlaces < -400 then zero
  else if 400 < d.wholePlaces then .infinite negative
  else ofQuotient negative (d.digits * tenTo d.exponent.toNat) (tenTo (-d.exponent).toNat)

def ofInt (n : Int) : Number := ofQuotient (n < 0) n.natAbs 1

/-- The integer that a number is, if it is one. -/
def int? : Number → Option Int
  | .finite m e =>
    let den : Int := twoTo (-e).toNat
    if m % den = 0 then some (m * twoTo e.toNat / den) else none
  | _ => none

def negate : Number → Number
  | .nan => .nan
  | .infinite negative => .infinite !negative
  | .finite m e => .finite (-m) e

def add : Number → Number → Number
  | .nan, _ | _, .nan => .nan
  | .infinite a, .infinite b => if a = b then .infinite a else .nan
  | .infinite a, _ => .infinite a
  | _, .infinite b => .infinite b
  | .finite a i, .finite b j =>
    let low := min i j
    let sum := a * twoTo (i - low).toNat + b * twoTo (j - low).toNat
    ofQuotient (sum < 0) (shift sum.natAbs low) (twoTo (-low).toNat)

/-- The number that digits of a base stand for, of which there is at least one. -/
def natOf? (base : Nat) (cs : List Char) : Option Nat :=
  if cs.isEmpty then none
  else cs.foldlM (fun n c => (Text.hexValue? c).bind fun d => if d < base then some (n * base + d) else none) 0

def ofDigits (base : Nat) (cs : List Char) : Number := ((natOf? base cs).map fun n => ofInt n).getD nan

def ofSigned (negative : Bool) (cs : List Char) : Number :=
  if String.ofList cs = "Infinity" then .infinite negative
  else ((Decimal.ofChars? cs).map (ofDecimal negative)).getD nan

/-- The number that a text stands for, blanks around it left out. No text at all is zero. -/
def ofChars (cs : List Char) : Number :=
  match Text.trim cs with
  | [] => zero
  | '-' :: rest => ofSigned true rest
  | '+' :: rest => ofSigned false rest
  | '0' :: c :: rest =>
    if c = 'x' || c = 'X' then ofDigits 16 rest
    else if c = 'o' || c = 'O' then ofDigits 8 rest
    else if c = 'b' || c = 'B' then ofDigits 2 rest
    else ofSigned false ('0' :: c :: rest)
  | rest => ofSigned false rest

/-! ### Text -/

/-- The places that a positive number has before its point: the least `k` for which it is below `10 ^ k`. -/
def wholePlaces (num den : Nat) : Int :=
  if den ≤ num then (digitsOf (num / den)).length else 1 - ((digitsOf (den / num)).length : Int)

/-- The decimals of a number's neighbourhood with `count` digits, the nearer first; of two that are equally near, the
even one. -/
def neighbours (num den : Nat) (count : Nat) : List Decimal :=
  let unit := wholePlaces num den - count
  let num := num * tenTo (-unit).toNat
  let den := den * tenTo unit.toNat
  let below : Decimal := ⟨num / den, unit⟩
  let above : Decimal := ⟨num / den + 1, unit⟩
  if roundEven num den = num / den then [below, above] else [above, below]

/-- The decimal with the fewest digits that reads back as `m * 2 ^ e`, and of these the nearest one. Seventeen
digits always do. -/
def shortest (m : Nat) (e : Int) : Decimal :=
  let num := shift m e
  let den := twoTo (-e).toNat
  let found := (List.range 17).findSome? fun i =>
    (neighbours num den (i + 1)).find? fun d => ofDecimal false d = .finite m e
  found.getD ⟨num, 0⟩

/-- The shortest text that stands for the number. Integers of less than 53 binary digits are written in full. -/
def text (n : Number) : String :=
  match n with
  | .nan => "NaN"
  | .infinite negative => if negative then "-Infinity" else "Infinity"
  | .finite m e =>
    match n.int? with
    | some i => if i.natAbs < twoTo 53 then toString i else String.ofList (long m e)
    | none => String.ofList (long m e)
where
  long (m e : Int) : List Char := (if m < 0 then ['-'] else []) ++ (shortest m.natAbs e).layout

/-- The text in notations that know finite numbers only. -/
def textOrNull (n : Number) : String :=
  match n with
  | .finite _ _ => n.text
  | _ => "null"

/-- One place after the point, a half going away from zero. Numbers of more than 21 places are written as they are
otherwise. -/
def toTenth (n : Number) : String :=
  match n with
  | .finite m e =>
    let num := shift m.natAbs e
    let den := twoTo (-e).toNat
    if den * tenTo 21 ≤ num then n.text
    else
      let tenths := roundUp (10 * num) den
      String.ofList ((if m < 0 then ['-'] else []) ++ digitsOf (tenths / 10) ++ '.' :: digitsOf (tenths % 10))
  | _ => n.text

example : (ofDecimal false ⟨1, -1⟩).text = "0.1" := by decide +kernel
example : ((ofDecimal false ⟨1, -1⟩).add (ofDecimal false ⟨2, -1⟩)).text = "0.30000000000000004" := by decide +kernel
example : (ofInt 9007199254740993).text = "9007199254740992" ∧ (ofInt (-10 ^ 23)).text = "-1e+23" := by decide +kernel
example : ofDecimal false ⟨5, -324⟩ = .finite 1 (-1074) ∧ ofDecimal true ⟨1, 400⟩ = .infinite true := by
  decide +kernel
example : ofChars " 0X1f ".toList = ofInt 31 ∧ ofChars "-1.e0".toList = ofInt (-1) ∧ ofChars "1_0".toList = nan := by
  decide +kernel
example : (ofDecimal true ⟨25, -2⟩).toTenth = "-0.3" ∧ (ofDecimal false ⟨35, -2⟩).toTenth = "0.3" := by
  decide +kernel

end Number

end ScriptedText
