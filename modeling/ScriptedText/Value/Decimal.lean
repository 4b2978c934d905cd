/-!
Decimal numbers: digits and a power of ten, how they are read, and how they are laid out with a point or with an
exponent.
-/

namespace ScriptedText

def tenTo (n : Nat) : Nat := Nat.pow 10 n

def digitsOf (n : Nat) : List Char := (Nat.repr n).toList

def digitsValue (cs : List Char) : Nat := cs.foldl (fun n c => n * 10 + (c.toNat - 48)) 0

/-- The number `digits * 10 ^ exponent`. -/
structure Decimal where
  digits : Nat
  exponent : Int := 0
  deriving DecidableEq, Repr

namespace Decimal

/-- An exponent with its mark, where there is one: a mark that no digits follow is left alone. -/
def readExponent (cs : List Char) : Int × List Char :=
  let signed (negative : Bool) (rest : List Char) : Int × List Char :=
    match rest.takeWhile Char.isDigit with
    | [] => (0, cs)
    | digits =>
      let n : Int := digitsValue digits
      (if negative then -n else n, rest.dropWhile Char.isDigit)
  match cs with
  | e :: rest =>
    if e = 'e' || e = 'E' then
      match rest with
      | '-' :: rest => signed true rest
      | '+' :: rest => signed false rest
      | rest => signed false rest
    else (0, cs)
  | [] => (0, cs)

/-- A decimal without a sign at the head of a text: digits, at most one point among them, an exponent. -/
def read? (cs : List Char) : Option (Decimal × List Char) :=
  let whole := cs.takeWhile Char.isDigit
  let (fraction, rest) := match cs.dropWhile Char.isDigit with
    | '.' :: rest => (rest.takeWhile Char.isDigit, rest.dropWhile Char.isDigit)
    | rest => ([], rest)
  if whole.isEmpty && fraction.isEmpty then none
  else
    let (exponent, rest) := readExponent rest
    some (⟨digitsValue (whole ++ fraction), exponent - fraction.length⟩, rest)

/-- The decimal that a whole text is. -/
def ofChars? (cs : List Char) : Option Decimal :=
  match read? cs with
  | some (d, []) => some d
  | _ => none

/-- The places before the point, when the number is written with a point and without zeros in front: none or less
for a number below a tenth. -/
def wholePlaces (d : Decimal) : Int := (digitsOf d.digits).length + d.exponent

def zeros (n : Nat) : List Char := List.replicate n '0'

/-- Digits with the point after the first `places` of them. -/
def positional (digits : List Char) (places : Int) : List Char :=
  if places ≤ 0 then '0' :: '.' :: zeros (-places).toNat ++ digits
  else if places < digits.length then digits.take places.toNat ++ '.' :: digits.drop places.toNat
  else digits ++ zeros (places.toNat - digits.length)

/-- Digits with the point after the first of them and an exponent that is always signed. -/
def scientific (digits : List Char) (places : Int) : List Char :=
  let exponent := places - 1
  let point := if digits.length ≤ 1 then digits else digits.take 1 ++ '.' :: digits.drop 1
  point ++ 'e' :: (if exponent < 0 then '-' else '+') :: digitsOf exponent.natAbs

/-- How a number is written: with a point where at most 21 places stand before it or at most six zeros after it,
and otherwise with an exponent. Zeros at the end of the digits do not count. -/
def layout (d : Decimal) : List Char :=
  if d.digits = 0 then ['0']
  else
    let places := d.wholePlaces
    let digits := ((digitsOf d.digits).reverse.dropWhile (· = '0')).reverse
    if -6 < places && places ≤ 21 then positional digits places else scientific digits places

example : String.ofList (layout ⟨150, -2⟩) = "1.5" ∧ String.ofList (layout ⟨7, 1⟩) = "70" := by decide +kernel
example : (layout ⟨1, 20⟩).length = 21 ∧ String.ofList (layout ⟨12, 20⟩) = "1.2e+21" := by decide +kernel
example : String.ofList (layout ⟨1, -6⟩) = "0.000001" ∧ String.ofList (layout ⟨1, -7⟩) = "1e-7" := by decide +kernel
example : (read? "1.50e1x".toList) = some (⟨150, -1⟩, ['x']) := by decide +kernel

end Decimal

end ScriptedText
