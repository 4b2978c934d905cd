import ScriptedText.Text.Utf8

/-!
Bytes written with 64 printable characters, so that a text can travel through a template unread.
-/

namespace ScriptedText.Text

def digit64 (n : Nat) : Char :=
  if n < 26 then Char.ofNat (65 + n)
  else if n < 52 then Char.ofNat (71 + n)
  else if n < 62 then Char.ofNat (n - 4)
  else if n = 62 then '+' else '/'

def value64? (c : Char) : Option Nat :=
  let n := c.toNat
  if 65 ≤ n && n ≤ 90 then some (n - 65)
  else if 97 ≤ n && n ≤ 122 then some (n - 71)
  else if 48 ≤ n && n ≤ 57 then some (n + 4)
  else if c = '+' || c = '-' then some 62
  else if c = '/' || c = '_' then some 63
  else none

/-- Three bytes make four digits; a shorter last group is filled up with `=`. -/
def encodeDigits : List UInt8 → List Char
  | a :: b :: c :: rest =>
    let n := a.toNat * 65536 + b.toNat * 256 + c.toNat
    digit64 (n / 262144) :: digit64 (n / 4096 % 64) :: digit64 (n / 64 % 64) :: digit64 (n % 64) :: encodeDigits rest
  | [a, b] =>
    let n := a.toNat * 256 + b.toNat
    [digit64 (n / 1024), digit64 (n / 16 % 64), digit64 (n % 16 * 4), '=']
  | [a] => [digit64 (a.toNat / 4), digit64 (a.toNat % 4 * 16), '=', '=']
  | [] => []

/-- Four digits make three bytes; a last group of three or two makes two or one. -/
def decodeDigits : List Nat → List UInt8
  | a :: b :: c :: d :: rest =>
    UInt8.ofNat (a * 4 + b / 16) :: UInt8.ofNat (b % 16 * 16 + c / 4) :: UInt8.ofNat (c % 4 * 64 + d)
      :: decodeDigits rest
  | [a, b, c] => [UInt8.ofNat (a * 4 + b / 16), UInt8.ofNat (b % 16 * 16 + c / 4)]
  | [a, b] => [UInt8.ofNat (a * 4 + b / 16)]
  | _ => []

def encode64 (s : String) : String := String.ofList (encodeDigits (encodeUtf8 s))

/-- The bytes of a text in 64 digits up to the first `=`; other characters that are no digit are passed over. -/
def bytes64 (s : String) : List UInt8 := decodeDigits ((s.toList.takeWhile (· ≠ '=')).filterMap value64?)

def decode64 (s : String) : String := decodeUtf8 (bytes64 s)

example : encode64 "back\\slash" = "YmFja1xzbGFzaA==" := by decide +kernel
example : decode64 (encode64 "aé€😀") = "aé€😀" ∧ decode64 "Y W=I=" = "a" := by decide +kernel

end ScriptedText.Text
