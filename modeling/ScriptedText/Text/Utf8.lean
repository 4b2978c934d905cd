/-!
Text as bytes. Decoding never fails: every maximal piece of a broken sequence reads as one replacement
character.
-/

namespace ScriptedText.Text

def encodeChar (c : Char) : List UInt8 :=
  let n := c.toNat
  if n < 0x80 then [UInt8.ofNat n]
  else if n < 0x800 then [UInt8.ofNat (0xC0 + n / 64), UInt8.ofNat (0x80 + n % 64)]
  else if n < 0x10000 then
    [UInt8.ofNat (0xE0 + n / 4096), UInt8.ofNat (0x80 + n / 64 % 64), UInt8.ofNat (0x80 + n % 64)]
  else
    [UInt8.ofNat (0xF0 + n / 262144), UInt8.ofNat (0x80 + n / 4096 % 64), UInt8.ofNat (0x80 + n / 64 % 64),
      UInt8.ofNat (0x80 + n % 64)]

def encodeUtf8 (s : String) : List UInt8 := s.toList.flatMap encodeChar

/-- A sequence under way: the value so far, how many bytes are missing, the range of the next one. -/
structure Sequence where
  value : Nat
  missing : Nat
  low : Nat
  high : Nat

/-- How a byte reads at the start of a sequence. -/
def Sequence.start (b : Nat) : List Char × Option Sequence :=
  if b < 0x80 then ([Char.ofNat b], none)
  else if 0xC2 ≤ b && b ≤ 0xDF then ([], some ⟨b - 0xC0, 1, 0x80, 0xBF⟩)
  else if 0xE0 ≤ b && b ≤ 0xEF then
    ([], some ⟨b - 0xE0, 2, if b = 0xE0 then 0xA0 else 0x80, if b = 0xED then 0x9F else 0xBF⟩)
  else if 0xF0 ≤ b && b ≤ 0xF4 then
    ([], some ⟨b - 0xF0, 3, if b = 0xF0 then 0x90 else 0x80, if b = 0xF4 then 0x8F else 0xBF⟩)
  else (['\uFFFD'], none)

/-- How a byte reads within a sequence. One that cannot go on starts afresh. -/
def Sequence.next (s : Sequence) (b : Nat) : List Char × Option Sequence :=
  if s.low ≤ b && b ≤ s.high then
    let value := s.value * 64 + (b - 0x80)
    if s.missing ≤ 1 then ([Char.ofNat value], none)
    else ([], some ⟨value, s.missing - 1, 0x80, 0xBF⟩)
  else
    let (cs, s') := Sequence.start b
    ('\uFFFD' :: cs, s')

def decodeFrom : Option Sequence → List UInt8 → List Char
  | none, [] => []
  | some _, [] => ['\uFFFD']
  | none, b :: rest => let (cs, s) := Sequence.start b.toNat; cs ++ decodeFrom s rest
  | some s, b :: rest => let (cs, s') := s.next b.toNat; cs ++ decodeFrom s' rest

def decodeUtf8 (bytes : List UInt8) : String := String.ofList (decodeFrom none bytes)

example : decodeUtf8 (encodeUtf8 "aé€😀") = "aé€😀" := by decide +kernel
example : decodeUtf8 [0x61, 0xE2, 0x82, 0x62, 0xFF] = "a\uFFFDb\uFFFD" := by decide +kernel

end ScriptedText.Text
