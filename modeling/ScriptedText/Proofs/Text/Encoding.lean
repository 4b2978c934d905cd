import Mathlib.Data.List.Basic
import ScriptedText.Text.Base64

/-!
A text that is written as bytes, and these with 64 printable characters, reads back.
-/

namespace ScriptedText.Text

/-! ### Bytes -/

theorem toNat_byte {n : Nat} (h : n < 256) : (UInt8.ofNat n).toNat = n := by
  simp [Nat.mod_eq_of_lt h]

variable {b value missing low high : Nat} {s : Sequence} {rest : List UInt8}

theorem decodeFrom_single (hb : b < 0x80) :
    decodeFrom none (UInt8.ofNat b :: rest) = Char.ofNat b :: decodeFrom none rest := by
  simp [decodeFrom, toNat_byte (show b < 256 by omega), Sequence.start, hb]

theorem decodeFrom_first (hb : b < 256) (h : Sequence.start b = ([], some s)) :
    decodeFrom none (UInt8.ofNat b :: rest) = decodeFrom (some s) rest := by
  simp [decodeFrom, toNat_byte hb, h]

/-- A byte in the middle of a sequence. After it there are no bounds of its own any more. -/
theorem decodeFrom_middle (hlow : low ≤ b) (hhigh : b ≤ high) (hb : b < 256) (hmissing : 1 < missing) :
    decodeFrom (some ⟨value, missing, low, high⟩) (UInt8.ofNat b :: rest) =
      decodeFrom (some ⟨value * 64 + (b - 0x80), missing - 1, 0x80, 0xBF⟩) rest := by
  simp [decodeFrom, toNat_byte hb, Sequence.next, hlow, hhigh, Nat.not_le.2 hmissing]

theorem decodeFrom_last (hlow : low ≤ b) (hhigh : b ≤ high) (hb : b < 256) :
    decodeFrom (some ⟨value, 1, low, high⟩) (UInt8.ofNat b :: rest) =
      Char.ofNat (value * 64 + (b - 0x80)) :: decodeFrom none rest := by
  simp [decodeFrom, toNat_byte hb, Sequence.next, hlow, hhigh]

theorem start_of_two {n : Nat} (h : 0x80 ≤ n) (h' : n < 0x800) :
    Sequence.start (0xC0 + n / 64) = ([], some ⟨n / 64, 1, 0x80, 0xBF⟩) := by
  unfold Sequence.start
  rw [if_neg (by omega), if_pos (by simp; omega)]
  simp

theorem start_of_three {n : Nat} (h : 0x800 ≤ n) (h' : n < 0x10000) :
    Sequence.start (0xE0 + n / 4096) =
      ([], some ⟨n / 4096, 2, if n / 4096 = 0 then 0xA0 else 0x80, if n / 4096 = 13 then 0x9F else 0xBF⟩) := by
  unfold Sequence.start
  have hhigh : 0xE0 + n / 4096 = 0xED ↔ n / 4096 = 13 := by omega
  rw [if_neg (by omega), if_neg (by simp; omega), if_pos (by simp; omega)]
  simp [hhigh]

theorem start_of_four {n : Nat} (h : 0x10000 ≤ n) (h' : n < 0x110000) :
    Sequence.start (0xF0 + n / 262144) =
      ([], some ⟨n / 262144, 3, if n / 262144 = 0 then 0x90 else 0x80, if n / 262144 = 4 then 0x8F else 0xBF⟩) := by
  unfold Sequence.start
  have hhigh : 0xF0 + n / 262144 = 0xF4 ↔ n / 262144 = 4 := by omega
  rw [if_neg (by omega), if_neg (by simp; omega), if_neg (by simp; omega), if_pos (by simp; omega)]
  simp [hhigh]

/-- By the length of the sequence. The bounds of the second byte keep out what is too long, surrogates, and what is no
code point. -/
theorem decodeFrom_encodeChar (c : Char) (rest : List UInt8) :
    decodeFrom none (encodeChar c ++ rest) = c :: decodeFrom none rest := by
  have hc : Char.ofNat c.toNat = c := Char.ofNat_toNat c
  have hvalid : c.toNat < 0xD800 ∨ 0xDFFF < c.toNat ∧ c.toNat < 0x110000 := c.valid
  unfold encodeChar
  generalize c.toNat = n at hc hvalid
  dsimp only
  by_cases h1 : n < 0x80
  · rw [if_pos h1, List.cons_append, List.nil_append, decodeFrom_single h1, hc]
  by_cases h2 : n < 0x800
  · rw [if_neg h1, if_pos h2]
    simp only [List.cons_append, List.nil_append]
    rw [decodeFrom_first (by omega) (start_of_two (by omega) h2), decodeFrom_last (by omega) (by omega) (by omega)]
    rw [show n / 64 * 64 + (0x80 + n % 64 - 0x80) = n by omega, hc]
  by_cases h3 : n < 0x10000
  · rw [if_neg h1, if_neg h2, if_pos h3]
    simp only [List.cons_append, List.nil_append]
    have hlow : (if n / 4096 = 0 then 0xA0 else 0x80) ≤ 0x80 + n / 64 % 64 := by split <;> omega
    have hhigh : 0x80 + n / 64 % 64 ≤ if n / 4096 = 13 then 0x9F else 0xBF := by split <;> omega
    rw [decodeFrom_first (by omega) (start_of_three (by omega) h3), decodeFrom_middle hlow hhigh (by omega) (by omega),
      decodeFrom_last (by omega) (by omega) (by omega)]
    rw [show (n / 4096 * 64 + (0x80 + n / 64 % 64 - 0x80)) * 64 + (0x80 + n % 64 - 0x80) = n by omega, hc]
  · rw [if_neg h1, if_neg h2, if_neg h3]
    simp only [List.cons_append, List.nil_append]
    have hlow : (if n / 262144 = 0 then 0x90 else 0x80) ≤ 0x80 + n / 4096 % 64 := by split <;> omega
    have hhigh : 0x80 + n / 4096 % 64 ≤ if n / 262144 = 4 then 0x8F else 0xBF := by split <;> omega
    rw [decodeFrom_first (by omega) (start_of_four (by omega) (by omega)),
      decodeFrom_middle hlow hhigh (by omega) (by omega), decodeFrom_middle (by omega) (by omega) (by omega) (by omega),
      decodeFrom_last (by omega) (by omega) (by omega)]
    rw [show ((n / 262144 * 64 + (0x80 + n / 4096 % 64 - 0x80)) * 64 + (0x80 + n / 64 % 64 - 0x80)) * 64 +
      (0x80 + n % 64 - 0x80) = n by omega, hc]

theorem decodeUtf8_encodeUtf8 (s : String) : decodeUtf8 (encodeUtf8 s) = s := by
  have hchars (cs : List Char) : decodeFrom none (cs.flatMap encodeChar) = cs := by
    induction cs with
    | nil => rfl
    | cons c cs ih => rw [List.flatMap_cons, decodeFrom_encodeChar, ih]
  rw [decodeUtf8, encodeUtf8, hchars, String.ofList_toList]

/-! ### Digits -/

theorem value64?_digit64 {n : Nat} (h : n < 64) : value64? (digit64 n) = some n := by
  revert h n
  decide

theorem digit64_ne_pad {n : Nat} (h : n < 64) : digit64 n ≠ '=' := by
  revert h n
  decide

/-- The digits in front of the padding, as numbers. -/
def digitsRead (cs : List Char) : List Nat := (cs.takeWhile (· ≠ '=')).filterMap value64?

theorem digitsRead_cons {n : Nat} (h : n < 64) (cs : List Char) : digitsRead (digit64 n :: cs) = n :: digitsRead cs := by
  simp [digitsRead, digit64_ne_pad h, value64?_digit64 h]

theorem digitsRead_pad (cs : List Char) : digitsRead ('=' :: cs) = [] := rfl

theorem byte_eq {b : UInt8} {n : Nat} (h : n % 256 = b.toNat) : UInt8.ofNat n = b := by
  apply UInt8.toNat_inj.1
  simpa using h

theorem decodeDigits_encodeDigits (bytes : List UInt8) : decodeDigits (digitsRead (encodeDigits bytes)) = bytes := by
  fun_induction encodeDigits bytes with
  | case1 a b c rest n ih =>
      have ha := a.toNat_lt
      have hb := b.toNat_lt
      have hc := c.toNat_lt
      rw [digitsRead_cons (by omega), digitsRead_cons (by omega), digitsRead_cons (by omega), digitsRead_cons (by omega),
        decodeDigits, ih, byte_eq (b := a), byte_eq (b := b), byte_eq (b := c)] <;> omega
  | case2 a b n =>
      have ha := a.toNat_lt
      have hb := b.toNat_lt
      rw [digitsRead_cons (by omega), digitsRead_cons (by omega), digitsRead_cons (by omega), digitsRead_pad,
        decodeDigits, byte_eq (b := a), byte_eq (b := b)] <;> omega
  | case3 a =>
      have ha := a.toNat_lt
      rw [digitsRead_cons (by omega), digitsRead_cons (by omega), digitsRead_pad, decodeDigits, byte_eq (b := a)]
      omega
  | case4 => rfl

theorem decode64_encode64 (s : String) : decode64 (encode64 s) = s := by
  have hbytes : bytes64 (encode64 s) = encodeUtf8 s := by
    rw [bytes64, encode64, String.toList_ofList]
    exact decodeDigits_encodeDigits (encodeUtf8 s)
  rw [decode64, hbytes, decodeUtf8_encodeUtf8]

/-- The characters that bytes are written with. -/
theorem mem_encodeDigits {c : Char} {bytes : List UInt8} (h : c ∈ encodeDigits bytes) :
    c = '=' ∨ ∃ n < 64, c = digit64 n := by
  fun_induction encodeDigits bytes with
  | case1 a b d rest n ih =>
      have ha := a.toNat_lt
      have hb := b.toNat_lt
      have hd := d.toNat_lt
      simp only [List.mem_cons] at h
      rcases h with h | h | h | h | h
      · exact .inr ⟨_, by omega, h⟩
      · exact .inr ⟨_, by omega, h⟩
      · exact .inr ⟨_, by omega, h⟩
      · exact .inr ⟨_, by omega, h⟩
      · exact ih h
  | case2 a b n =>
      have ha := a.toNat_lt
      have hb := b.toNat_lt
      simp only [List.mem_cons, List.not_mem_nil, or_false] at h
      rcases h with h | h | h | h
      · exact .inr ⟨_, by omega, h⟩
      · exact .inr ⟨_, by omega, h⟩
      · exact .inr ⟨_, by omega, h⟩
      · exact .inl h
  | case3 a =>
      have ha := a.toNat_lt
      simp only [List.mem_cons, List.not_mem_nil, or_false] at h
      rcases h with h | h | h | h
      · exact .inr ⟨_, by omega, h⟩
      · exact .inr ⟨_, by omega, h⟩
      · exact .inl h
      · exact .inl h
  | case4 => cases h

end ScriptedText.Text
