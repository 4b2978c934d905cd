import Mathlib.Algebra.GroupWithZero.Nat
import Mathlib.Data.List.TakeWhile
import ScriptedText.Value.Number

/-!
Whole numbers below `2 ^ 53`, as they are written in decimals, read back as themselves.
-/

namespace ScriptedText

variable {n : Nat} {cs : List Char}

/-! ### Digits -/

theorem digitsOf_eq (n : Nat) : digitsOf n = Nat.toDigits 10 n := Nat.toList_repr

theorem isDigit_of_mem_digitsOf {c : Char} (h : c ∈ digitsOf n) : c.isDigit = true := by
  rw [digitsOf_eq] at h
  exact Nat.isDigit_of_mem_toDigits (by decide) (by decide) h

theorem digitsOf_ne_nil (n : Nat) : digitsOf n ≠ [] := by
  rw [digitsOf_eq]
  exact Nat.toDigits_ne_nil

theorem digitsValue_digitsOf (n : Nat) : digitsValue (digitsOf n) = n := by
  have hfold : digitsValue = fun cs => Nat.ofDigitChars 10 cs 0 := by
    funext cs
    simp only [digitsValue, Nat.ofDigitChars, Nat.mul_comm]
    rfl
  rw [hfold, digitsOf_eq]
  exact Nat.ofDigitChars_toDigits (by decide) (by decide)

theorem length_digitsOf_le (h : n < 2 ^ 53) : (digitsOf n).length ≤ 16 := by
  rw [digitsOf_eq, Nat.length_toDigits_le_iff (by decide) (by decide)]
  exact h.trans (by decide)

/-- No zeros stand in front. -/
theorem head?_digitsOf (hpos : 0 < n) : (digitsOf n).head? ≠ some '0' := by
  induction n using Nat.strongRecOn with
  | ind n ih =>
    rw [digitsOf_eq, Nat.toDigits_eq_if (by decide)]
    by_cases hn : n < 10
    · have hdigit : ∀ m < 10, 0 < m → [Nat.digitChar m].head? ≠ some '0' := by decide
      rw [if_pos hn]
      exact hdigit n hn hpos
    · have hhead := ih (n / 10) (by omega) (by omega)
      rw [digitsOf_eq] at hhead
      rw [if_neg hn, List.head?_append]
      obtain ⟨c, cs, hcs⟩ := List.exists_cons_of_ne_nil (Nat.toDigits_ne_nil (n := n / 10) (b := 10))
      rw [hcs] at hhead ⊢
      exact hhead

theorem ofChars?_of_digits (hcs : ∀ c ∈ cs, c.isDigit = true) (hne : cs ≠ []) :
    Decimal.ofChars? cs = some ⟨digitsValue cs, 0⟩ := by
  have htake : cs.takeWhile Char.isDigit = cs := List.takeWhile_eq_self_iff.2 hcs
  have hdrop : cs.dropWhile Char.isDigit = [] := List.dropWhile_eq_nil_iff.2 hcs
  simp [Decimal.ofChars?, Decimal.read?, htake, hdrop, hne, Decimal.readExponent]

namespace Number

/-! ### Whole numbers -/

theorem shift_of_neg (n k : Nat) : shift n (-(k : Int)) = n := by
  have hzero : (-(k : Int)).toNat = 0 := by omega
  simp [shift, hzero, twoTo]

theorem shift_of_nat (n k : Nat) : shift n k = n * 2 ^ k := by
  simp [shift, twoTo]

theorem floorLog_one (hpos : 0 < n) : floorLog n 1 = n.log2 := by
  have hlog : Nat.log2 1 = 0 := by decide
  have hle : shift 1 n.log2 ≤ shift n (-(n.log2 : Int)) := by
    rw [shift_of_nat, shift_of_neg, Nat.one_mul]
    exact Nat.log2_self_le (by omega)
  simp [floorLog, hlog, hle]

theorem roundEven_one (m : Nat) : roundEven m 1 = m := by
  simp [roundEven, Nat.mod_one]

/-- It has less than 53 binary digits, so that it only moves up to fill them. -/
theorem ofQuotient_one (hpos : 0 < n) (h : n < 2 ^ 53) :
    ofQuotient false n 1 = .finite ((n * 2 ^ (52 - n.log2) : Nat) : Int) (-((52 - n.log2 : Nat) : Int)) := by
  have hlog : n.log2 < 53 := (Nat.log2_lt (by omega)).2 h
  have hexponent : max ((n.log2 : Int) - 52) leastExponent = -((52 - n.log2 : Nat) : Int) := by
    simp only [leastExponent]
    omega
  have hfull : n * 2 ^ (52 - n.log2) < 2 ^ 53 := by
    calc n * 2 ^ (52 - n.log2) < 2 ^ (n.log2 + 1) * 2 ^ (52 - n.log2) :=
          Nat.mul_lt_mul_of_pos_right Nat.lt_log2_self (Nat.two_pow_pos _)
      _ = 2 ^ 53 := by
          rw [← Nat.pow_add]
          congr 1
          omega
  have hneg : - -((52 - n.log2 : Nat) : Int) = ((52 - n.log2 : Nat) : Int) := by omega
  have htwo : twoTo 53 = 2 ^ 53 := rfl
  have hne : ¬ n * 2 ^ (52 - n.log2) = 2 ^ 53 := by omega
  have hfinite : ¬ greatestExponent < -((52 - n.log2 : Nat) : Int) := by
    simp only [greatestExponent]
    omega
  unfold ofQuotient
  rw [if_neg (by omega), floorLog_one hpos]
  dsimp only
  rw [hexponent, hneg, shift_of_nat, shift_of_neg, roundEven_one, htwo]
  simp only [hne, hfinite, if_false]
  rfl

theorem int?_ofQuotient_one (hpos : 0 < n) (h : n < 2 ^ 53) : (ofQuotient false n 1).int? = some (n : Int) := by
  rw [ofQuotient_one hpos h]
  generalize 52 - n.log2 = k
  have hk : (- -(k : Int)).toNat = k := by omega
  have hzero : (-(k : Int)).toNat = 0 := by omega
  have hpow : ((2 ^ k : Nat) : Int) ≠ 0 := by
    have := Nat.two_pow_pos k
    omega
  have hone : ((twoTo 0 : Nat) : Int) = 1 := rfl
  have htwo : ((twoTo k : Nat) : Int) = ((2 ^ k : Nat) : Int) := rfl
  simp only [int?, hk, hzero, hone, htwo, Int.natCast_mul, Int.mul_emod_left, if_true, Int.mul_one]
  rw [Int.mul_ediv_cancel _ hpow]

theorem int?_ofDecimal (h : n < 2 ^ 53) : (ofDecimal false ⟨n, 0⟩).int? = some (n : Int) := by
  have hlength := length_digitsOf_le h
  have hten : tenTo (0 : Int).toNat = 1 := rfl
  by_cases hpos : 0 < n
  · have hwhole : ¬ Decimal.wholePlaces ⟨n, 0⟩ < -400 := by
      simp only [Decimal.wholePlaces]
      omega
    have hfinite : ¬ 400 < Decimal.wholePlaces ⟨n, 0⟩ := by
      simp only [Decimal.wholePlaces]
      omega
    unfold ofDecimal
    rw [if_neg (by simp [hwhole]; omega), if_neg hfinite, Int.neg_zero, hten, Nat.mul_one]
    exact int?_ofQuotient_one hpos h
  · obtain rfl : n = 0 := by omega
    decide +kernel

theorem not_isBlank_of_isDigit {c : Char} (h : c.isDigit = true) : Text.isBlank c = false := by
  have hrange : 48 ≤ c.toNat ∧ c.toNat ≤ 57 := by
    simpa [Char.isDigit, UInt32.le_iff_toNat_le] using h
  simp only [Text.isBlank, Bool.or_eq_false_iff, Bool.and_eq_false_iff, decide_eq_false_iff_not]
  omega

theorem trim_of_not_blank (h : ∀ c ∈ cs, Text.isBlank c = false) : Text.trim cs = cs := by
  have hleft {cs : List Char} (h : ∀ c ∈ cs, Text.isBlank c = false) : Text.trimLeft cs = cs := by
    cases cs with
    | nil => rfl
    | cons c cs => simp [Text.trimLeft, h c]
  rw [Text.trim, hleft h, hleft (by simpa using h), List.reverse_reverse]

theorem ofSigned_digitsOf (n : Nat) : ofSigned false (digitsOf n) = ofDecimal false ⟨n, 0⟩ := by
  have hdigits : ∀ c ∈ digitsOf n, c.isDigit = true := fun c => isDigit_of_mem_digitsOf
  have hword : String.ofList (digitsOf n) ≠ "Infinity" := by
    intro heq
    have hmem : 'I' ∈ digitsOf n := by
      rw [← String.toList_ofList (l := digitsOf n), heq]
      decide
    exact absurd (hdigits 'I' hmem) (by decide)
  simp [ofSigned, hword, ofChars?_of_digits hdigits (digitsOf_ne_nil n), digitsValue_digitsOf]

theorem int?_ofChars_digitsOf (h : n < 2 ^ 53) : (ofChars (digitsOf n)).int? = some (n : Int) := by
  by_cases hpos : 0 < n
  · have hdigits : ∀ c ∈ digitsOf n, c.isDigit = true := fun c => isDigit_of_mem_digitsOf
    have hhead := head?_digitsOf hpos
    have htrim := trim_of_not_blank fun c hc => not_isBlank_of_isDigit (hdigits c hc)
    rw [← int?_ofDecimal h, ← ofSigned_digitsOf]
    unfold ofChars
    rw [htrim]
    obtain ⟨c, cs, hcs⟩ := List.exists_cons_of_ne_nil (digitsOf_ne_nil n)
    have hc := hdigits c (hcs ▸ List.mem_cons_self ..)
    rw [hcs] at hhead ⊢
    -- neither a sign nor a zero comes first
    split
    · next heq => cases heq
    · next heq =>
        cases heq
        exact absurd hc (by decide)
    · next heq =>
        cases heq
        exact absurd hc (by decide)
    · next heq =>
        cases heq
        exact absurd rfl hhead
    · rfl
  · obtain rfl : n = 0 := by omega
    decide +kernel

end Number

end ScriptedText
