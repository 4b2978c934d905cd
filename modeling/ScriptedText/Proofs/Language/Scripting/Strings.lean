import Mathlib.Data.List.TakeWhile
import ScriptedText.Language.Scripting.Token

/-!
How string literals are read: with more text behind them they are read as they are without it, and what the engine puts in
quotes is read as it was.
-/

namespace ScriptedText.Scripting

variable {quote : Char} {fuel more : Nat} {cs after rest s : List Char}

/-! ### Escapes in front of more text -/

theorem hex4?_append {n : Nat} (h : Text.hex4? cs = some (n, after)) (rest : List Char) :
    Text.hex4? (cs ++ rest) = some (n, after ++ rest) := by
  match cs with
  | a :: b :: c :: d :: cs =>
      simp only [Text.hex4?, List.cons_append] at h ⊢
      cases ha : Text.hexValue? a <;> cases hb : Text.hexValue? b <;> cases hc : Text.hexValue? c <;>
        cases hd : Text.hexValue? d <;> simp_all
  | [] | [_] | [_, _] | [_, _, _] => cases h

theorem hex4?_of_brace (rest : List Char) : Text.hex4? ('\x7b' :: rest) = none := by
  match rest with
  | b :: c :: d :: rest => rfl
  | [] | [_] | [_, _] => rfl

theorem hex2?_append {n : Nat} (h : hex2? cs = some (n, after)) (rest : List Char) :
    hex2? (cs ++ rest) = some (n, after ++ rest) := by
  match cs with
  | a :: b :: cs =>
      simp only [hex2?, List.cons_append] at h ⊢
      cases ha : Text.hexValue? a <;> cases hb : Text.hexValue? b <;> simp_all
  | [] | [_] => cases h

theorem stringWithin_nil (quote : Char) (fuel : Nat) : stringWithin quote fuel [] = none := by
  cases fuel <;> rfl

theorem stringWithin_slash (hquote : quote ≠ '\\') (fuel : Nat) : stringWithin quote fuel ['\\'] = none := by
  cases fuel with
  | zero => rfl
  | succ fuel => simp [stringWithin, hquote.symm, stringWithin_nil]

theorem numbered?_of_not_brace (h : ∀ tail, cs ≠ '\x7b' :: tail) :
    numbered? cs = (Text.hex4? cs).map fun (unit, tail) => Text.joinUnits unit tail := by
  rw [numbered?.eq_2 cs h]
  cases Text.hex4? cs <;> rfl

/-- The second unit of a pair, where the text goes on with one. -/
def secondUnit? : List Char → Option (Nat × List Char)
  | '\\' :: 'u' :: tail => Text.hex4? tail
  | _ => none

/-- The character of a pair of units, of which the second one is in the text. -/
def pair? (unit : Nat) (cs : List Char) : Option (Char × List Char) :=
  if 0xD800 ≤ unit && unit < 0xDC00 then
    (secondUnit? cs).bind fun (low, tail) =>
      if 0xDC00 ≤ low && low < 0xE000 then
        some (Char.ofNat (0x10000 + (unit - 0xD800) * 0x400 + (low - 0xDC00)), tail)
      else none
  else none

/-- The character of a unit that is not one of a pair. -/
def loneUnit (unit : Nat) : Char := if 0xD800 ≤ unit && unit < 0xE000 then '\uFFFD' else Char.ofNat unit

theorem joinUnits_eq (unit : Nat) (cs : List Char) :
    Text.joinUnits unit cs = (pair? unit cs).getD (loneUnit unit, cs) := by
  unfold Text.joinUnits pair? loneUnit
  simp only [Bool.and_eq_true, decide_eq_true_eq]
  by_cases hhigh : 0xD800 ≤ unit ∧ unit < 0xDC00
  · have hsurrogate : 0xD800 ≤ unit ∧ unit < 0xE000 := by omega
    rw [if_pos hhigh, if_pos hhigh, if_pos hsurrogate]
    split
    · next tail =>
        change _ = ((Text.hex4? tail).bind _).getD _
        cases Text.hex4? tail with
        | none => rfl
        | some p =>
            dsimp only [Option.bind_some]
            split <;> simp only [Option.getD_some, Option.getD_none]
    · next hnot =>
        rw [secondUnit?.eq_2 cs hnot]
        rfl
  · rw [if_neg hhigh, if_neg hhigh]
    by_cases hlow : 0xDC00 ≤ unit ∧ unit < 0xE000
    · have hsurrogate : 0xD800 ≤ unit ∧ unit < 0xE000 := by omega
      rw [if_pos hlow, if_pos hsurrogate]
      rfl
    · have hplain : ¬ (0xD800 ≤ unit ∧ unit < 0xE000) := by omega
      rw [if_neg hlow, if_neg hplain]
      rfl

theorem secondUnit?_of_ne {c d : Char} (h : c ≠ '\\' ∨ d ≠ 'u') (cs : List Char) : secondUnit? (c :: d :: cs) = none := by
  unfold secondUnit?
  split
  · next heq =>
      cases heq
      rcases h with h | h <;> exact absurd rfl h
  · rfl

theorem secondUnit?_append {p : Nat × List Char} (h : secondUnit? cs = some p) (rest : List Char) :
    secondUnit? (cs ++ rest) = some (p.1, p.2 ++ rest) := by
  unfold secondUnit? at h
  split at h
  · exact hex4?_append h rest
  · cases h

/-- The text goes on within the string, so that a second unit is found there or not at all. -/
theorem secondUnit?_append_eq_none (hquote : quote ≠ '\\') {found : List Char × List Char}
    (hs : stringWithin quote fuel cs = some found) (h : secondUnit? cs = none) (rest : List Char) :
    secondUnit? (cs ++ rest) = none := by
  cases fuel with
  | zero => cases hs
  | succ fuel =>
      match cs with
      | [] => cases hs
      | [c] =>
          have hc : c ≠ '\\' := by
            rintro rfl
            simp [stringWithin_slash hquote] at hs
          cases rest with
          | nil => exact h
          | cons d rest => exact secondUnit?_of_ne (.inl hc) rest
      | c :: d :: tail =>
          by_cases hcd : c = '\\' ∧ d = 'u'
          · obtain ⟨rfl, rfl⟩ := hcd
            obtain ⟨p, hn, -⟩ := Option.bind_eq_some_iff.1 hs
            by_cases hbrace : ∃ inside, tail = '\x7b' :: inside
            · obtain ⟨inside, rfl⟩ := hbrace
              exact hex4?_of_brace _
            · have hnone : Text.hex4? tail = none := h
              rw [numbered?_of_not_brace (not_exists.1 hbrace), hnone] at hn
              cases hn
          · exact secondUnit?_of_ne (Decidable.not_and_iff_or_not.1 hcd) (tail ++ rest)

theorem pair?_append {unit : Nat} {p : Char × List Char} (h : pair? unit cs = some p) (rest : List Char) :
    pair? unit (cs ++ rest) = some (p.1, p.2 ++ rest) := by
  unfold pair? at h ⊢
  split at h
  · next hhigh =>
      obtain ⟨⟨low, tail⟩, hsecond, h⟩ := Option.bind_eq_some_iff.1 h
      dsimp only at h
      split at h
      · next hlow =>
          obtain rfl := Option.some.inj h
          simp only [hhigh, if_true, secondUnit?_append hsecond, Option.bind_some, hlow]
      · cases h
  · cases h

theorem pair?_append_eq_none (hquote : quote ≠ '\\') {found : List Char × List Char}
    (hs : stringWithin quote fuel cs = some found) {unit : Nat} (h : pair? unit cs = none) (rest : List Char) :
    pair? unit (cs ++ rest) = none := by
  unfold pair? at h ⊢
  split
  · next hhigh =>
      rw [if_pos hhigh] at h
      cases hsecond : secondUnit? cs with
      | none => rw [secondUnit?_append_eq_none hquote hs hsecond, Option.bind_none]
      | some p =>
          rw [hsecond] at h
          rw [secondUnit?_append hsecond]
          dsimp only [Option.bind_some] at h ⊢
          split at h
          · cases h
          · next hlow => exact if_neg hlow
  · rfl

theorem joinUnits_append (hquote : quote ≠ '\\') {unit : Nat} {c : Char} (h : Text.joinUnits unit cs = (c, after))
    {found : List Char × List Char} (hs : stringWithin quote fuel after = some found) (rest : List Char) :
    Text.joinUnits unit (cs ++ rest) = (c, after ++ rest) := by
  rw [joinUnits_eq] at h ⊢
  cases hpair : pair? unit cs with
  | some p =>
      rw [hpair] at h
      cases h
      rw [pair?_append hpair]
      rfl
  | none =>
      rw [hpair] at h
      cases h
      rw [pair?_append_eq_none hquote hs hpair]
      rfl

theorem numbered?_append (hquote : quote ≠ '\\') {c : Char} (h : numbered? cs = some (c, after))
    {found : List Char × List Char} (hs : stringWithin quote fuel after = some found) (rest : List Char) :
    numbered? (cs ++ rest) = some (c, after ++ rest) := by
  by_cases hbrace : ∃ inside, cs = '\x7b' :: inside
  · obtain ⟨inside, rfl⟩ := hbrace
    obtain ⟨n, hn, h⟩ := Option.bind_eq_some_iff.1 h
    split at h
    · next e tail htail =>
      have hlt : (inside.takeWhile (· ≠ '\x7d')).length < inside.length := by
        have hlength := congrArg List.length htail
        simp only [List.length_drop, List.length_cons] at hlength
        omega
      have htake : (inside ++ rest).takeWhile (· ≠ '\x7d') = inside.takeWhile (· ≠ '\x7d') := by
        rw [List.takeWhile_append, if_neg (Nat.ne_of_lt hlt)]
      have hbehind : (inside ++ rest).drop (inside.takeWhile (· ≠ '\x7d')).length = e :: (tail ++ rest) := by
        rw [List.drop_append_of_le_length (Nat.le_of_lt hlt), htail]
        rfl
      simp only [List.cons_append, numbered?, htake, hn, hbehind]
      by_cases hlow : n < 0x110000
      · rw [if_pos hlow] at h
        cases h
        exact if_pos hlow
      · rw [if_neg hlow] at h
        cases h
    · cases h
  · have hne := not_exists.1 hbrace
    rw [numbered?_of_not_brace hne] at h
    obtain ⟨⟨unit, behind⟩, hunit, hjoin⟩ := Option.map_eq_some_iff.1 h
    have hcut : Text.hex4? (cs ++ rest) = some (unit, behind ++ rest) := hex4?_append hunit rest
    have hne' : ∀ tail, cs ++ rest ≠ '\x7b' :: tail := by
      intro tail heq
      rw [heq, hex4?_of_brace] at hcut
      cases hcut
    rw [numbered?_of_not_brace hne', hcut]
    exact congrArg some (joinUnits_append hquote hjoin hs rest)

/-- The digits end before the text does, or there are as many as there may be. -/
theorem takeWhile_take_append {p : Char → Bool} {n : Nat} (h : ((cs.take n).takeWhile p).length < cs.length)
    (rest : List Char) : ((cs ++ rest).take n).takeWhile p = (cs.take n).takeWhile p := by
  rcases Nat.lt_or_ge cs.length n with hshort | hlong
  · rw [List.take_of_length_le (Nat.le_of_lt hshort)] at h ⊢
    rw [List.take_append, List.take_of_length_le (Nat.le_of_lt hshort), List.takeWhile_append, if_neg (Nat.ne_of_lt h)]
  · rw [List.take_append_of_le_length hlong]

theorem octal_append {c : Char} (h : octal cs = (c, after)) (hafter : after ≠ []) (rest : List Char) :
    octal (cs ++ rest) = (c, after ++ rest) := by
  unfold octal at h ⊢
  obtain ⟨d, tail, rfl⟩ : ∃ d tail, cs = d :: tail := by
    cases cs with
    | nil => exact absurd (Prod.mk.inj h).2.symm (by simpa using hafter)
    | cons d tail => exact ⟨d, tail, rfl⟩
  have hhead : (d :: tail ++ rest).head? = (d :: tail).head? := rfl
  rw [hhead]
  dsimp only at h ⊢
  generalize (if (d :: tail).head?.any (· ≤ '3') = true then 3 else 2) = n at h ⊢
  obtain ⟨rfl, rfl⟩ := Prod.mk.inj h
  have hlt : (((d :: tail).take n).takeWhile isOctal).length < (d :: tail).length := by
    by_contra hge
    exact hafter (List.drop_eq_nil_of_le (Nat.le_of_not_lt hge))
  rw [takeWhile_take_append hlt, List.drop_append_of_le_length (Nat.le_of_lt hlt)]

theorem ne_nil_of_stringWithin {found : List Char × List Char} (hs : stringWithin quote fuel cs = some found) : cs ≠ [] := by
  rintro rfl
  rw [stringWithin_nil] at hs
  cases hs

theorem not_newline_append {c : Char} (hne : cs ≠ []) (h : ∀ tail, c = '\x0d' → cs = '\n' :: tail → False) :
    ∀ tail, c = '\x0d' → cs ++ rest = '\n' :: tail → False := by
  intro tail hc hcs
  obtain ⟨d, cs, rfl⟩ := List.exists_cons_of_ne_nil hne
  cases hcs
  exact h cs hc rfl

theorem stringWithin_plain {c : Char} (hc : c ≠ '\\') (fuel : Nat) (cs : List Char) :
    stringWithin quote (fuel + 1) (c :: cs) =
      if c = quote then some ([], cs)
      else if c = '\n' || c = '\r' then none
      else (stringWithin quote fuel cs).map fun (s, after) => (c :: s, after) :=
  stringWithin.eq_7 quote fuel c cs (fun _ h => absurd h hc) (fun _ h => absurd h hc) (fun _ h => absurd h hc)
    (fun _ _ h => absurd h hc)

/-- By induction on the reader; the closing quote stands behind all that it looks ahead for. -/
theorem stringWithin_append (hquote : quote ≠ '\\') (h : stringWithin quote fuel cs = some (s, after)) (rest : List Char)
    (hmore : fuel ≤ more) : stringWithin quote more (cs ++ rest) = some (s, after ++ rest) := by
  fun_induction stringWithin quote fuel cs generalizing s more with
  | case1 => cases h
  | case2 => cases h
  | case3 fuel tail ih =>
      obtain ⟨more, rfl⟩ : ∃ n, more = n + 1 := ⟨more - 1, by omega⟩
      obtain ⟨⟨c, behind⟩, hn, h⟩ := Option.bind_eq_some_iff.1 h
      obtain ⟨⟨found, tail'⟩, hs, heq⟩ := Option.map_eq_some_iff.1 h
      cases heq
      have hn' := numbered?_append hquote hn hs rest
      have hs' := ih behind hs (Nat.le_of_succ_le_succ hmore)
      simp [stringWithin, hn', hs']
  | case4 fuel tail ih =>
      obtain ⟨more, rfl⟩ : ∃ n, more = n + 1 := ⟨more - 1, by omega⟩
      obtain ⟨⟨n, behind⟩, hn, h⟩ := Option.bind_eq_some_iff.1 h
      obtain ⟨⟨found, tail'⟩, hs, heq⟩ := Option.map_eq_some_iff.1 h
      cases heq
      have hn' := hex2?_append hn rest
      have hs' := ih behind hs (Nat.le_of_succ_le_succ hmore)
      simp [stringWithin, hn', hs']
  | case5 fuel tail ih =>
      obtain ⟨more, rfl⟩ : ∃ n, more = n + 1 := ⟨more - 1, by omega⟩
      have hs' := ih h (Nat.le_of_succ_le_succ hmore)
      simp [stringWithin, hs']
  | case6 fuel c tail hu hx hr hoctal d behind hbehind ih =>
      obtain ⟨more, rfl⟩ : ∃ n, more = n + 1 := ⟨more - 1, by omega⟩
      obtain ⟨⟨found, tail'⟩, hs, heq⟩ := Option.map_eq_some_iff.1 h
      cases heq
      have hs' := ih hs (Nat.le_of_succ_le_succ hmore)
      have hbehind' := octal_append hbehind (ne_nil_of_stringWithin hs) rest
      have hreturn : c ≠ '\r' := by
        rintro rfl
        cases hoctal
      rw [List.cons_append, List.cons_append, stringWithin.eq_6 _ _ _ _ hu hx (fun _ h => absurd h hreturn), if_pos hoctal,
        ← List.cons_append, hbehind']
      simp [hs']
  | case7 fuel c tail hu hx hr hoctal hends ih =>
      obtain ⟨more, rfl⟩ : ∃ n, more = n + 1 := ⟨more - 1, by omega⟩
      have hs' := ih h (Nat.le_of_succ_le_succ hmore)
      rw [List.cons_append, List.cons_append,
        stringWithin.eq_6 _ _ _ _ hu hx (not_newline_append (ne_nil_of_stringWithin h) hr), if_neg hoctal, if_pos hends]
      exact hs'
  | case8 fuel c tail hu hx hr hoctal hends ih =>
      obtain ⟨more, rfl⟩ : ∃ n, more = n + 1 := ⟨more - 1, by omega⟩
      obtain ⟨⟨found, tail'⟩, hs, heq⟩ := Option.map_eq_some_iff.1 h
      cases heq
      have hs' := ih hs (Nat.le_of_succ_le_succ hmore)
      rw [List.cons_append, List.cons_append,
        stringWithin.eq_6 _ _ _ _ hu hx (not_newline_append (ne_nil_of_stringWithin hs) hr), if_neg hoctal, if_neg hends, hs']
      rfl
  | case9 fuel tail hu hx hr hne =>
      obtain ⟨more, rfl⟩ : ∃ n, more = n + 1 := ⟨more - 1, by omega⟩
      cases h
      rw [List.cons_append, stringWithin_plain hquote, if_pos rfl]
  | case10 => cases h
  | case11 fuel c tail hu hx hr hne hc hline ih =>
      obtain ⟨more, rfl⟩ : ∃ n, more = n + 1 := ⟨more - 1, by omega⟩
      obtain ⟨⟨found, tail'⟩, hs, heq⟩ := Option.map_eq_some_iff.1 h
      cases heq
      have hs' := ih hs (Nat.le_of_succ_le_succ hmore)
      have hslash : c ≠ '\\' := by
        obtain ⟨d, tail, rfl⟩ := List.exists_cons_of_ne_nil (ne_nil_of_stringWithin hs)
        exact fun h => hne d tail h rfl
      rw [List.cons_append, stringWithin_plain hslash, if_neg hc, if_neg hline, hs']
      rfl

/-! ### Quoted texts -/

theorem hexValue?_hexDigit {n : Nat} (h : n < 16) : Text.hexValue? (Text.hexDigit n) = some n := by
  revert n
  decide

theorem numbered?_control {c : Char} (h : c.toNat < 0x20) (rest : List Char) :
    numbered? ('0' :: '0' :: Text.hexDigit (c.toNat / 16) :: Text.hexDigit (c.toNat % 16) :: rest) = some (c, rest) := by
  have hzero : Text.hexValue? '0' = some 0 := rfl
  have hhigh := hexValue?_hexDigit (n := c.toNat / 16) (by omega)
  have hlow := hexValue?_hexDigit (n := c.toNat % 16) (by omega)
  have hvalue : c.toNat / 16 * 16 + c.toNat % 16 = c.toNat := Nat.div_add_mod' _ _
  have hunit : Text.hex4? ('0' :: '0' :: Text.hexDigit (c.toNat / 16) :: Text.hexDigit (c.toNat % 16) :: rest) =
      some (c.toNat, rest) := by
    simp [Text.hex4?, hzero, hhigh, hlow, hvalue]
  have hjoin : Text.joinUnits c.toNat rest = (c, rest) := by
    unfold Text.joinUnits
    rw [if_neg (by simp; omega), if_neg (by simp; omega), Char.ofNat_toNat]
  rw [numbered?_of_not_brace (by rintro _ ⟨⟩), hunit]
  exact congrArg some hjoin

theorem stringWithin_simple {c : Char} (hu : c ≠ 'u') (hx : c ≠ 'x') (hoctal : isOctal c = false)
    (hends : Text.endsLine c = false) (fuel : Nat) (cs : List Char) :
    stringWithin quote (fuel + 1) ('\\' :: c :: cs) =
      (stringWithin quote fuel cs).map fun (s, after) => (simpleEscape c :: s, after) := by
  have hreturn : c ≠ '\r' := by
    rintro rfl
    cases hends
  rw [stringWithin.eq_6 _ _ _ _ hu hx (fun _ h => absurd h hreturn)]
  simp [hoctal, hends]

/-- An escaped character reads as itself. -/
theorem stringWithin_escape (c : Char) (fuel : Nat) (cs : List Char) :
    stringWithin '"' (fuel + 1) (Text.escape c ++ cs) = (stringWithin '"' fuel cs).map fun (s, after) => (c :: s, after) := by
  unfold Text.escape
  split
  · next h =>
      subst h
      exact stringWithin_simple (c := '"') (by decide) (by decide) rfl rfl fuel cs
  split
  · next h =>
      subst h
      exact stringWithin_simple (c := '\\') (by decide) (by decide) rfl rfl fuel cs
  split
  · next h =>
      subst h
      exact stringWithin_simple (c := 'b') (by decide) (by decide) rfl rfl fuel cs
  split
  · next h =>
      subst h
      exact stringWithin_simple (c := 'f') (by decide) (by decide) rfl rfl fuel cs
  split
  · next h =>
      subst h
      exact stringWithin_simple (c := 'n') (by decide) (by decide) rfl rfl fuel cs
  split
  · next h =>
      subst h
      exact stringWithin_simple (c := 'r') (by decide) (by decide) rfl rfl fuel cs
  split
  · next h =>
      subst h
      exact stringWithin_simple (c := 't') (by decide) (by decide) rfl rfl fuel cs
  split
  · next h =>
      simp only [List.cons_append, List.nil_append, stringWithin, numbered?_control h]
      rfl
  · next hquote hslash _ _ hline hreturn _ _ =>
      rw [List.cons_append, List.nil_append, stringWithin_plain hslash, if_neg hquote, if_neg (by simp [hline, hreturn])]

theorem stringWithin_quoted (cs rest : List Char) {fuel : Nat} (hfuel : cs.length < fuel) :
    stringWithin '"' fuel (cs.flatMap Text.escape ++ '"' :: rest) = some (cs, rest) := by
  induction cs generalizing fuel with
  | nil =>
      obtain ⟨fuel, rfl⟩ : ∃ n, fuel = n + 1 := ⟨fuel - 1, by simp at hfuel; omega⟩
      rfl
  | cons c cs ih =>
      obtain ⟨fuel, rfl⟩ : ∃ n, fuel = n + 1 := ⟨fuel - 1, by simp at hfuel; omega⟩
      have hrest := ih (Nat.lt_of_succ_lt_succ hfuel)
      rw [List.flatMap_cons, List.append_assoc, stringWithin_escape, hrest]
      rfl

end ScriptedText.Scripting
