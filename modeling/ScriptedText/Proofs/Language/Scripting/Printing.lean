import ScriptedText.Language.Scripting.Syntax
import ScriptedText.Proofs.Language.Scripting.Strings

/-!
Programs that do nothing but print texts. A text may be such a program by itself, and yet not where it stands behind another
one: what it means there depends on whether that one leaves off behind a call or in a comment.
-/

namespace ScriptedText.Scripting

/-- Blanks, and comments with the ends of their lines. -/
inductive Gap : List Char → Prop
  | nil : Gap []
  | blank {c : Char} {cs : List Char} (hc : Text.isBlank c = true) (h : Gap cs) : Gap (c :: cs)
  | comment {inside cs : List Char} {c : Char} (hinside : ∀ d ∈ inside, Text.endsLine d = false)
      (hc : Text.endsLine c = true) (h : Gap cs) : Gap ('/' :: '/' :: inside ++ c :: cs)

/-- A string literal and the text that it denotes. -/
inductive IsString : List Char → String → Prop
  | quoted {quote : Char} {inside text : List Char} (hquote : quote = '"' ∨ quote = '\'')
      (hinside : stringWithin quote (inside.length + 1) inside = some (text, [])) :
      IsString (quote :: inside) (String.ofList text)

/-- A sum of string literals, or an operand of one, which may be a sum in parentheses. -/
inductive IsSum : Bool → List Char → Expr → Prop
  | literal {cs : List Char} {text : String} (h : IsString cs text) : IsSum true cs (.literal (.text text))
  | parentheses {before cs after : List Char} {e : Expr} (hbefore : Gap before) (h : IsSum false cs e) (hafter : Gap after) :
      IsSum true ('(' :: before ++ cs ++ after ++ [')']) e
  | operand {cs : List Char} {e : Expr} (h : IsSum true cs e) : IsSum false cs e
  | plus {cs before after ds : List Char} {a b : Expr} (ha : IsSum false cs a) (hbefore : Gap before) (hafter : Gap after)
      (hb : IsSum true ds b) : IsSum false (cs ++ before ++ '+' :: after ++ ds) (.add a b)

/-- A call that prints a sum of string literals. -/
inductive Call : List Char → Expr → Prop
  | print {gap before cs after : List Char} {e : Expr} (hgap : Gap gap) (hbefore : Gap before) (h : IsSum false cs e)
      (hafter : Gap after) : Call ("print".toList ++ gap ++ '(' :: before ++ cs ++ after ++ [')']) e

/-- Where a text leaves off: where a statement may start, behind a call whose line goes on, or in a comment. -/
inductive Place
  | ready
  | behind
  | comment
  deriving DecidableEq, Repr

/-- From a place on, the text prints sums and gets to another place. -/
inductive Prints : Place → List Char → List Expr → Place → Prop
  | nil (p : Place) : Prints p [] [] p
  | inside {c : Char} {cs : List Char} {es : List Expr} {q : Place} (hc : Text.endsLine c = false)
      (h : Prints .comment cs es q) : Prints .comment (c :: cs) es q
  | line {p q : Place} {c : Char} {cs : List Char} {es : List Expr} (hc : Text.endsLine c = true)
      (h : Prints .ready cs es q) : Prints p (c :: cs) es q
  | blank {p q : Place} {c : Char} {cs : List Char} {es : List Expr} (hp : p ≠ .comment) (hc : Text.isBlank c = true)
      (hline : Text.endsLine c = false) (h : Prints p cs es q) : Prints p (c :: cs) es q
  | semicolon {p q : Place} {cs : List Char} {es : List Expr} (hp : p ≠ .comment) (h : Prints .ready cs es q) :
      Prints p (';' :: cs) es q
  | slashes {p q : Place} {cs : List Char} {es : List Expr} (hp : p ≠ .comment) (h : Prints .comment cs es q) :
      Prints p ('/' :: '/' :: cs) es q
  | call {q : Place} {call cs : List Char} {e : Expr} {es : List Expr} (hcall : Call call e) (h : Prints .behind cs es q) :
      Prints .ready (call ++ cs) (e :: es) q

variable {p q r : Place} {cs ds : List Char} {es fs : List Expr} {e : Expr} {text : String}

theorem Prints.append (h : Prints p cs es q) (h' : Prints q ds fs r) : Prints p (cs ++ ds) (es ++ fs) r := by
  induction h with
  | nil p => exact h'
  | inside hc _ ih => exact .inside hc (ih h')
  | line hc _ ih => exact .line hc (ih h')
  | blank hp hc hline _ ih => exact .blank hp hc hline (ih h')
  | semicolon hp _ ih => exact .semicolon hp (ih h')
  | slashes hp _ ih => exact .slashes hp (ih h')
  | call hcall _ ih =>
      rw [List.append_assoc]
      exact .call hcall (ih h')

/-! ### Tokens -/

def Lexeme.key (l : Lexeme) : Token × Bool := (l.token, l.afterBreak)

/-- With more behind it, the text makes the tokens; `last` says that nothing may stand behind it. The flags say whether a line
has ended since the token before. -/
def Lexes (last : Bool) (b : Bool) (cs : List Char) (ts : List (Token × Bool)) (b' : Bool) : Prop :=
  ∀ rest fuel, (last = true → rest = []) → (cs ++ rest).length ≤ fuel →
    ∃ ls fuel', rest.length ≤ fuel' ∧ ls.map Lexeme.key = ts ∧
      tokenizeFrom fuel b (cs ++ rest) = (tokenizeFrom fuel' b' rest).map (ls ++ ·)

variable {last b b' b'' : Bool} {ts us : List (Token × Bool)} {c : Char}

theorem Lexes.nil (last b : Bool) : Lexes last b [] [] b :=
  fun rest fuel _ hfuel => ⟨[], fuel, hfuel, rfl, by simp⟩

theorem Lexes.append (h : Lexes false b cs ts b') (h' : Lexes last b' ds us b'') :
    Lexes last b (cs ++ ds) (ts ++ us) b'' := by
  intro rest fuel hlast hfuel
  rw [List.append_assoc] at hfuel ⊢
  obtain ⟨ls, fuel', hfuel', hls, heq⟩ := h (ds ++ rest) fuel (absurd · Bool.false_ne_true) hfuel
  obtain ⟨ms, fuel'', hfuel'', hms, heq'⟩ := h' rest fuel' hlast hfuel'
  refine ⟨ls ++ ms, fuel'', hfuel'', by simp [hls, hms], ?_⟩
  rw [heq, heq', Option.map_map]
  congr 1
  funext more
  simp

/-- One step of the reader that makes no token. -/
theorem Lexes.of_skip (h : ∀ rest fuel, tokenizeFrom (fuel + 1) b (cs ++ rest) = tokenizeFrom fuel b' rest) (hne : cs ≠ []) :
    Lexes false b cs [] b' := by
  intro rest fuel _ hfuel
  have hlength := List.length_pos_iff.2 hne
  rw [List.length_append] at hfuel
  obtain ⟨fuel, rfl⟩ : ∃ n, fuel = n + 1 := ⟨fuel - 1, by omega⟩
  exact ⟨[], fuel, by omega, rfl, by simp [h]⟩

@[simp] theorem tokenizeFrom_nil (fuel : Nat) (b : Bool) : tokenizeFrom fuel b [] = some [] := by
  cases fuel <;> rfl

theorem tokenizeFrom_slashes (fuel : Nat) (b : Bool) (cs : List Char) :
    tokenizeFrom (fuel + 1) b ('/' :: '/' :: cs) = tokenizeFrom fuel b (cs.dropWhile (!Text.endsLine ·)) := rfl

/-- One step where the text opens no comment. -/
theorem tokenizeFrom_plain (hc : c ≠ '/') (fuel : Nat) (b : Bool) (cs : List Char) :
    tokenizeFrom (fuel + 1) b (c :: cs) =
      if Text.isBlank c then tokenizeFrom fuel (b || Text.endsLine c) cs
      else if c = '"' || c = '\'' then do
        let (s, rest) ← stringWithin c (cs.length + 1) cs
        (tokenizeFrom fuel false rest).map (⟨.text (String.ofList s), b, c :: cs, rest⟩ :: ·)
      else if startsNumber (c :: cs) then do
        let (n, rest) ← number? (c :: cs)
        if rest.head?.any inWord then failure
        (tokenizeFrom fuel false rest).map (⟨.number n, b, c :: cs, rest⟩ :: ·)
      else if startsWord c then
        (tokenizeFrom fuel false ((c :: cs).dropWhile inWord)).map
          (⟨.word (String.ofList ((c :: cs).takeWhile inWord)), b, c :: cs, (c :: cs).dropWhile inWord⟩ :: ·)
      else if isStep (c :: cs) then none
      else (tokenizeFrom fuel false cs).map (⟨.mark c, b, c :: cs, cs⟩ :: ·) := by
  rw [tokenizeFrom.eq_def]
  split
  · contradiction
  · contradiction
  · exact absurd (List.cons.inj ‹_ :: _ = '/' :: _›).1 hc
  · exact absurd (List.cons.inj ‹_ :: _ = '/' :: _›).1 hc
  · rename_i hfuel heq
    cases hfuel
    cases heq
    rfl

theorem Lexes.blank (hc : Text.isBlank c = true) : Lexes false b [c] [] (b || Text.endsLine c) := by
  refine Lexes.of_skip (fun rest fuel => ?_) (List.cons_ne_nil _ _)
  have hne : c ≠ '/' := by
    rintro rfl
    cases hc
  rw [List.cons_append, List.nil_append, tokenizeFrom_plain hne, if_pos hc]

theorem tokenizeFrom_slashes_cons (hc : Text.endsLine c = false) (fuel : Nat) (b : Bool) (cs : List Char) :
    tokenizeFrom fuel b ('/' :: '/' :: c :: cs) = tokenizeFrom fuel b ('/' :: '/' :: cs) := by
  cases fuel with
  | zero => rfl
  | succ fuel => rw [tokenizeFrom_slashes, tokenizeFrom_slashes, List.dropWhile_cons_of_pos (by simp [hc])]

theorem Lexes.inside (hc : Text.endsLine c = false) (h : Lexes last b ('/' :: '/' :: cs) ts b') :
    Lexes last b ('/' :: '/' :: c :: cs) ts b' := by
  intro rest fuel hlast hfuel
  obtain ⟨ls, fuel', hfuel', hls, heq⟩ := h rest fuel hlast (Nat.le_of_succ_le hfuel)
  exact ⟨ls, fuel', hfuel', hls, (tokenizeFrom_slashes_cons hc fuel b (cs ++ rest)).trans heq⟩

theorem Lexes.afterComment (hc : Text.endsLine c = true) (h : Lexes last true cs ts b') :
    Lexes last b ('/' :: '/' :: c :: cs) ts b' := by
  have hblank := Text.isBlank_of_endsLine hc
  have hne : c ≠ '/' := by
    rintro rfl
    cases hc
  have hskip : Lexes false b ['/', '/', c] [] true := by
    intro rest fuel _ hfuel
    obtain ⟨fuel, rfl⟩ : ∃ n, fuel = n + 2 := ⟨fuel - 2, by simp at hfuel; omega⟩
    refine ⟨[], fuel, by simp at hfuel; omega, rfl, ?_⟩
    have hdrop : (c :: rest).dropWhile (!Text.endsLine ·) = c :: rest := List.dropWhile_cons_of_neg (by simp [hc])
    simp only [List.cons_append, List.nil_append]
    rw [tokenizeFrom_slashes, hdrop, tokenizeFrom_plain hne, if_pos hblank, hc, Bool.or_true]
    simp
  exact hskip.append h

theorem Lexes.openComment (b : Bool) : Lexes true b ['/', '/'] [] b := by
  intro rest fuel hlast hfuel
  obtain rfl := hlast rfl
  obtain ⟨fuel, rfl⟩ : ∃ n, fuel = n + 1 := ⟨fuel - 1, by simp at hfuel; omega⟩
  exact ⟨[], fuel, Nat.zero_le _, rfl, by simp [tokenizeFrom_slashes]⟩

theorem Lexes.gap (h : Gap cs) (b : Bool) : ∃ b', Lexes false b cs [] b' := by
  induction h generalizing b with
  | nil => exact ⟨b, .nil false b⟩
  | blank hc _ ih =>
      obtain ⟨b', h⟩ := ih (b || Text.endsLine _)
      exact ⟨b', (Lexes.blank hc).append h⟩
  | @comment inside cs c hinside hc _ ih =>
      obtain ⟨b', h⟩ := ih true
      refine ⟨b', ?_⟩
      have hopened : Lexes false b ('/' :: '/' :: c :: cs) [] b' := .afterComment hc h
      induction inside with
      | nil => exact hopened
      | cons d inside ihinside =>
          obtain ⟨hd, hinside⟩ := List.forall_mem_cons.1 hinside
          exact .inside hd (ihinside hinside)

/-- Whether the character is a token by itself, whatever stands behind it. -/
def isMark (c : Char) : Bool := ";()".toList.contains c

theorem Lexes.mark (hc : isMark c = true) (b : Bool) : Lexes false b [c] [(.mark c, b)] false := by
  intro rest fuel _ hfuel
  obtain ⟨fuel, rfl⟩ : ∃ n, fuel = n + 1 := ⟨fuel - 1, by simp at hfuel; omega⟩
  refine ⟨[⟨.mark c, b, c :: rest, rest⟩], fuel, by simp at hfuel; omega, rfl, ?_⟩
  have hcases : c = ';' ∨ c = '(' ∨ c = ')' := by simpa [isMark] using hc
  rcases hcases with rfl | rfl | rfl <;> rfl

/-- A plus sign and what follows it, which is not another one. -/
theorem Lexes.plus (hc : c ≠ '+') (h : Lexes false false (c :: cs) ts b') (b : Bool) :
    Lexes false b ('+' :: c :: cs) ((.mark '+', b) :: ts) b' := by
  intro rest fuel hlast hfuel
  obtain ⟨fuel, rfl⟩ : ∃ n, fuel = n + 1 := ⟨fuel - 1, by simp at hfuel; omega⟩
  obtain ⟨ls, fuel', hfuel', hls, heq⟩ := h rest fuel hlast (Nat.le_of_succ_le_succ hfuel)
  refine ⟨⟨.mark '+', b, '+' :: (c :: cs ++ rest), c :: cs ++ rest⟩ :: ls, fuel', hfuel', by simp [hls, Lexeme.key], ?_⟩
  have hstep : isStep ('+' :: c :: (cs ++ rest)) = false := by simp [isStep, hc]
  have hnumber : startsNumber ('+' :: c :: (cs ++ rest)) = false := rfl
  have hplus : tokenizeFrom (fuel + 1) b ('+' :: c :: (cs ++ rest)) =
      (tokenizeFrom fuel false (c :: (cs ++ rest))).map (⟨.mark '+', b, '+' :: c :: (cs ++ rest), c :: (cs ++ rest)⟩ :: ·) := by
    rw [tokenizeFrom_plain (by decide), if_neg (by decide), if_neg (by decide),
      if_neg (by rw [hnumber]; exact Bool.false_ne_true), if_neg (by decide), if_neg (by simp [hstep])]
  rw [List.cons_append] at heq
  simp only [List.cons_append]
  rw [hplus, heq, Option.map_map]
  rfl

theorem tokenizeFrom_print (hc : inWord c = false) (fuel : Nat) (b : Bool) (cs : List Char) :
    tokenizeFrom (fuel + 1) b ("print".toList ++ c :: cs) = (tokenizeFrom fuel false (c :: cs)).map
      (⟨.word "print", b, "print".toList ++ c :: cs, c :: cs⟩ :: ·) := by
  have hword : ∀ d ∈ "print".toList, inWord d = true := fun d hd => List.all_eq_true.1 (by decide) d hd
  have hnot : (c :: cs).takeWhile inWord = [] := by simp [hc]
  have htake : ("print".toList ++ c :: cs).takeWhile inWord = "print".toList := by
    rw [List.takeWhile_append_of_pos hword, hnot, List.append_nil]
  have hdrop : ("print".toList ++ c :: cs).dropWhile inWord = c :: cs := by
    rw [List.dropWhile_append_of_pos hword]
    simp [hc]
  change tokenizeFrom (fuel + 1) b ('p' :: ("rint".toList ++ c :: cs)) = _
  change ('p' :: ("rint".toList ++ c :: cs)).takeWhile inWord = _ at htake
  change ('p' :: ("rint".toList ++ c :: cs)).dropWhile inWord = _ at hdrop
  have hnumber : startsNumber ('p' :: ("rint".toList ++ c :: cs)) = false := rfl
  rw [tokenizeFrom_plain (by decide), if_neg (by decide), if_neg (by decide),
    if_neg (by rw [hnumber]; exact Bool.false_ne_true), if_pos (by decide), htake, hdrop, String.ofList_toList]
  rfl

theorem Lexes.print (hc : inWord c = false) (h : Lexes last false (c :: cs) ts b') (b : Bool) :
    Lexes last b ("print".toList ++ c :: cs) ((.word "print", b) :: ts) b' := by
  intro rest fuel hlast hfuel
  obtain ⟨fuel, rfl⟩ : ∃ n, fuel = n + 1 := ⟨fuel - 1, by simp at hfuel; omega⟩
  obtain ⟨ls, fuel', hfuel', hls, heq⟩ := h rest fuel hlast (by simp at hfuel ⊢; omega)
  refine ⟨⟨.word "print", b, "print".toList ++ c :: (cs ++ rest), c :: (cs ++ rest)⟩ :: ls, fuel', hfuel',
    by simp [hls, Lexeme.key], ?_⟩
  rw [List.append_assoc, List.cons_append, tokenizeFrom_print hc]
  rw [List.cons_append] at heq
  rw [heq, Option.map_map]
  rfl

theorem Lexes.string (h : IsString cs text) (b : Bool) : Lexes false b cs [(.text text, b)] false := by
  obtain @⟨quote, inside, text, hquote, hinside⟩ := h
  intro rest fuel _ hfuel
  obtain ⟨fuel, rfl⟩ : ∃ n, fuel = n + 1 := ⟨fuel - 1, by simp at hfuel; omega⟩
  have hslash : quote ≠ '\\' ∧ quote ≠ '/' ∧ Text.isBlank quote = false := by
    rcases hquote with rfl | rfl <;> decide
  obtain ⟨hslash, hne, hblank⟩ := hslash
  have hread : stringWithin quote ((inside ++ rest).length + 1) (inside ++ rest) = some (text, rest) :=
    stringWithin_append hslash hinside rest (by simp)
  refine ⟨[⟨.text (String.ofList text), b, quote :: (inside ++ rest), rest⟩], fuel, by simp at hfuel; omega, rfl, ?_⟩
  rw [List.cons_append, tokenizeFrom_plain hne, if_neg (by simp [hblank]), if_pos (by simpa using hquote), hread]
  rfl

/-- The first character of a sum, which neither is part of a word nor adds. -/
theorem IsSum.head {operand : Bool} (h : IsSum operand cs e) : ∃ c tail, cs = c :: tail ∧ c ≠ '+' := by
  induction h with
  | literal h =>
      obtain ⟨hquote, -⟩ := h
      rcases hquote with rfl | rfl <;> exact ⟨_, _, rfl, by decide⟩
  | parentheses => exact ⟨_, _, rfl, by decide⟩
  | operand _ ih => exact ih
  | plus _ _ _ _ ih =>
      obtain ⟨c, tail, rfl, hc⟩ := ih
      exact ⟨c, _, rfl, hc⟩

/-- The code points of the blanks. -/
def blankCodes : List Nat :=
  [9, 10, 11, 12, 13, 0x20, 0xA0, 0x1680, 0x2000, 0x2001, 0x2002, 0x2003, 0x2004, 0x2005, 0x2006, 0x2007, 0x2008, 0x2009, 0x200A,
    0x2028, 0x2029, 0x202F, 0x205F, 0x3000, 0xFEFF]

theorem not_inWord_of_isBlank (h : Text.isBlank c = true) : inWord c = false := by
  have hcode : c.toNat ∈ blankCodes := by
    simp only [Text.isBlank, Bool.or_eq_true, Bool.and_eq_true, decide_eq_true_eq] at h
    simp only [blankCodes, List.mem_cons, List.not_mem_nil, or_false]
    omega
  have hall : ∀ n ∈ blankCodes, inWord (Char.ofNat n) = false := by decide +kernel
  have hc := hall _ hcode
  rwa [Char.ofNat_toNat] at hc

/-- The first character of a gap, which neither is part of a word nor adds. -/
theorem Gap.head (h : Gap cs) : cs = [] ∨ ∃ c tail, cs = c :: tail ∧ c ≠ '+' ∧ inWord c = false := by
  cases h with
  | nil => exact .inl rfl
  | blank hc _ =>
      refine .inr ⟨_, _, rfl, ?_, not_inWord_of_isBlank hc⟩
      rintro rfl
      cases hc
  | comment => exact .inr ⟨_, _, rfl, by decide, by decide⟩

end ScriptedText.Scripting
