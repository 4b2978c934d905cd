import ScriptedText.Language.Mustache.Adapter
import ScriptedText.Proofs.Text.Encoding
import ScriptedText.Proofs.Value.Counting

/-!
How a mustache is read that holds a single term, or a helper and a single term: a term is a name, which may be reached
through what the template sees, or a text in quotes.
-/

namespace ScriptedText.Mustache

/-! ### Lexemes -/

/-- The pieces of a mustache, its closing braces, and what follows these. -/
inductive Lexes : List Char → List Lexeme → Closing → List Char → Prop
  | closed {cs rest : List Char} {closing : Closing} (h : closing? (Text.trimLeft cs) = some (closing, rest)) :
      Lexes cs [] closing rest
  | piece {cs more rest : List Char} {l : Lexeme} {ls : List Lexeme} {closing : Closing}
      (hopen : closing? (Text.trimLeft cs) = none) (hl : lexeme? (Text.trimLeft cs) = some (l, more))
      (h : Lexes more ls closing rest) : Lexes cs (l :: ls) closing rest

variable {cs rest more padding name text : List Char} {l : Lexeme} {ls : List Lexeme} {closing : Closing}

theorem lexemes?_of_lexes (h : Lexes cs ls closing rest) {fuel : Nat} (hfuel : ls.length < fuel) :
    lexemes? fuel cs = some (ls, closing, rest) := by
  induction h generalizing fuel with
  | closed h =>
      cases fuel with
      | zero => cases hfuel
      | succ fuel => simp [lexemes?, h]
  | piece hopen hl _ ih =>
      cases fuel with
      | zero => cases hfuel
      | succ fuel =>
          have hrest := ih (Nat.lt_of_succ_lt_succ hfuel)
          simp [lexemes?, hopen, hl, hrest]

theorem Lexes.pad (hpadding : ∀ c ∈ padding, Text.isBlank c = true) (h : Lexes cs ls closing rest) :
    Lexes (padding ++ cs) ls closing rest := by
  have htrim : Text.trimLeft (padding ++ cs) = Text.trimLeft cs := List.dropWhile_append_of_pos hpadding
  cases h with
  | closed h => exact .closed (htrim ▸ h)
  | piece hopen hl h => exact .piece (htrim ▸ hopen) (htrim ▸ hl) h

/-- A piece that does not start with a blank, a brace or a tilde. -/
theorem Lexes.of_lexeme? {c : Char} (hblank : Text.isBlank c = false) (hbrace : c ≠ '\x7d') (htilde : c ≠ '~')
    (hl : lexeme? (c :: cs) = some (l, more)) (h : Lexes more ls closing rest) : Lexes (c :: cs) (l :: ls) closing rest := by
  have htrim : Text.trimLeft (c :: cs) = c :: cs := List.dropWhile_cons_of_neg (by simp [hblank])
  refine .piece ?_ (by rwa [htrim]) h
  rw [htrim]
  unfold closing?
  split <;> simp_all

/-! ### Names -/

/-- Among all characters there is no deciding; the list is gone through. -/
theorem forall_mem_of_all {p : Char → Bool} {b : Bool} (h : cs.all (p · == b) = true) : ∀ c ∈ cs, p c = b := by
  simpa using h

/-- Behind a name, and behind a literal: a blank or a brace. -/
def Ends (rest : List Char) : Prop := ∃ c tail, rest = c :: tail ∧ (Text.isBlank c = true ∨ c = '\x7d')

theorem Ends.endsName (h : Ends rest) : endsName rest = true := by
  obtain ⟨c, tail, rfl, hc | rfl⟩ := h
  · simp [Mustache.endsName, hc]
  · rfl

/-- Digits with at most a sign. -/
def isNumeral (cs : List Char) : Bool :=
  let digits := if cs.head? = some '-' then cs.drop 1 else cs
  !digits.isEmpty && digits.all Char.isDigit

/-- A name that needs no brackets. -/
structure IsPlain (name : List Char) : Prop where
  ne_nil : name ≠ []
  chars : ∀ c ∈ name, isNameChar c = true
  word : String.ofList name ∉ ["true", "false", "undefined", "null", "this"]
  numeral : isNumeral name = false

theorem not_isBlank_of_isNameChar {c : Char} (h : isNameChar c = true) : Text.isBlank c = false := by
  simp only [isNameChar, Bool.not_eq_true', Bool.or_eq_false_iff] at h
  exact h.1

theorem isNameChar_ne {c d : Char} (h : isNameChar c = true) (hd : isNameChar d = false) : c ≠ d := by
  rintro rfl
  exact absurd (h.symm.trans hd) nofun

theorem Ends.not_isNameChar (h : Ends rest) : ∀ c ∈ rest.head?, isNameChar c = false := by
  obtain ⟨c, tail, rfl, hc⟩ := h
  intro d hd
  cases hd
  rcases hc with hc | rfl
  · simp [isNameChar, hc]
  · rfl

theorem takeWhile_name (hname : ∀ c ∈ name, isNameChar c = true) (hrest : ∀ c ∈ rest.head?, isNameChar c = false) :
    (name ++ rest).takeWhile isNameChar = name := by
  rw [List.takeWhile_append_of_pos hname]
  cases rest with
  | nil => simp
  | cons c rest => simp [hrest c rfl]

theorem constant?_of_word (hchars : ∀ c ∈ name, isNameChar c = true) (hrest : ∀ c ∈ rest.head?, isNameChar c = false)
    (hword : String.ofList name ∉ ["true", "false", "undefined", "null"]) : constant? (name ++ rest) = none := by
  have hlookup : constants.lookup (String.ofList name) = none := by
    rw [List.lookup_eq_none_iff]
    rintro ⟨word, v⟩ hmem
    have hconstant : word ∈ ["true", "false", "undefined", "null"] := List.mem_map_of_mem (f := Prod.fst) hmem
    have hne : String.ofList name ≠ word := fun heq => hword (heq.symm ▸ hconstant)
    exact bne_iff_ne.2 hne
  simp [constant?, takeWhile_name hchars hrest, hlookup]

theorem endsLiteral_of_isNameChar {c : Char} (h : isNameChar c = true) : endsLiteral (c :: cs) = false := by
  have hblank := not_isBlank_of_isNameChar h
  have hmarks : ∀ d ∈ "~\x7d)]".toList, c ≠ d :=
    fun d hd => isNameChar_ne h (forall_mem_of_all (by decide) d hd)
  simpa [endsLiteral, hblank] using hmarks

theorem isNameChar_of_isDigit {c : Char} (h : c.isDigit = true) : isNameChar c = true := by
  have hmarks : ∀ d ∈ "!\"#%&'()*+,./;<=>@[\\]^\x60\x7b|\x7d~".toList, d.isDigit = false :=
    forall_mem_of_all (by decide)
  unfold isNameChar
  rw [Number.not_isBlank_of_isDigit h, Bool.false_or, Bool.not_eq_true', Bool.eq_false_iff]
  intro hc
  exact absurd ((hmarks c (List.contains_iff_mem.1 hc)).symm.trans h) nofun

/-- Behind its digits a name goes on, so that they are no number. -/
theorem number?_of_name (hchars : ∀ c ∈ name, isNameChar c = true) (hrest : ∀ c ∈ rest.head?, isNameChar c = false)
    (hne : name ≠ []) (hnumeral : isNumeral name = false) : number? (name ++ rest) = none := by
  have hhead : (name ++ rest).head? = name.head? := by
    obtain ⟨c, cs, rfl⟩ := List.exists_cons_of_ne_nil hne
    rfl
  obtain ⟨digits, hdigits, hchars⟩ : ∃ digits, (if name.head? = some '-' then name.drop 1 else name) = digits ∧
      ∀ c ∈ digits, isNameChar c = true := by
    refine ⟨_, rfl, fun c hc => hchars c ?_⟩
    split at hc
    · exact List.mem_of_mem_drop hc
    · exact hc
  have hsigned : (if name.head? = some '-' then (name ++ rest).drop 1 else name ++ rest) = digits ++ rest := by
    rw [← hdigits]
    split
    · rw [List.drop_append_of_le_length (List.length_pos_iff.2 hne)]
    · rfl
  unfold isNumeral at hnumeral
  rw [hdigits] at hnumeral
  unfold number?
  rw [hhead, hsigned]
  obtain ⟨whole, tail, hsplit, hwhole, htail⟩ : ∃ whole tail, digits = whole ++ tail ∧
      (∀ c ∈ whole, c.isDigit = true) ∧ ∀ c ∈ tail.head?, c.isDigit = false := by
    refine ⟨_, _, List.takeWhile_append_dropWhile.symm, fun c => List.mem_takeWhile_imp, fun c hc => ?_⟩
    have hnot := List.head?_dropWhile_not Char.isDigit digits
    rw [Option.mem_def.1 hc] at hnot
    simpa using hnot
  subst hsplit
  cases tail with
  | nil =>
      have hnil : whole = [] := by
        by_contra hne
        simp [hne] at hnumeral
        obtain ⟨c, hc, hdigit⟩ := hnumeral
        exact absurd (hwhole c hc) (by simp [hdigit])
      subst hnil
      have hnone : rest.takeWhile Char.isDigit = [] := by
        cases rest with
        | nil => rfl
        | cons c rest =>
            have hdigit : c.isDigit = false :=
              Bool.not_eq_true _ ▸ fun hdigit => absurd ((hrest c rfl).symm.trans (isNameChar_of_isDigit hdigit)) nofun
            simp [hdigit]
      simp [hnone]
  | cons c tail =>
      have hc := htail c rfl
      have hname := hchars c (by simp)
      have htake : (whole ++ c :: tail ++ rest).takeWhile Char.isDigit = whole := by
        rw [List.append_assoc, List.takeWhile_append_of_pos hwhole]
        simp [hc]
      have hpoint : c ≠ '.' := isNameChar_ne hname rfl
      have hends : endsLiteral (c :: (tail ++ rest)) = false := endsLiteral_of_isNameChar hname
      dsimp only
      rw [htake, List.append_assoc, List.drop_left, List.cons_append]
      simp [hpoint, hends]

/-- The word ends where the name does, also before a further name that is reached through it. -/
theorem lexeme?_of_word (hchars : ∀ c ∈ name, isNameChar c = true) (hne : name ≠ [])
    (hrest : ∀ c ∈ rest.head?, isNameChar c = false) (hends : endsName rest = true) (hconstant : constant? (name ++ rest) = none)
    (hnumber : number? (name ++ rest) = none) :
    lexeme? (name ++ rest) = some (.name (String.ofList name) false, rest) := by
  have htake := takeWhile_name hchars hrest
  obtain ⟨c, cs, rfl⟩ := List.exists_cons_of_ne_nil hne
  have hc : ∀ d, isNameChar d = false → c ≠ d := fun d => isNameChar_ne (hchars c (List.mem_cons_self ..))
  have hmarks : c ≠ '=' ∧ c ≠ '@' ∧ c ≠ '/' ∧ c ≠ '.' ∧ c ≠ '"' ∧ c ≠ '\'' ∧ c ≠ '[' :=
    ⟨hc _ rfl, hc _ rfl, hc _ rfl, hc _ rfl, hc _ rfl, hc _ rfl, hc _ rfl⟩
  unfold lexeme?
  split
  all_goals simp_all

theorem lexeme?_of_plain (hname : IsPlain name) (hends : Ends rest) :
    lexeme? (name ++ rest) = some (.name (String.ofList name) false, rest) := by
  have hrest := hends.not_isNameChar
  have hword : String.ofList name ∉ ["true", "false", "undefined", "null"] :=
    fun h => hname.word (List.mem_append_left ["this"] h)
  exact lexeme?_of_word hname.chars hname.ne_nil hrest hends.endsName (constant?_of_word hname.chars hrest hword)
    (number?_of_name hname.chars hrest hname.ne_nil hname.numeral)

theorem bracketedName_of_not_mem (hbracket : ']' ∉ name) (hslash : '\\' ∉ name) :
    bracketedName (name ++ ']' :: rest) = some (name, rest) := by
  induction name with
  | nil => rfl
  | cons c name ih =>
      simp only [List.mem_cons, not_or] at hbracket hslash
      rw [List.cons_append, bracketedName.eq_4]
      · simp [ih hbracket.2 hslash.2]
      · exact fun tail h => absurd h.symm hslash.1
      · exact fun h => absurd h.symm hbracket.1

theorem quotedText_of_not_mem {quote : Char} (hquote : quote ∉ text) (hslash : '\\' ∉ text) (hne : quote ≠ '\\') :
    quotedText quote (text ++ quote :: rest) = some (text, rest) := by
  induction text with
  | nil => rw [List.nil_append, quotedText.eq_3 _ _ _ (fun c tail h => absurd h hne), if_pos rfl]
  | cons c text ih =>
      simp only [List.mem_cons, not_or] at hquote hslash
      rw [List.cons_append, quotedText.eq_3 _ _ _ (fun c tail h => absurd h.symm hslash.1), if_neg (Ne.symm hquote.1),
        ih hquote.2 hslash.2]
      rfl

/-! ### Terms -/

/-- How a name is reached: as it is, or through what the template sees. -/
inductive Reach
  | direct
  | this (slash : Bool)
  | dot
  deriving DecidableEq, Repr

namespace Reach

def separator (slash : Bool) : Char := if slash then '/' else '.'

def chars : Reach → List Char
  | direct => []
  | this slash => "this".toList ++ [separator slash]
  | dot => "./".toList

def lexemes : Reach → List Lexeme
  | direct => []
  | this slash => [.name "this" false, .separator (separator slash)]
  | dot => [.name "." false, .separator '/']

def spelling : Reach → String
  | direct => ""
  | this slash => "this" ++ String.ofList [separator slash]
  | dot => "./"

end Reach

/-- A name as an expression spells it. In brackets it may hold nearly everything. -/
structure Spelling where
  reach : Reach
  isBracketed : Bool
  name : List Char
  bracketed : isBracketed = true → ']' ∉ name ∧ '\\' ∉ name
  plain : isBracketed = false → IsPlain name

/-- A text in quotes. -/
structure Quotation where
  quote : Char
  text : List Char
  isQuote : quote = '"' ∨ quote = '\''
  free : quote ∉ text ∧ '\\' ∉ text

inductive Term
  | spelled (s : Spelling)
  | quoted (q : Quotation)

namespace Spelling

variable (s : Spelling)

def inside : List Char := if s.isBracketed then '[' :: s.name ++ [']'] else s.name

def chars : List Char := s.reach.chars ++ s.inside

def lexemes : List Lexeme := s.reach.lexemes ++ [.name (String.ofList s.name) s.isBracketed]

def path : Path where
  fields := [String.ofList s.name]
  isScoped := s.reach ≠ .direct
  spelling := s.reach.spelling ++ String.ofList s.name

end Spelling

namespace Term

def chars : Term → List Char
  | spelled s => s.chars
  | quoted q => q.quote :: q.text ++ [q.quote]

def lexemes : Term → List Lexeme
  | spelled s => s.lexemes
  | quoted q => [.literal (.text (String.ofList q.text))]

def operand : Term → Operand
  | spelled s => .path s.path
  | quoted q => .literal (.text (String.ofList q.text))

end Term

theorem Lexes.inside (s : Spelling) (hends : Ends rest) (h : Lexes rest ls closing more) :
    Lexes (s.inside ++ rest) (.name (String.ofList s.name) s.isBracketed :: ls) closing more := by
  unfold Spelling.inside
  cases hs : s.isBracketed with
  | true =>
      obtain ⟨hbracket, hslash⟩ := s.bracketed hs
      refine Lexes.of_lexeme? (c := '[') (by decide) (by decide) (by decide) ?_ h
      simp [lexeme?, bracketedName_of_not_mem hbracket hslash]
  | false =>
      have hplain := s.plain hs
      have hl := lexeme?_of_plain hplain hends
      obtain ⟨c, cs, hcs⟩ := List.exists_cons_of_ne_nil hplain.ne_nil
      have hc := hplain.chars c (hcs ▸ List.mem_cons_self ..)
      simp only [Bool.false_eq_true, if_false]
      rw [hcs] at hl ⊢
      exact Lexes.of_lexeme? (not_isBlank_of_isNameChar hc) (isNameChar_ne hc rfl) (isNameChar_ne hc rfl) hl h

/-- A name starts here, so that a point in front of it separates. -/
def Starts (cs : List Char) : Prop := ∃ c tail, cs = c :: tail ∧ (isNameChar c = true ∨ c = '[')

theorem Starts.not_ends (h : Starts cs) : endsName cs = false ∧ ∀ tail, cs ≠ '.' :: tail := by
  obtain ⟨c, tail, rfl, hc | rfl⟩ := h
  · have hmarks : ∀ d ∈ "=~\x7d/.)|]".toList, c ≠ d :=
      fun d hd => isNameChar_ne hc (forall_mem_of_all (by decide) d hd)
    refine ⟨by simpa [endsName, not_isBlank_of_isNameChar hc] using hmarks, fun tail h => ?_⟩
    cases h
    exact absurd hc (by decide)
  · exact ⟨rfl, nofun⟩

theorem Spelling.starts_inside (s : Spelling) (rest : List Char) : Starts (s.inside ++ rest) := by
  unfold Spelling.inside
  cases hs : s.isBracketed with
  | true => exact ⟨'[', s.name ++ [']'] ++ rest, by simp, .inr rfl⟩
  | false =>
      have hplain := s.plain hs
      obtain ⟨c, cs, hcs⟩ := List.exists_cons_of_ne_nil hplain.ne_nil
      exact ⟨c, cs ++ rest, by simp [hcs], .inl (hplain.chars c (hcs ▸ List.mem_cons_self ..))⟩

theorem Lexes.separator (slash : Bool) (hstarts : Starts cs) (h : Lexes cs ls closing rest) :
    Lexes (Reach.separator slash :: cs) (.separator (Reach.separator slash) :: ls) closing rest := by
  cases slash with
  | true => exact Lexes.of_lexeme? (c := '/') (by decide) (by decide) (by decide) rfl h
  | false =>
      obtain ⟨hname, hpoint⟩ := hstarts.not_ends
      refine Lexes.of_lexeme? (c := '.') (by decide) (by decide) (by decide) ?_ h
      unfold lexeme?
      split <;> simp_all [Reach.separator]

theorem Lexes.reach (r : Reach) (hstarts : Starts cs) (h : Lexes cs ls closing rest) :
    Lexes (r.chars ++ cs) (r.lexemes ++ ls) closing rest := by
  cases r with
  | direct => exact h
  | dot =>
      have hslash := Lexes.separator true hstarts h
      exact Lexes.of_lexeme? (c := '.') (by decide) (by decide) (by decide) rfl hslash
  | this slash =>
      have hseparator := Lexes.separator slash hstarts h
      have hnot : ∀ c ∈ (Reach.separator slash :: cs).head?, isNameChar c = false := by
        intro c hc
        cases hc
        cases slash <;> rfl
      have hends : endsName (Reach.separator slash :: cs) = true := by cases slash <;> rfl
      have hthis : ∀ c ∈ "this".toList, isNameChar c = true := forall_mem_of_all (by decide)
      have hword := lexeme?_of_word hthis (by decide) hnot hends (constant?_of_word hthis hnot (by decide))
        (number?_of_name hthis hnot (by decide) (by decide))
      exact Lexes.of_lexeme? (c := 't') (by decide) (by decide) (by decide) hword hseparator

theorem Lexes.term (t : Term) (hends : Ends rest) (h : Lexes rest ls closing more) :
    Lexes (t.chars ++ rest) (t.lexemes ++ ls) closing more := by
  cases t with
  | spelled s =>
      have hinside := Lexes.inside s hends h
      have hreach := Lexes.reach s.reach (s.starts_inside rest) hinside
      simpa [Term.chars, Term.lexemes, Spelling.chars, Spelling.lexemes] using hreach
  | quoted q =>
      have hslash : q.quote ≠ '\\' := by
        rcases q.isQuote with h | h <;> rw [h] <;> decide
      have hquoted := @quotedText_of_not_mem rest q.text q.quote q.free.1 q.free.2 hslash
      have hl : lexeme? (q.quote :: (q.text ++ q.quote :: rest)) = some (.literal (.text (String.ofList q.text)), rest) := by
        rcases q.isQuote with hq | hq <;> rw [hq] at hquoted ⊢ <;> simp [lexeme?, hquoted]
      have hpiece : Lexes (q.quote :: (q.text ++ q.quote :: rest)) (.literal (.text (String.ofList q.text)) :: ls) closing more := by
        refine Lexes.of_lexeme? ?_ ?_ ?_ hl h <;> rcases q.isQuote with hq | hq <;> rw [hq] <;> decide
      simpa [Term.chars, Term.lexemes] using hpiece

/-! ### Mustaches -/

/-- Neither the name of what the template sees nor a step above it. -/
theorem Spelling.extend?_eq (s : Spelling) (p : Path) (separator : List Char) :
    p.extend? separator (String.ofList s.name) s.isBracketed =
      some { p with
        fields := p.fields ++ [String.ofList s.name]
        spelling := p.spelling ++ String.ofList separator ++ String.ofList s.name } := by
  have hname : (!s.isBracketed && ["..", ".", "this"].contains (String.ofList s.name)) = false := by
    cases hs : s.isBracketed with
    | true => rfl
    | false =>
        have hplain := s.plain hs
        have hpoint : '.' ∉ s.name := fun h => absurd (hplain.chars '.' h) (by decide)
        have hne (word : String) (h : '.' ∈ word.toList) : String.ofList s.name ≠ word := by
          rintro rfl
          exact hpoint (by simpa using h)
        have hthis : String.ofList s.name ≠ "this" := fun h => hplain.word (by simp [h])
        simp [hne ".." (by decide), hne "." (by decide), hthis]
  simp only [Path.extend?, hname, Bool.false_eq_true, if_false]

theorem readOperand_term (t : Term) : readOperand t.lexemes = some (t.operand, []) := by
  cases t with
  | quoted q => rfl
  | spelled s =>
      have hextend := s.extend?_eq
      have hthis : ({ fields := [], spelling := "" } : Path).extend? [] "this" false =
          some { fields := [], isScoped := true, spelling := "this" } := by decide
      have hdot : ({ fields := [], spelling := "" } : Path).extend? [] "." false =
          some { fields := [], isScoped := true, spelling := "." } := by decide
      have hslash : "." ++ ("/" ++ String.ofList s.name) = "./" ++ String.ofList s.name := String.append_assoc.symm
      simp only [Term.lexemes, Term.operand, Spelling.lexemes, Spelling.path]
      cases s.reach <;>
        simp [Reach.lexemes, Reach.spelling, readOperand, readPath, hthis, hdot, hextend, String.append_assoc, hslash]

/-- A term is not taken for the rest of a path in front of it. -/
theorem readPath_term (p : Path) (t : Term) : readPath p t.lexemes = some (p, t.lexemes) := by
  cases t with
  | quoted q => rfl
  | spelled s =>
      simp only [Term.lexemes, Spelling.lexemes]
      cases s.reach <;> rfl

theorem readArguments_term (t : Term) : readArguments t.lexemes.length t.lexemes = some ([t.operand], false) := by
  have hoperand := readOperand_term t
  cases t with
  | quoted q => rfl
  | spelled s =>
      simp only [Term.lexemes, Spelling.lexemes] at hoperand ⊢
      generalize s.reach = r at hoperand ⊢
      cases r <;> simp only [Reach.lexemes, List.cons_append, List.nil_append] at hoperand ⊢ <;> simp [readArguments, hoperand]

theorem length_lexemes_le (t : Term) : t.lexemes.length ≤ t.chars.length := by
  cases t with
  | quoted q => simp [Term.lexemes, Term.chars]
  | spelled s =>
      have hinside : 0 < s.inside.length := by
        obtain ⟨c, tail, hcs, -⟩ := s.starts_inside []
        rw [List.append_nil] at hcs
        simp [hcs]
      have hreach : s.reach.lexemes.length ≤ s.reach.chars.length := by
        cases s.reach <;> simp [Reach.lexemes, Reach.chars]
      simp only [Term.lexemes, Term.chars, Spelling.lexemes, Spelling.chars, List.length_append, List.length_singleton]
      omega

variable {isTriple isRaw : Bool}

theorem readMustache_of_lexes {head : Operand} {arguments : List Operand} {tail : List Lexeme}
    (h : Lexes cs ls ⟨isTriple, false⟩ rest) (hlength : ls.length ≤ cs.length) (hhead : readOperand ls = some (head, tail))
    (harguments : readArguments tail.length tail = some (arguments, false)) :
    readMustache isTriple isRaw false cs = some ({ head, arguments, isRaw }, rest) := by
  have hlexemes := lexemes?_of_lexes h (Nat.lt_succ_of_le hlength)
  simp [readMustache, hlexemes, hhead, harguments]

/-- A term with blanks around it. -/
structure Expression where
  before : List Char
  term : Term
  after : List Char
  blank : ∀ c ∈ before ++ after, Text.isBlank c = true

def Expression.chars (e : Expression) : List Char := e.before ++ e.term.chars ++ e.after

/-- The braces that close a mustache. -/
def braces (isTriple : Bool) : List Char := if isTriple then ['\x7d', '\x7d', '\x7d'] else ['\x7d', '\x7d']

theorem closing?_braces (isTriple : Bool) (hrest : rest.head? ≠ some '\x7d') :
    closing? (braces isTriple ++ rest) = some (⟨isTriple, false⟩, rest) := by
  cases rest with
  | nil => cases isTriple <;> rfl
  | cons c rest =>
      have hc : c ≠ '\x7d' := fun h => hrest (congrArg some h)
      cases isTriple <;> simp [braces, closing?, hc]

theorem trimLeft_braces (isTriple : Bool) (rest : List Char) :
    Text.trimLeft (braces isTriple ++ rest) = braces isTriple ++ rest := by
  cases isTriple <;> rfl

theorem Lexes.expression (e : Expression) (isTriple : Bool) (hrest : rest.head? ≠ some '\x7d') :
    Lexes (e.chars ++ (braces isTriple ++ rest)) e.term.lexemes ⟨isTriple, false⟩ rest := by
  have hbefore : ∀ c ∈ e.before, Text.isBlank c = true := fun c hc => e.blank c (List.mem_append_left _ hc)
  have hafter : ∀ c ∈ e.after, Text.isBlank c = true := fun c hc => e.blank c (List.mem_append_right _ hc)
  have hclosed : Lexes (e.after ++ (braces isTriple ++ rest)) [] ⟨isTriple, false⟩ rest := by
    refine Lexes.pad hafter (.closed ?_)
    rw [trimLeft_braces]
    exact closing?_braces isTriple hrest
  have hends : Ends (e.after ++ (braces isTriple ++ rest)) := by
    cases hcs : e.after with
    | nil => cases isTriple <;> exact ⟨'\x7d', _, rfl, .inr rfl⟩
    | cons c cs => exact ⟨c, _, rfl, .inl (hafter c (hcs ▸ List.mem_cons_self ..))⟩
  have hterm := Lexes.pad hbefore (Lexes.term e.term hends hclosed)
  simpa [Expression.chars] using hterm

/-- A mustache that holds a term alone. -/
theorem readMustache_expression (e : Expression) (hrest : rest.head? ≠ some '\x7d') :
    readMustache isTriple isRaw false (e.chars ++ (braces isTriple ++ rest)) =
      some ({ head := e.term.operand, isRaw }, rest) := by
  have hlength := length_lexemes_le e.term
  refine readMustache_of_lexes (Lexes.expression e isTriple hrest) ?_ (readOperand_term e.term) rfl
  simp only [Expression.chars, List.length_append]
  omega

/-- The path that a word alone makes. -/
def wordPath (word : String) : Path := { fields := [word], spelling := word }

/-- A mustache that calls a helper with a term. -/
theorem readMustache_call {word : List Char} (hword : IsPlain word) (e : Expression) (hrest : rest.head? ≠ some '\x7d') :
    readMustache isTriple isRaw false (word ++ (' ' :: e.chars ++ (braces isTriple ++ rest))) =
      some ({ head := .path (wordPath (String.ofList word)), arguments := [e.term.operand], isRaw }, rest) := by
  let s : Spelling := ⟨.direct, false, word, nofun, fun _ => hword⟩
  have hblank : ∀ c ∈ [' '], Text.isBlank c = true := forall_mem_of_all (by decide)
  have hpadded : Lexes ([' '] ++ (e.chars ++ (braces isTriple ++ rest))) e.term.lexemes ⟨isTriple, false⟩ rest :=
    Lexes.pad hblank (Lexes.expression e isTriple hrest)
  have hends : Ends ([' '] ++ (e.chars ++ (braces isTriple ++ rest))) := ⟨' ', _, rfl, .inl (by decide)⟩
  have hlexes := Lexes.inside s hends hpadded
  have hhead : readOperand (.name (String.ofList word) false :: e.term.lexemes) =
      some (.path (wordPath (String.ofList word)), e.term.lexemes) := by
    have hextend := s.extend?_eq { fields := [], spelling := "" } []
    simp [s] at hextend
    simp [readOperand, hextend, readPath_term, wordPath]
  have harguments : readArguments e.term.lexemes.length e.term.lexemes = some ([e.term.operand], false) :=
    readArguments_term e.term
  refine readMustache_of_lexes hlexes ?_ hhead harguments
  have hlength := length_lexemes_le e.term
  have hpos : 0 < word.length := List.length_pos_iff.2 hword.ne_nil
  simp [s, Expression.chars]
  omega

/-! ### Templates -/

/-- What a program is put together from: literal text, the value of a variable, and a document that is included. -/
inductive Element
  | literal (text : String)
  | value (e : Expression)
  | inclusion (e : Expression)

namespace Element

/-- The text of a literal, as a mustache holds it. -/
def encoding (text : String) : Quotation where
  quote := '"'
  text := Text.encodeDigits (Text.encodeUtf8 text)
  isQuote := .inl rfl
  free := by
    have hdigit : ∀ n < 64, Text.digit64 n ≠ '"' ∧ Text.digit64 n ≠ '\\' := by decide
    constructor
    · intro h
      rcases Text.mem_encodeDigits h with h | ⟨n, hn, h⟩
      · exact absurd h (by decide)
      · exact (hdigit n hn).1 h.symm
    · intro h
      rcases Text.mem_encodeDigits h with h | ⟨n, hn, h⟩
      · exact absurd h (by decide)
      · exact (hdigit n hn).2 h.symm

/-- The source that the language gives to it. -/
def source : Element → String
  | literal text => forms.literal text
  | value e => forms.expression (String.ofList e.chars)
  | inclusion e => forms.inclusion (String.ofList e.chars)

def insertion : Element → Insertion
  | literal text =>
    { head := .path (wordPath literalHelper), arguments := [.literal (.text (String.ofList (encoding text).text))]
      isRaw := true }
  | value e => { head := e.term.operand, isRaw := true }
  | inclusion e => { head := .path (wordPath includeHelper), arguments := [e.term.operand], isRaw := false }

end Element

theorem Term.chars_ne_brace (t : Term) (cs : List Char) : (t.chars ++ cs).head? ≠ some '\x7b' := by
  cases t with
  | quoted q =>
      rcases q.isQuote with h | h <;> simp [Term.chars, h]
  | spelled s =>
      obtain ⟨c, tail, hcs, hc⟩ := s.starts_inside cs
      simp only [Term.chars, Spelling.chars, List.append_assoc]
      cases s.reach with
      | direct =>
          simp only [Reach.chars, List.nil_append, hcs]
          intro h
          cases h
          rcases hc with hc | hc <;> exact absurd hc (by decide)
      | this slash => simp [Reach.chars]
      | dot => simp [Reach.chars]

theorem Expression.chars_ne_brace (e : Expression) (cs : List Char) : (e.chars ++ cs).head? ≠ some '\x7b' := by
  simp only [Expression.chars, List.append_assoc]
  cases hbefore : e.before with
  | nil => exact e.term.chars_ne_brace _
  | cons c before =>
      intro h
      cases h
      have hblank := e.blank '\x7b' (List.mem_append_left _ (hbefore ▸ List.mem_cons_self ..))
      exact absurd hblank (by decide)

theorem readParts_of_readOpened {m : Insertion} (h : readOpened false cs = some (m, rest)) (htilde : cs.head? ≠ some '~')
    (hbraces : ¬ ['\x7b', '\x7b'] <+: cs) (fuel : Nat) :
    readParts (fuel + 1) ('\x7b' :: '\x7b' :: cs) = (readParts fuel rest).map (.insertion m :: ·) := by
  rw [readParts.eq_5, h]
  · rfl
  · rintro tail rfl
    exact htilde rfl
  · rintro tail rfl
    exact hbraces ⟨tail, rfl⟩

theorem not_braces_prefix (h : cs.head? ≠ some '\x7b') : ¬ ['\x7b', '\x7b'] <+: '\x7b' :: cs := by
  rintro ⟨tail, htail⟩
  cases htail
  exact h rfl

theorem isPlain_literalHelper : IsPlain literalHelper.toList := ⟨by decide, forall_mem_of_all (by decide), by decide, by decide⟩

theorem isPlain_includeHelper : IsPlain includeHelper.toList := ⟨by decide, forall_mem_of_all (by decide), by decide, by decide⟩

/-- The text of a literal as a term. -/
def Element.encoded (text : String) : Expression := ⟨[], .quoted (encoding text), [], nofun⟩

theorem Element.readOpened_eq (x : Element) (hrest : rest.head? ≠ some '\x7d') :
    ∃ cs, x.source.toList ++ rest = '\x7b' :: '\x7b' :: cs ∧ readOpened false cs = some (x.insertion, rest) ∧
      cs.head? ≠ some '~' ∧ ¬ ['\x7b', '\x7b'] <+: cs := by
  cases x with
  | literal text =>
      have hread := @readMustache_call rest true true _ isPlain_literalHelper (encoded text) hrest
      rw [String.ofList_toList] at hread
      refine ⟨'\x7b' :: (literalHelper.toList ++ (' ' :: (encoded text).chars ++ (braces true ++ rest))), ?_, hread, by simp,
        not_braces_prefix (by simp [literalHelper])⟩
      simp [source, forms, braces, encoded, encoding, Expression.chars, Term.chars, Text.encode64]
  | value e =>
      refine ⟨'\x7b' :: (e.chars ++ (braces true ++ rest)), ?_, readMustache_expression e hrest, by simp,
        not_braces_prefix (e.chars_ne_brace _)⟩
      simp [source, forms, braces]
  | inclusion e =>
      have hread := @readMustache_call rest false false _ isPlain_includeHelper e hrest
      rw [String.ofList_toList] at hread
      refine ⟨includeHelper.toList ++ (' ' :: e.chars ++ (braces false ++ rest)), ?_, hread, by simp [includeHelper], ?_⟩
      · simp [source, forms, braces, includeHelper]
      · rintro ⟨tail, htail⟩
        cases htail

theorem Element.source_eq (x : Element) : ∃ cs, x.source.toList = '\x7b' :: '\x7b' :: cs := by
  have hnil : ([] : List Char).head? ≠ some '\x7d' := nofun
  obtain ⟨cs, hcs, -⟩ := x.readOpened_eq hnil
  exact ⟨cs, by simpa using hcs⟩

theorem readParts_elements (xs : List Element) {fuel : Nat} (hfuel : xs.length ≤ fuel) :
    readParts fuel (xs.flatMap fun x => x.source.toList) = some (xs.map fun x => .insertion x.insertion) := by
  induction xs generalizing fuel with
  | nil => simp [readParts]
  | cons x xs ih =>
      have hrest : (xs.flatMap fun x => x.source.toList).head? ≠ some '\x7d' := by
        cases xs with
        | nil => simp
        | cons y ys =>
            obtain ⟨cs, hcs⟩ := y.source_eq
            simp [hcs]
      obtain ⟨cs, hcs, hread, htilde, hbraces⟩ := x.readOpened_eq hrest
      cases fuel with
      | zero => cases hfuel
      | succ fuel =>
          rw [List.flatMap_cons, hcs, readParts_of_readOpened hread htilde hbraces, ih (Nat.le_of_succ_le_succ hfuel)]
          rfl

theorem trimTexts_insertions (ms : List Insertion) (afterTrim : Bool) :
    trimTexts afterTrim (ms.map .insertion) = ms.map .insertion := by
  induction ms generalizing afterTrim with
  | nil => rfl
  | cons m ms ih => simp [trimTexts, ih]

/-- A program that is put together is read as what it was put together from. -/
theorem template?_elements (xs : List Element) :
    template? (String.join (xs.map Element.source)) = some (xs.map fun x => .insertion x.insertion) := by
  have hlength : xs.length ≤ (xs.flatMap fun x => x.source.toList).length := by
    induction xs with
    | nil => exact Nat.le_refl _
    | cons x xs ih =>
        obtain ⟨cs, hcs⟩ := x.source_eq
        simp only [List.flatMap_cons, List.length_append, hcs, List.length_cons]
        omega
  have hchars : (String.join (xs.map Element.source)).toList = xs.flatMap fun x => x.source.toList := by
    simp [List.flatMap_map]
  have hread := readParts_elements xs (Nat.le_succ_of_le hlength)
  have htrim := trimTexts_insertions (xs.map Element.insertion) false
  rw [List.map_map] at htrim
  simp only [template?, hchars, hread]
  exact congrArg some htrim

end ScriptedText.Mustache
