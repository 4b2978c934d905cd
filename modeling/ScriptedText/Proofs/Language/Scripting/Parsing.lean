import ScriptedText.Proofs.Language.Scripting.Printing

/-!
Texts that print sums are parsed as the programs that print these sums, and no program is made where a call starts on the line
of one before it.
-/

namespace ScriptedText.Scripting

variable {p q : Place} {cs : List Char} {es : List Expr} {e : Expr} {last b b' : Bool} {ts us : List (Token × Bool)}

/-! ### Sums as they are parsed -/

/-- The tokens of a sum. -/
inductive SumTokens : Bool → List (Token × Bool) → Expr → Prop
  | literal {text : String} (b : Bool) : SumTokens true [(.text text, b)] (.literal (.text text))
  | parentheses {ts : List (Token × Bool)} {e : Expr} (b b' : Bool) (h : SumTokens false ts e) :
      SumTokens true ((.mark '(', b) :: ts ++ [(.mark ')', b')]) e
  | operand {ts : List (Token × Bool)} {e : Expr} (h : SumTokens true ts e) : SumTokens false ts e
  | plus {ts us : List (Token × Bool)} {a e : Expr} (ha : SumTokens false ts a) (b : Bool) (h : SumTokens true us e) :
      SumTokens false (ts ++ (.mark '+', b) :: us) (.add a e)

theorem IsSum.lexes {operand : Bool} (h : IsSum operand cs e) (b : Bool) :
    ∃ ts, Lexes false b cs ts false ∧ SumTokens operand ts e := by
  induction h generalizing b with
  | literal h => exact ⟨_, .string h b, .literal b⟩
  | @parentheses before cs after e hbefore _ hafter ih =>
      obtain ⟨b₁, hb₁⟩ := Lexes.gap hbefore false
      obtain ⟨ts, hts, hsum⟩ := ih b₁
      obtain ⟨b₂, hb₂⟩ := Lexes.gap hafter false
      refine ⟨_, ?_, .parentheses b b₂ hsum⟩
      have hlexes := (Lexes.mark (by decide) b : Lexes false b ['('] _ _).append
        (hb₁.append (hts.append (hb₂.append (Lexes.mark (by decide) b₂ : Lexes false b₂ [')'] _ _))))
      simpa using hlexes
  | operand _ ih =>
      obtain ⟨ts, hts, hsum⟩ := ih b
      exact ⟨ts, hts, .operand hsum⟩
  | @plus cs before after ds a e' ha hbefore hafter hb iha ihb =>
      obtain ⟨ts, hts, hsum⟩ := iha b
      obtain ⟨b₁, hb₁⟩ := Lexes.gap hbefore false
      obtain ⟨b₂, hb₂⟩ := Lexes.gap hafter false
      obtain ⟨us, hus, hsum'⟩ := ihb b₂
      have hbehind := hb₂.append hus
      obtain ⟨c, tail, hcs, hc⟩ : ∃ c tail, after ++ ds = c :: tail ∧ c ≠ '+' := by
        obtain ⟨d, tail, hds, hd⟩ := hb.head
        rcases hafter.head with rfl | ⟨c, tail', rfl, hc, -⟩
        · exact ⟨d, tail, hds, hd⟩
        · exact ⟨c, _, rfl, hc⟩
      rw [hcs] at hbehind
      refine ⟨_, ?_, .plus hsum b₁ hsum'⟩
      have hlexes := hts.append (hb₁.append (Lexes.plus hc hbehind b₁))
      rw [← hcs] at hlexes
      simpa using hlexes

/-- Neither a member nor a call follows. -/
def Stops (ls : Tokens) : Prop := ∀ l ∈ ls.head?, l.token ≠ .mark '(' ∧ l.token ≠ .mark '.'

variable {ls ms rest : Tokens} {fuel : Nat}

theorem readCalls_of_stops (h : Stops rest) (hfuel : 0 < fuel) (e : Expr) : readCalls fuel true e rest = some (e, rest) := by
  obtain ⟨fuel, rfl⟩ : ∃ n, fuel = n + 1 := ⟨fuel - 1, by omega⟩
  rw [readCalls.eq_4]
  · rintro _ _ _ tail _ _ _ _ rfl
    exact absurd rfl (h _ rfl).2
  · rintro _ _ _ tail rfl
    exact absurd rfl (h _ rfl).1

theorem readOperand_of_atom {l : Lexeme} (hminus : l.token ≠ .mark '-') (hplus : l.token ≠ .mark '+')
    (hwait : l.token ≠ .word "await") (fuel : Nat) (rest : Tokens) :
    readOperand (fuel + 1) true (l :: rest) =
      (readAtom fuel true (l :: rest)).bind fun (e, rest) => readCalls fuel true e rest := by
  have hword : word? "await" (l :: rest) = none := by
    unfold word?
    split
    · next x _ _ _ _ heq =>
        cases heq
        exact if_neg fun h => hwait (congrArg _ h)
    · rfl
  rw [readOperand.eq_4, if_pos rfl, hword]
  · rfl
  · rintro _ _ _ _ ⟨⟩
    exact hminus rfl
  · rintro _ _ _ _ ⟨⟩
    exact hplus rfl

theorem mark?_of_ne {c : Char} {l : Lexeme} (h : l.token ≠ .mark c) (rest : Tokens) : mark? c (l :: rest) = none := by
  unfold mark?
  split
  · next heq =>
      cases heq
      exact if_neg fun hc => h (congrArg _ hc)
  · rfl

/-- What is parsed from the lexemes of a sum, with enough fuel: of an operand the operand, and of a sum what it goes on with. -/
def Parses : Bool → Tokens → Expr → Prop
  | true, ls, e => ∀ rest fuel, Stops rest → 2 * ls.length ≤ fuel → readOperand fuel true (ls ++ rest) = some (e, rest)
  | false, ls, e => ∀ rest fuel, Stops rest → 2 * ls.length < fuel →
      ∃ fuel', fuel ≤ fuel' + ls.length ∧ readExpr fuel true (ls ++ rest) = readSum fuel' true e rest

theorem readSum_of_ne {l : Lexeme} (h : l.token ≠ .mark '+') (hfuel : 0 < fuel) (e : Expr) (rest : Tokens) :
    readSum fuel true e (l :: rest) = some (e, l :: rest) := by
  obtain ⟨fuel, rfl⟩ : ∃ n, fuel = n + 1 := ⟨fuel - 1, by omega⟩
  simp [readSum, mark?_of_ne h]

theorem SumTokens.ne_nil {operand : Bool} (h : SumTokens operand ts e) : ts ≠ [] := by
  induction h with
  | literal | parentheses => exact List.cons_ne_nil _ _
  | operand _ ih => exact ih
  | plus _ _ _ iha => simp

theorem stops_mark {c : Char} (hc : c ≠ '(' ∧ c ≠ '.') {l : Lexeme} (hl : l.token = .mark c) (rest : Tokens) :
    Stops (l :: rest) := by
  intro l' hl'
  cases hl'
  rw [hl]
  simpa using hc

theorem SumTokens.parses {operand : Bool} (h : SumTokens operand ts e) (hls : ls.map Lexeme.key = ts) :
    Parses operand ls e := by
  induction h generalizing ls with
  | literal b =>
      obtain ⟨⟨t, broken, start, after⟩, rfl, hl⟩ := List.map_eq_singleton_iff.1 hls
      cases hl
      intro rest fuel hstops hfuel
      obtain ⟨fuel, rfl⟩ : ∃ n, fuel = n + 2 := ⟨fuel - 2, by simp at hfuel; omega⟩
      rw [List.singleton_append, readOperand_of_atom (by simp) (by simp) (by simp), readAtom.eq_3, Option.bind_some]
      exact readCalls_of_stops hstops (Nat.succ_pos fuel) _
  | @parentheses ts e b b' h ih =>
      obtain ⟨front, back, rfl, hfront, hback⟩ := List.map_eq_append_iff.1 hls
      obtain ⟨⟨t, broken, start, after⟩, ms, rfl, hl, hms⟩ := List.map_eq_cons_iff.1 hfront
      obtain ⟨l', rfl, hl'⟩ := List.map_eq_singleton_iff.1 hback
      cases hl
      have htoken : l'.token = .mark ')' := congrArg Prod.fst hl'
      intro rest fuel hstops hfuel
      obtain ⟨fuel, rfl⟩ : ∃ n, fuel = n + 2 := ⟨fuel - 2, by simp at hfuel; omega⟩
      have hinside : Parses false ms e := ih hms
      obtain ⟨fuel', hfuel', hread⟩ := hinside (l' :: rest) fuel (stops_mark (by decide) htoken rest)
        (by simp at hfuel; omega)
      have hsum : readSum fuel' true e (l' :: rest) = some (e, l' :: rest) :=
        readSum_of_ne (by simp [htoken]) (by simp at hfuel; omega) e rest
      have hclose : mark? ')' (l' :: rest) = some rest := by
        obtain ⟨t, broken, start, after⟩ := l'
        cases htoken
        rfl
      simp only [List.cons_append, List.append_assoc, List.nil_append]
      rw [readOperand_of_atom (by simp) (by simp) (by simp), readAtom.eq_5, hread, hsum]
      simp only [Option.bind_eq_bind, Option.bind_some, hclose]
      exact readCalls_of_stops hstops (Nat.succ_pos fuel) e
  | @operand ts e h ih =>
      intro rest fuel hstops hfuel
      obtain ⟨fuel, rfl⟩ : ∃ n, fuel = n + 1 := ⟨fuel - 1, by omega⟩
      have hoperand : readOperand fuel true (ls ++ rest) = some (e, rest) := ih hls rest fuel hstops (Nat.lt_succ_iff.1 hfuel)
      have hpos : 0 < ls.length := by
        rw [← List.length_map Lexeme.key, hls]
        exact List.length_pos_iff.2 h.ne_nil
      refine ⟨fuel, by omega, ?_⟩
      simp [readExpr, hoperand]
  | @plus ts us a e ha b _ iha ihb =>
      obtain ⟨front, back, rfl, hfront, hback⟩ := List.map_eq_append_iff.1 hls
      obtain ⟨l, ms, rfl, hl, hms⟩ := List.map_eq_cons_iff.1 hback
      have htoken : l.token = .mark '+' := congrArg Prod.fst hl
      have hleft : Parses false front a := iha hfront
      have hright : Parses true ms e := ihb hms
      intro rest fuel hstops hfuel
      simp only [List.length_append, List.length_cons] at hfuel ⊢
      obtain ⟨fuel', hfuel', hread⟩ := hleft (l :: (ms ++ rest)) fuel (stops_mark (by decide) htoken _) (by omega)
      obtain ⟨fuel', rfl⟩ : ∃ n, fuel' = n + 1 := ⟨fuel' - 1, by omega⟩
      have hplus : mark? '+' (l :: (ms ++ rest)) = some (ms ++ rest) := by
        obtain ⟨t, broken, start, after⟩ := l
        cases htoken
        rfl
      have hoperand : readOperand fuel' true (ms ++ rest) = some (e, rest) := hright rest fuel' hstops (by omega)
      refine ⟨fuel', by omega, ?_⟩
      rw [List.append_assoc, List.cons_append, hread]
      simp [readSum, hplus, hoperand]

/-! ### Statements as they are parsed -/

/-- The tokens of calls that print, with semicolons. The flags say whether a call is not closed by a semicolon; behind such a
call another one starts on a line of its own. -/
inductive CallTokens : Bool → List (Token × Bool) → List Expr → Bool → Prop
  | nil (o : Bool) : CallTokens o [] [] o
  | semicolon {o o' : Bool} {ts : List (Token × Bool)} {es : List Expr} (b : Bool) (h : CallTokens false ts es o') :
      CallTokens o ((.mark ';', b) :: ts) es o'
  | call {o o' b b₁ b₂ : Bool} {us ts : List (Token × Bool)} {e : Expr} {es : List Expr} (hbreak : o = true → b = true)
      (hsum : SumTokens false us e) (h : CallTokens true ts es o') :
      CallTokens o ((.word "print", b) :: (.mark '(', b₁) :: us ++ (.mark ')', b₂) :: ts) (e :: es) o'

/-- What stands between a name and its parenthesis does not go on with the name. -/
theorem Gap.opens {gap : List Char} (h : Gap gap) (cs : List Char) : ∃ c tail, gap ++ '(' :: cs = c :: tail ∧ inWord c = false := by
  rcases h.head with rfl | ⟨c, tail, rfl, -, hc⟩
  · exact ⟨'(', _, rfl, by decide⟩
  · exact ⟨c, _, rfl, hc⟩

theorem Call.lexes (h : Call cs e) (b : Bool) :
    ∃ b₁ b₂ us, SumTokens false us e ∧
      Lexes false b cs ((.word "print", b) :: (.mark '(', b₁) :: us ++ [(.mark ')', b₂)]) false := by
  obtain @⟨gap, before, cs, after, e, hgap, hbefore, hsum, hafter⟩ := h
  obtain ⟨b₁, hb₁⟩ := Lexes.gap hgap false
  obtain ⟨b₀, hb₀⟩ := Lexes.gap hbefore false
  obtain ⟨us, hus, hsum⟩ := hsum.lexes b₀
  obtain ⟨b₂, hb₂⟩ := Lexes.gap hafter false
  have hinside := hb₁.append ((Lexes.mark (by decide) b₁ : Lexes false b₁ ['('] _ _).append
    (hb₀.append (hus.append (hb₂.append (Lexes.mark (by decide) b₂ : Lexes false b₂ [')'] _ _)))))
  obtain ⟨c, tail, hcs, hc⟩ : ∃ c tail, gap ++ (['('] ++ (before ++ (cs ++ (after ++ [')'])))) = c :: tail ∧ inWord c = false :=
    hgap.opens _
  rw [hcs] at hinside
  have hlexes := Lexes.print hc hinside b
  rw [← hcs] at hlexes
  refine ⟨b₁, b₂, us, hsum, ?_⟩
  simpa using hlexes

/-- What stands in front of a text in a comment. -/
def opening : Place → List Char
  | .comment => ['/', '/']
  | _ => []

theorem opening_of_ne (hp : p ≠ .comment) : opening p = [] := by
  cases p with
  | comment => exact absurd rfl hp
  | ready | behind => rfl

/-- How a place shows in the tokens: whether a call is open, and whether a line has ended since the last token. -/
def Fits : Place → Bool → Bool → Prop
  | .ready, o, b => o = true → b = true
  | .behind, o, b => o = true ∧ b = false
  | .comment, _, _ => True

/-- By induction on the text. Inside a comment the lexemes are those of the text with the comment opened in front of it. -/
theorem Prints.lexes (h : Prints p cs es q) {o : Bool} (hfits : Fits p o b) :
    ∃ ts o' b', Lexes (q = .comment) b (opening p ++ cs) ts b' ∧ CallTokens o ts es o' ∧ Fits q o' b' := by
  induction h generalizing b o with
  | nil p =>
      refine ⟨[], o, b, ?_, .nil o, hfits⟩
      cases p with
      | comment => exact Lexes.openComment b
      | ready | behind => exact Lexes.nil _ b
  | inside hc _ ih =>
      obtain ⟨ts, o', b', hlexes, hcalls, hfits'⟩ := ih hfits
      exact ⟨ts, o', b', .inside hc hlexes, hcalls, hfits'⟩
  | @line p q c cs es hc _ ih =>
      obtain ⟨ts, o', b', hlexes, hcalls, hfits'⟩ := ih (b := true) (o := o) fun _ => rfl
      refine ⟨ts, o', b', ?_, hcalls, hfits'⟩
      have hblank := Lexes.blank (b := b) (Text.isBlank_of_endsLine hc)
      rw [hc, Bool.or_true] at hblank
      cases p with
      | comment => exact .afterComment hc hlexes
      | ready | behind => exact hblank.append hlexes
  | @blank p q c cs es hp hc hline _ ih =>
      obtain ⟨ts, o', b', hlexes, hcalls, hfits'⟩ := ih hfits
      refine ⟨ts, o', b', ?_, hcalls, hfits'⟩
      have hblank := Lexes.blank (b := b) hc
      rw [hline, Bool.or_false] at hblank
      rw [opening_of_ne hp] at hlexes ⊢
      exact hblank.append hlexes
  | @semicolon p q cs es hp _ ih =>
      obtain ⟨ts, o', b', hlexes, hcalls, hfits'⟩ := ih (b := false) (o := false) id
      refine ⟨_, o', b', ?_, .semicolon b hcalls, hfits'⟩
      rw [opening_of_ne hp]
      exact (Lexes.mark (by decide) b : Lexes false b [';'] _ _).append hlexes
  | @slashes p q cs es hp _ ih =>
      obtain ⟨ts, o', b', hlexes, hcalls, hfits'⟩ := ih (b := b) (o := o) trivial
      refine ⟨ts, o', b', ?_, hcalls, hfits'⟩
      rw [opening_of_ne hp]
      exact hlexes
  | @call q call cs e es hcall _ ih =>
      obtain ⟨ts, o', b', hlexes, hcalls, hfits'⟩ := ih (b := false) (o := true) ⟨rfl, rfl⟩
      obtain ⟨b₁, b₂, us, hsum, hcall⟩ := hcall.lexes b
      have hstatement : CallTokens o ((.word "print", b) :: (.mark '(', b₁) :: us ++ (.mark ')', b₂) :: ts) (e :: es) o' :=
        .call hfits hsum hcalls
      refine ⟨_, o', b', ?_, hstatement, hfits'⟩
      have hboth := hcall.append hlexes
      simpa [opening] using hboth

/-- The statement that prints a sum. -/
def printing (e : Expr) : Statement := .expression (.call (.name "print") [e])

theorem SumTokens.head {operand : Bool} (h : SumTokens operand ts e) :
    ∃ t b ts', ts = (t, b) :: ts' ∧ t ≠ .mark ')' := by
  induction h with
  | literal | parentheses => exact ⟨_, _, _, rfl, by simp⟩
  | operand _ ih => exact ih
  | plus _ _ _ ih =>
      obtain ⟨t, b, ts', rfl, ht⟩ := ih
      exact ⟨t, b, _, rfl, ht⟩

/-- The argument of a call, up to the closing parenthesis. -/
theorem readArguments_sum (hsum : SumTokens false us e) (hms : ms.map Lexeme.key = us) {l : Lexeme}
    (hl : l.token = .mark ')') (hfuel : 2 * ms.length < fuel) :
    readArguments (fuel + 1) true (ms ++ l :: rest) = some ([e], rest) := by
  have hparses : Parses false ms e := hsum.parses hms
  obtain ⟨fuel', hfuel', hread⟩ := hparses (l :: rest) fuel (stops_mark (by decide) hl rest) hfuel
  have hread' : readExpr fuel true (ms ++ l :: rest) = some (e, l :: rest) :=
    hread.trans (readSum_of_ne (by simp [hl]) (by omega) e rest)
  have hopen : mark? ')' (ms ++ l :: rest) = none := by
    obtain ⟨t, b, ts', hts, ht⟩ := hsum.head
    obtain ⟨l', ms', rfl, hl', -⟩ := List.map_eq_cons_iff.1 (hms.trans hts)
    cases hl'
    exact mark?_of_ne ht _
  obtain ⟨t, broken, start, after⟩ := l
  cases hl
  simp [readArguments, hopen, hread']

/-- A call that prints, in front of what neither goes on with it nor adds to it. -/
theorem readExpr_call {b₁ b₂ b : Bool} (hsum : SumTokens false us e)
    (hls : ls.map Lexeme.key = (.word "print", b) :: (.mark '(', b₁) :: us ++ [(.mark ')', b₂)]) (hstops : Stops rest)
    (hplus : mark? '+' rest = none) (hfuel : 2 * ls.length < fuel) :
    readExpr fuel true (ls ++ rest) = some (.call (.name "print") [e], rest) := by
  obtain ⟨front, back, rfl, hfront, hback⟩ := List.map_eq_append_iff.1 hls
  obtain ⟨⟨t, broken, start, after⟩, front, rfl, hprint, hfront⟩ := List.map_eq_cons_iff.1 hfront
  obtain ⟨⟨t', broken', start', after'⟩, ms, rfl, hopen, hms⟩ := List.map_eq_cons_iff.1 hfront
  obtain ⟨l, rfl, hclose⟩ := List.map_eq_singleton_iff.1 hback
  cases hprint
  cases hopen
  have hl : l.token = .mark ')' := congrArg Prod.fst hclose
  obtain ⟨fuel, rfl⟩ : ∃ n, fuel = n + 4 := ⟨fuel - 4, by simp at hfuel; omega⟩
  have harguments : readArguments (fuel + 1) true (ms ++ l :: rest) = some ([e], rest) :=
    readArguments_sum hsum hms hl (by simp at hfuel; omega)
  have hcalls : readCalls (fuel + 1) true (.call (.name "print") [e]) rest = some (.call (.name "print") [e], rest) :=
    readCalls_of_stops hstops (Nat.succ_pos fuel) _
  have hliteral : literalWord? "print" = none := by decide
  have hname : isName true "print" = true := by decide
  simp only [List.cons_append, List.append_assoc, List.nil_append]
  rw [readExpr, readOperand_of_atom (by simp) (by simp) (by simp), readAtom.eq_4, hliteral]
  simp only [hname, Bool.true_or, if_true, Option.bind_some, readCalls.eq_3, harguments, hcalls, Option.bind_eq_bind, readSum, hplus]

theorem readStatement_call {b₁ b₂ b : Bool} (hsum : SumTokens false us e)
    (hls : ls.map Lexeme.key = (.word "print", b) :: (.mark '(', b₁) :: us ++ [(.mark ')', b₂)]) (hstops : Stops rest)
    (hplus : mark? '+' rest = none) (hfuel : 2 * ls.length < fuel) :
    readStatement fuel true (ls ++ rest) = if endsStatement rest then some (printing e, rest) else none := by
  have hread := readExpr_call hsum hls hstops hplus hfuel
  obtain ⟨⟨t, broken, start, after⟩, more, rfl, hprint, hmore⟩ := List.map_eq_cons_iff.1 hls
  obtain ⟨⟨t', broken', start', after'⟩, more, rfl, hopen, -⟩ := List.map_eq_cons_iff.1 hmore
  cases hprint
  cases hopen
  rw [List.cons_append, List.cons_append] at hread ⊢
  rw [readStatement.eq_4, hread]
  · rfl
  all_goals
    intros
    simp_all

/-- A program with statements in front that print sums. -/
def Program.behind (es : List Expr) (p : Program) : Program := ⟨p.routines, es.map printing ++ p.statements⟩

theorem Program.behind_nil (p : Program) : Program.behind [] p = p := rfl

/-- Nothing follows, or a word. -/
def WordFollows (rest : Tokens) : Prop := ∀ l ∈ rest.head?, ∃ x, l.token = .word x

theorem WordFollows.mark?_eq_none (h : WordFollows rest) (c : Char) : mark? c rest = none := by
  cases rest with
  | nil => rfl
  | cons l rest =>
      obtain ⟨x, hx⟩ := h l rfl
      exact mark?_of_ne (by simp [hx]) rest

theorem WordFollows.stops (h : WordFollows rest) : Stops rest := by
  intro l hl
  obtain ⟨x, hx⟩ := h l hl
  simp [hx]

/-- Calls that print start with a word or a semicolon. -/
theorem CallTokens.head {o o' : Bool} (h : CallTokens o ts es o') (hls : ls.map Lexeme.key = ts) (hword : WordFollows rest) :
    Stops (ls ++ rest) ∧ ∀ c, c ≠ ';' → mark? c (ls ++ rest) = none := by
  cases h with
  | nil =>
      cases List.map_eq_nil_iff.1 hls
      exact ⟨hword.stops, fun c _ => hword.mark?_eq_none c⟩
  | semicolon b _ =>
      obtain ⟨l, ms, rfl, hl, -⟩ := List.map_eq_cons_iff.1 hls
      have htoken : l.token = .mark ';' := congrArg Prod.fst hl
      exact ⟨stops_mark (by decide) htoken _, fun c hc => mark?_of_ne (by simp [htoken, hc.symm]) _⟩
  | call _ _ _ =>
      obtain ⟨l, ms, rfl, hl, -⟩ := List.map_eq_cons_iff.1 hls
      have htoken : l.token = .word "print" := congrArg Prod.fst hl
      have hfollows : WordFollows (l :: (ms ++ rest)) := by
        rintro l' ⟨⟩
        exact ⟨_, htoken⟩
      exact ⟨hfollows.stops, fun c _ => hfollows.mark?_eq_none c⟩

/-- Behind a call that is open, its statement ends. -/
theorem CallTokens.closes {o : Bool} (h : CallTokens true ts es o) (hls : ls.map Lexeme.key = ts)
    (hends : ts = [] → endsStatement rest = true) : endsStatement (ls ++ rest) = true := by
  cases h with
  | nil =>
      cases List.map_eq_nil_iff.1 hls
      exact hends rfl
  | semicolon b _ =>
      obtain ⟨⟨t, broken, start, after⟩, ms, rfl, hl, -⟩ := List.map_eq_cons_iff.1 hls
      cases hl
      rfl
  | call hbreak _ _ =>
      obtain ⟨⟨t, broken, start, after⟩, ms, rfl, hl, -⟩ := List.map_eq_cons_iff.1 hls
      cases hl
      exact hbreak rfl

/-- One statement of a program. -/
theorem readProgram_call {b₁ b₂ b : Bool} (hsum : SumTokens false us e)
    (hls : ls.map Lexeme.key = (.word "print", b) :: (.mark '(', b₁) :: us ++ [(.mark ')', b₂)]) (hstops : Stops rest)
    (hmark : ∀ c, c ≠ ';' → mark? c rest = none) (hfuel : 2 * ls.length < fuel + 1) :
    readProgram (fuel + 1) (ls ++ rest) =
      if endsStatement rest then (readProgram fuel rest).map (Program.behind [e]) else none := by
  have hread := readStatement_call hsum hls hstops (hmark '+' (by decide)) hfuel
  obtain ⟨⟨t, broken, start, after⟩, more, rfl, hprint, hmore⟩ := List.map_eq_cons_iff.1 hls
  cases hprint
  rw [List.cons_append] at hread ⊢
  rw [readProgram.eq_6 _ _ (by simp) (by simp) (by simp) (by simp), hread]
  split
  · have hbrace := hmark '\x7d' (by decide)
    simp only [Option.bind_eq_bind, Option.bind_some]
    split
    · exact absurd hbrace (by simp [mark?])
    · rfl
  · rfl

/-- The lexemes of the call in front. -/
theorem exists_front {b b₁ b₂ : Bool}
    (hls : ls.map Lexeme.key = (.word "print", b) :: (.mark '(', b₁) :: us ++ (.mark ')', b₂) :: ts) :
    ∃ front ms, ls = front ++ ms ∧ 0 < front.length ∧ ms.map Lexeme.key = ts ∧
      front.map Lexeme.key = (.word "print", b) :: (.mark '(', b₁) :: us ++ [(.mark ')', b₂)] := by
  have hsplit : ls.map Lexeme.key = ((.word "print", b) :: (.mark '(', b₁) :: us ++ [(.mark ')', b₂)]) ++ ts := by
    simpa using hls
  obtain ⟨front, ms, rfl, hfront, hms⟩ := List.map_eq_append_iff.1 hsplit
  refine ⟨front, ms, rfl, ?_, hms, hfront⟩
  rw [← List.length_map Lexeme.key, hfront]
  exact Nat.succ_pos _

theorem readProgram_calls {o o' : Bool} (h : CallTokens o ts es o') (hls : ls.map Lexeme.key = ts)
    (hword : WordFollows rest) (hends : o' = true → endsStatement rest = true) (hfuel : 4 * (ls ++ rest).length < fuel) :
    ∃ fuel', 4 * rest.length < fuel' ∧ readProgram fuel (ls ++ rest) = (readProgram fuel' rest).map (Program.behind es) := by
  induction h generalizing ls fuel with
  | nil o =>
      cases List.map_eq_nil_iff.1 hls
      exact ⟨fuel, hfuel, by simp [funext Program.behind_nil]⟩
  | semicolon b _ ih =>
      obtain ⟨⟨t, broken, start, after⟩, ms, rfl, hl, hms⟩ := List.map_eq_cons_iff.1 hls
      cases hl
      obtain ⟨fuel, rfl⟩ : ∃ n, fuel = n + 1 := ⟨fuel - 1, by omega⟩
      rw [List.cons_append, readProgram.eq_3]
      exact ih hms hends (by simp at hfuel ⊢; omega)
  | @call o o' b b₁ b₂ us ts e es hbreak hsum h ih =>
      obtain ⟨front, ms, rfl, hpos, hms, hfront⟩ := exists_front hls
      obtain ⟨fuel, rfl⟩ : ∃ n, fuel = n + 1 := ⟨fuel - 1, by omega⟩
      simp only [List.length_append] at hfuel
      obtain ⟨hstops, hmark⟩ := h.head hms hword
      have hopen : endsStatement (ms ++ rest) = true := by
        refine h.closes hms fun hts => hends ?_
        subst hts
        cases h
        rfl
      have hlength : 4 * (ms ++ rest).length < fuel := by
        rw [List.length_append]
        omega
      obtain ⟨fuel', hfuel', hread⟩ := ih hms hends hlength
      refine ⟨fuel', hfuel', ?_⟩
      rw [List.append_assoc, readProgram_call hsum hfront hstops hmark (by omega), if_pos hopen, hread, Option.map_map]
      rfl

/-- Behind an open call no other one starts on the same line. -/
theorem CallTokens.readProgram_eq_none {o : Bool} (h : CallTokens o ts es true) (ho : o = false ∨ ts ≠ [])
    (hls : ls.map Lexeme.key = ts) {l : Lexeme} (hl : l.key = (.word "print", false))
    (hfuel : 4 * (ls ++ l :: rest).length < fuel) : readProgram fuel (ls ++ l :: rest) = none := by
  generalize ho' : true = o' at h
  induction h generalizing ls fuel with
  | nil o =>
      subst ho'
      exact absurd ho (by simp)
  | semicolon b _ ih =>
      obtain ⟨⟨t, broken, start, after⟩, ms, rfl, hl, hms⟩ := List.map_eq_cons_iff.1 hls
      cases hl
      obtain ⟨fuel, rfl⟩ : ∃ n, fuel = n + 1 := ⟨fuel - 1, by omega⟩
      rw [List.cons_append, readProgram.eq_3]
      exact ih (.inl rfl) hms (by simp at hfuel ⊢; omega) ho'
  | @call o o' b b₁ b₂ us ts e es hbreak hsum h ih =>
      obtain ⟨front, ms, rfl, hpos, hms, hfront⟩ := exists_front hls
      obtain ⟨fuel, rfl⟩ : ∃ n, fuel = n + 1 := ⟨fuel - 1, by omega⟩
      simp only [List.length_append] at hfuel
      have hword : WordFollows (l :: rest) := by
        rintro l' ⟨⟩
        exact ⟨_, congrArg Prod.fst hl⟩
      obtain ⟨hstops, hmark⟩ := h.head hms hword
      rw [List.append_assoc, readProgram_call hsum hfront hstops hmark (by omega)]
      by_cases hts : ts = []
      · subst hts
        cases List.map_eq_nil_iff.1 hms
        have hopen : endsStatement (l :: rest) = false := by
          obtain ⟨t, broken, start, after⟩ := l
          cases hl
          rfl
        exact if_neg (by simp [hopen])
      · rw [ih (.inr hts) hms (by simp only [List.length_append]; omega) ho']
        simp

/-! ### Programs as they are parsed -/

theorem tokens?_of_lexes (h : Lexes last false cs ts b') : ∃ ls, ls.map Lexeme.key = ts ∧ tokens? (String.ofList cs) = some ls := by
  obtain ⟨ls, fuel, -, hls, heq⟩ := h [] cs.length (fun _ => rfl) (by simp)
  refine ⟨ls, hls, ?_⟩
  rw [List.append_nil, tokenizeFrom_nil] at heq
  simpa [tokens?] using heq

/-- A text that prints sums by itself is the program that does so. -/
theorem Prints.program? (h : Prints .ready cs es q) : program? (String.ofList cs) = some ⟨[], es.map printing⟩ := by
  obtain ⟨ts, o', b', hlexes, hcalls, -⟩ := h.lexes (b := false) (o := false) id
  obtain ⟨ls, hls, htokens⟩ := tokens?_of_lexes hlexes
  have hlength : 4 * (ls ++ []).length < 4 * ls.length + 4 := by
    rw [List.append_nil]
    omega
  have hword : WordFollows [] := by
    rintro l ⟨⟩
  obtain ⟨fuel, -, hread⟩ := readProgram_calls hcalls hls hword (fun _ => rfl) hlength
  rw [List.append_nil] at hread
  change tokens? (String.ofList cs) = some ls at htokens
  simp [Scripting.program?, htokens, hread, readProgram, Program.behind]

theorem Lexes.blanks (h : ∀ c ∈ cs, Text.isBlank c = true ∧ Text.endsLine c = false) (b : Bool) : Lexes false b cs [] b := by
  induction cs with
  | nil => exact .nil false b
  | cons c cs ih =>
      obtain ⟨⟨hc, hline⟩, hrest⟩ := List.forall_mem_cons.1 h
      have hblank := Lexes.blank (b := b) hc
      rw [hline, Bool.or_false] at hblank
      exact hblank.append (ih hrest)

/-- A call on the same line as an open one does not make a program, whatever follows. -/
theorem Prints.program?_eq_none (h : Prints .ready cs es .behind) {gap rest : List Char}
    (hgap : ∀ c ∈ gap, Text.isBlank c = true ∧ Text.endsLine c = false) {c : Char} (hc : inWord c = false) :
    Scripting.program? (String.ofList (cs ++ (gap ++ ("print".toList ++ c :: rest)))) = none := by
  obtain ⟨ts, o', b', hlexes, hcalls, rfl, rfl⟩ := h.lexes (b := false) (o := false) id
  have hfront : Lexes false false (cs ++ gap) (ts ++ []) false := Lexes.append hlexes (Lexes.blanks hgap false)
  obtain ⟨ls, fuel, hfuel, hls, heq⟩ := hfront ("print".toList ++ c :: rest)
    (cs ++ (gap ++ ("print".toList ++ c :: rest))).length (absurd · Bool.false_ne_true) (by simp)
  obtain ⟨fuel, rfl⟩ : ∃ n, fuel = n + 1 := ⟨fuel - 1, by simp at hfuel; omega⟩
  rw [List.append_assoc, tokenizeFrom_print hc] at heq
  unfold Scripting.program? tokens?
  rw [String.toList_ofList]
  dsimp only
  rw [heq]
  cases tokenizeFrom fuel false (c :: rest) with
  | none => rfl
  | some ms =>
      rw [List.append_nil] at hls
      have hnone : readProgram (4 * (ls ++ ⟨.word "print", false, "print".toList ++ c :: rest, c :: rest⟩ :: ms).length + 4)
          (ls ++ ⟨.word "print", false, "print".toList ++ c :: rest, c :: rest⟩ :: ms) = none :=
        hcalls.readProgram_eq_none (.inl rfl) hls rfl (by omega)
      exact hnone

end ScriptedText.Scripting
