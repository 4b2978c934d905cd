import Mathlib.Data.List.TakeWhile
import ScriptedText.Language.Scripting.Wrap
import ScriptedText.Text.Cut

/-!
What a wrapped program publishes: the names behind the keyword at the start of its lines. The keyword and the name are not
held apart, so that a word which only starts like the keyword counts as a declaration too.
-/

namespace ScriptedText.Scripting

/-- The lines of a text run up to a character that ends a line, the last one up to the end. -/
inductive LinesOf : List Char → List (List Char) → Prop
  | last {line : List Char} (h : ∀ c ∈ line, Text.endsLine c = false) : LinesOf line [line]
  | ended {line rest : List Char} {c : Char} {more : List (List Char)} (h : ∀ c ∈ line, Text.endsLine c = false)
      (hc : Text.endsLine c = true) (hrest : LinesOf rest more) : LinesOf (line ++ c :: rest) (line :: more)

theorem linesOf_lines (cs : List Char) : LinesOf cs (lines cs) := by
  induction cs with
  | nil => exact .last (by simp)
  | cons c rest ih =>
      rw [lines]
      cases hc : Text.endsLine c with
      | true => exact @LinesOf.ended [] rest c _ (by simp) hc ih
      | false =>
          have hcons {line : List Char} (h : ∀ d ∈ line, Text.endsLine d = false) :
              ∀ d ∈ c :: line, Text.endsLine d = false := by
            simpa [hc] using h
          rw [if_neg (by simp)]
          revert ih
          generalize lines rest = ls
          rintro (h | ⟨h, hd, hrest⟩)
          · exact .last (hcons h)
          · exact .ended (hcons h) hd hrest

theorem lines_of_no_end {line : List Char} (h : ∀ c ∈ line, Text.endsLine c = false) : lines line = [line] := by
  induction line with
  | nil => rfl
  | cons c line ih =>
      obtain ⟨hc, hline⟩ := List.forall_mem_cons.1 h
      rw [lines, hc, ih hline]
      rfl

theorem lines_append_cons {line : List Char} {c : Char} (h : ∀ c ∈ line, Text.endsLine c = false)
    (hc : Text.endsLine c = true) (rest : List Char) : lines (line ++ c :: rest) = line :: lines rest := by
  induction line with
  | nil => rw [List.nil_append, lines, if_pos hc]
  | cons d line ih =>
      obtain ⟨hd, hline⟩ := List.forall_mem_cons.1 h
      rw [List.cons_append, lines, hd, ih hline]
      rfl

/-- A text has its lines in one way. -/
theorem linesOf_iff {cs : List Char} {ls : List (List Char)} : LinesOf cs ls ↔ ls = lines cs := by
  constructor
  · intro h
    induction h with
    | last h => exact (lines_of_no_end h).symm
    | ended h hc _ ih => rw [lines_append_cons h hc, ih]
  · rintro rfl
    exact linesOf_lines cs

/-- What may stand before the keyword: blanks, with `async` and more blanks behind them or without. -/
inductive Lead : List Char → Prop
  | blanks {before : List Char} (h : ∀ c ∈ before, isGap c = true) : Lead before
  | async {before after : List Char} (h : ∀ c ∈ before, isGap c = true) (hafter : ∀ c ∈ after, isGap c = true)
      (hne : after ≠ []) : Lead (before ++ "async".toList ++ after)

/-- What may stand between the keyword and a name: blanks, with a star among them or without. -/
inductive Spacing : List Char → Prop
  | blanks {before : List Char} (h : ∀ c ∈ before, isGap c = true) : Spacing before
  | star {before after : List Char} (h : ∀ c ∈ before, isGap c = true) (hafter : ∀ c ∈ after, isGap c = true) :
      Spacing (before ++ '*' :: after)

/-- A letter, an underscore or a dollar sign, and behind it more of them or digits. -/
def IsName (name : String) : Prop :=
  ∃ c more, name.toList = c :: more ∧ startsName c = true ∧ ∀ d ∈ more, inName d = true

/-- The line starts with the keyword, which the spacing parts from a name that goes on no further. -/
structure Keyed (spacing line : List Char) (name : String) : Prop where
  line : ∃ lead rest, Lead lead ∧ line = lead ++ "function".toList ++ spacing ++ name.toList ++ rest ∧
    ∀ c ∈ rest.head?, inName c = false
  spacing : Spacing spacing
  name : IsName name

/-- The line declares a function: something stands between the keyword and the name. -/
def Declares (line : List Char) (name : String) : Prop := ∃ spacing, spacing ≠ [] ∧ Keyed spacing line name

/-- The line starts with a word that is longer than the keyword and starts like it. -/
def RunsOn (line : List Char) : Prop := ∃ name, Keyed [] line name

section reading

variable {line rest cs : List Char} {name : String} {spacing : List Char} {c : Char}

theorem dropWhile_isGap_append {before : List Char} (h : ∀ c ∈ before, isGap c = true) (rest : List Char) :
    (before ++ rest).dropWhile isGap = rest.dropWhile isGap :=
  List.dropWhile_append_of_pos h

theorem exists_gap_append_dropWhile (cs : List Char) :
    ∃ before, (∀ c ∈ before, isGap c = true) ∧ cs = before ++ cs.dropWhile isGap :=
  ⟨cs.takeWhile isGap, fun _ => List.mem_takeWhile_imp, List.takeWhile_append_dropWhile.symm⟩

/-- What stands behind the keyword at the start of a line. -/
def afterKeyword? (line : List Char) : Option (List Char) := afterWord? "function" (skipAsync (line.dropWhile isGap))

theorem skipAsync_of_keyword (rest : List Char) : skipAsync ("function".toList ++ rest) = "function".toList ++ rest := rfl

theorem afterKeyword?_eq_some_iff :
    afterKeyword? line = some rest ↔ ∃ lead, Lead lead ∧ line = lead ++ "function".toList ++ rest := by
  have hkeyword (rest : List Char) : ("function".toList ++ rest).dropWhile isGap = "function".toList ++ rest := rfl
  constructor
  · intro h
    have hline := Text.isPrefixOf?_eq_some.1 h
    obtain ⟨before, hbefore, heq⟩ := exists_gap_append_dropWhile line
    unfold skipAsync at hline
    split at hline
    · next c after hafter =>
        split at hline
        · next hc =>
            obtain ⟨gap, hgap, hrest⟩ := exists_gap_append_dropWhile after
            refine ⟨before ++ "async".toList ++ (c :: gap), .async hbefore (by simpa [hc] using hgap) (by simp), ?_⟩
            rw [heq, Text.isPrefixOf?_eq_some.1 hafter, hrest, hline]
            simp
        · exact ⟨before, .blanks hbefore, by rw [heq, hline, List.append_assoc]⟩
    · exact ⟨before, .blanks hbefore, by rw [heq, hline, List.append_assoc]⟩
  · rintro ⟨lead, hlead, rfl⟩
    refine Text.isPrefixOf?_eq_some.2 ?_
    rw [List.append_assoc]
    -- The blanks of the lead run on no further than it does, since the keyword has a letter first.
    cases hlead with
    | blanks h => rw [dropWhile_isGap_append h, hkeyword, skipAsync_of_keyword]
    | @async before after h hafter hne =>
        obtain ⟨c, gap, rfl⟩ := List.exists_cons_of_ne_nil hne
        have hc := hafter c (List.mem_cons_self ..)
        have hasync (rest : List Char) : skipAsync ("async".toList ++ c :: rest) = rest.dropWhile isGap := by
          unfold skipAsync
          rw [show afterWord? "async" ("async".toList ++ c :: rest) = some (c :: rest) from Text.isPrefixOf?_eq_some.2 rfl]
          exact if_pos hc
        rw [List.append_assoc, List.append_assoc, dropWhile_isGap_append h]
        change skipAsync ("async".toList ++ c :: (gap ++ ("function".toList ++ rest))) = _
        rw [hasync, dropWhile_isGap_append fun d hd => hafter d (List.mem_cons_of_mem _ hd), hkeyword]

/-- What stands behind the spacing that a text starts with. -/
def skipSpacing (cs : List Char) : List Char :=
  match cs.dropWhile isGap with
  | '*' :: more => more.dropWhile isGap
  | _ => cs.dropWhile isGap

theorem exists_spacing_append (cs : List Char) : ∃ spacing, Spacing spacing ∧ cs = spacing ++ skipSpacing cs := by
  obtain ⟨before, hbefore, heq⟩ := exists_gap_append_dropWhile cs
  unfold skipSpacing
  split
  · next more hmore =>
      obtain ⟨after, hafter, hrest⟩ := exists_gap_append_dropWhile more
      refine ⟨before ++ '*' :: after, .star hbefore hafter, ?_⟩
      rw [List.append_assoc, List.cons_append, ← hrest, ← hmore]
      exact heq
  · exact ⟨before, .blanks hbefore, heq⟩

theorem skipSpacing_append (h : Spacing spacing) (hc : startsName c = true) (rest : List Char) :
    skipSpacing (spacing ++ c :: rest) = c :: rest := by
  have hgap : isGap c = false := by
    rw [Bool.eq_false_iff]
    intro hgap
    rcases (by simpa [isGap] using hgap : c = ' ' ∨ c = '\t') with rfl | rfl
    · revert hc
      decide
    · revert hc
      decide
  have hstar : c ≠ '*' := by
    rintro rfl
    revert hc
    decide
  have hdrop : (c :: rest).dropWhile isGap = c :: rest := List.dropWhile_cons_of_neg (by simp [hgap])
  unfold skipSpacing
  cases h with
  | blanks h =>
      rw [dropWhile_isGap_append h, hdrop]
      split
      · next more heq => exact absurd (List.cons.inj heq).1 hstar
      · rfl
  | star h hafter =>
      rw [List.append_assoc, dropWhile_isGap_append h]
      change (_ ++ c :: rest).dropWhile isGap = _
      rw [dropWhile_isGap_append hafter, hdrop]

/-- The name that a text starts with. -/
def leadingName? : List Char → Option String
  | c :: more => if startsName c then some (String.ofList (c :: more.takeWhile inName)) else none
  | [] => none

theorem leadingName?_eq_some_iff : leadingName? cs = some name ↔
    IsName name ∧ ∃ rest, cs = name.toList ++ rest ∧ ∀ c ∈ rest.head?, inName c = false := by
  constructor
  · intro h
    cases cs with
    | nil => cases h
    | cons c more =>
        rw [leadingName?] at h
        split at h
        · next hc =>
            cases h
            refine ⟨⟨c, more.takeWhile inName, String.toList_ofList, hc, fun d => List.mem_takeWhile_imp⟩,
              more.dropWhile inName, ?_, fun d hd => ?_⟩
            · rw [String.toList_ofList, List.cons_append, List.takeWhile_append_dropWhile]
            · have hhead := List.head?_dropWhile_not inName more
              rw [Option.mem_def.1 hd] at hhead
              simpa using hhead
        · cases h
  · rintro ⟨⟨c, more, hname, hc, hmore⟩, rest, rfl, hrest⟩
    have htake : (more ++ rest).takeWhile inName = more := by
      rw [List.takeWhile_append_of_pos hmore]
      cases rest with
      | nil => simp
      | cons d rest => simp [hrest d rfl]
    rw [hname, List.cons_append, leadingName?, if_pos hc, htake, ← hname, String.ofList_toList]

theorem declaredName?_eq_bind (line : List Char) :
    declaredName? line = (afterKeyword? line).bind fun rest => leadingName? (skipSpacing rest) := by
  refine congrArg (Option.bind (afterKeyword? line)) (funext fun rest => ?_)
  unfold leadingName? skipSpacing
  rfl

/-- The name of a line is what its keyword is followed by, whatever the spacing. -/
theorem declaredName?_eq_some_iff : declaredName? line = some name ↔ ∃ spacing, Keyed spacing line name := by
  rw [declaredName?_eq_bind, Option.bind_eq_some_iff]
  constructor
  · rintro ⟨rest, hrest, hname⟩
    obtain ⟨lead, hlead, rfl⟩ := afterKeyword?_eq_some_iff.1 hrest
    obtain ⟨spacing, hspacing, heq⟩ := exists_spacing_append rest
    obtain ⟨hisName, more, hmore, hstop⟩ := leadingName?_eq_some_iff.1 hname
    refine ⟨spacing, ⟨lead, more, hlead, ?_, hstop⟩, hspacing, hisName⟩
    rw [List.append_assoc (_ ++ spacing), ← hmore, List.append_assoc _ spacing, ← heq]
  · rintro ⟨spacing, ⟨lead, more, hlead, rfl, hstop⟩, hspacing, hname⟩
    refine ⟨spacing ++ (name.toList ++ more), afterKeyword?_eq_some_iff.2 ⟨lead, hlead, by simp⟩, ?_⟩
    refine leadingName?_eq_some_iff.2 ⟨hname, more, ?_, hstop⟩
    obtain ⟨c, cs, heq, hc, -⟩ := hname
    rw [heq]
    exact skipSpacing_append hspacing hc _

/-- A line can be read in one way only. -/
theorem Keyed.spacing_eq {spacing' : List Char} {name' : String} (h : Keyed spacing line name)
    (h' : Keyed spacing' line name') : spacing = spacing' := by
  obtain ⟨⟨lead, more, hlead, hline, -⟩, hspacing, c, cs, hname, hc, -⟩ := h
  obtain ⟨⟨lead', more', hlead', hline', -⟩, hspacing', c', cs', hname', hc', -⟩ := h'
  have hafter : afterKeyword? line = some (spacing ++ (c :: (cs ++ more))) :=
    afterKeyword?_eq_some_iff.2 ⟨lead, hlead, by rw [hline, hname]; simp⟩
  have hafter' : afterKeyword? line = some (spacing' ++ (c' :: (cs' ++ more'))) :=
    afterKeyword?_eq_some_iff.2 ⟨lead', hlead', by rw [hline', hname']; simp⟩
  have hsame := Option.some.inj (hafter.symm.trans hafter')
  -- The same stands behind both spacings, where the name starts.
  have hbehind := congrArg skipSpacing hsame
  rw [skipSpacing_append hspacing hc, skipSpacing_append hspacing' hc'] at hbehind
  rw [← hbehind] at hsame
  exact List.append_cancel_right hsame

theorem not_declares_of_runsOn (h : RunsOn line) (name : String) : ¬ Declares line name := by
  rintro ⟨spacing, hne, hnames⟩
  obtain ⟨other, hother⟩ := h
  exact hne (hnames.spacing_eq hother)

end reading

/-- The names are those of the lines that `gives` has one for, in order. -/
inductive NamesOf (gives : List Char → String → Prop) : List (List Char) → List String → Prop
  | nil : NamesOf gives [] []
  | named {line : List Char} {name : String} {lines : List (List Char)} {more : List String} (h : gives line name)
      (hmore : NamesOf gives lines more) : NamesOf gives (line :: lines) (name :: more)
  | unnamed {line : List Char} {lines : List (List Char)} {more : List String} (h : ∀ name, ¬ gives line name)
      (hmore : NamesOf gives lines more) : NamesOf gives (line :: lines) more

section naming

variable {gives : List Char → String → Prop} {ls : List (List Char)} {ns : List String}

theorem namesOf_filterMap {f : List Char → Option String}
    (hf : ∀ line ∈ ls, ∀ name, f line = some name ↔ gives line name) : NamesOf gives ls (ls.filterMap f) := by
  induction ls with
  | nil => exact .nil
  | cons line ls ih =>
      have hline := hf line (List.mem_cons_self ..)
      have hmore := ih fun line hline => hf line (List.mem_cons_of_mem _ hline)
      cases h : f line with
      | none =>
          rw [List.filterMap_cons_none h]
          exact .unnamed (fun name hname => nomatch h.symm.trans ((hline name).2 hname)) hmore
      | some name =>
          rw [List.filterMap_cons_some h]
          exact .named ((hline name).1 h) hmore

theorem NamesOf.length_le (h : NamesOf Declares ls ns) : ns.length ≤ (ls.filterMap declaredName?).length := by
  induction h with
  | nil => exact Nat.le_refl _
  | named h _ ih =>
      obtain ⟨spacing, -, hnames⟩ := h
      rw [List.filterMap_cons_some (declaredName?_eq_some_iff.2 ⟨spacing, hnames⟩)]
      exact Nat.succ_le_succ ih
  | @unnamed line _ _ _ _ ih =>
      refine Nat.le_trans ih ?_
      cases hline : declaredName? line with
      | none => rw [List.filterMap_cons_none hline]
      | some name =>
          rw [List.filterMap_cons_some hline]
          exact Nat.le_succ _

/-- A line that runs on gives a name that no line declares. -/
theorem NamesOf.length_lt {line : List Char} (h : NamesOf Declares ls ns) (hline : line ∈ ls) (hrun : RunsOn line) :
    ns.length < (ls.filterMap declaredName?).length := by
  induction h with
  | nil => cases hline
  | @named first name _ _ h _ ih =>
      rcases List.mem_cons.1 hline with rfl | hmem
      · exact absurd h (not_declares_of_runsOn hrun name)
      · obtain ⟨spacing, -, hnames⟩ := h
        rw [List.filterMap_cons_some (declaredName?_eq_some_iff.2 ⟨spacing, hnames⟩)]
        exact Nat.succ_lt_succ (ih hmem)
  | @unnamed first _ _ _ hmore ih =>
      rcases List.mem_cons.1 hline with rfl | hmem
      · obtain ⟨name, hname⟩ := hrun
        rw [List.filterMap_cons_some (declaredName?_eq_some_iff.2 ⟨[], hname⟩)]
        exact Nat.lt_succ_of_le hmore.length_le
      · refine Nat.lt_of_lt_of_le (ih hmem) ?_
        rw [List.filterMap_cons]
        split
        · exact Nat.le_refl _
        · exact Nat.le_succ _

/-- What is read off the lines are the names of the functions that they declare just if no line runs on. -/
theorem namesOf_declares_iff (ls : List (List Char)) :
    NamesOf Declares ls (ls.filterMap declaredName?) ↔ ∀ line ∈ ls, ¬ RunsOn line := by
  constructor
  · exact fun h line hline hrun => Nat.lt_irrefl _ (h.length_lt hline hrun)
  · refine fun h => namesOf_filterMap fun line hline name => ?_
    rw [declaredName?_eq_some_iff]
    constructor
    · rintro ⟨spacing, hnames⟩
      refine ⟨spacing, ?_, hnames⟩
      rintro rfl
      exact h line hline ⟨name, hnames⟩
    · rintro ⟨spacing, -, hnames⟩
      exact ⟨spacing, hnames⟩

end naming

/-- What a wrapped program starts with when it publishes the names. -/
def wrapHead (names : List String) : String :=
  "(async function () \x7b " ++ " ".intercalate (names.map publication)

def wrapTail : String := "\n\x7d).call(globalThis);"

section publishing

variable {name : String} {names names' : List String}

theorem IsName.forall_inName (h : IsName name) : ∀ c ∈ name.toList, inName c = true := by
  obtain ⟨c, more, hname, hc, hmore⟩ := h
  rw [hname]
  exact List.forall_mem_cons.2 ⟨by rw [inName, hc, Bool.true_or], hmore⟩

/-- A publication tests the name first, and has a blank behind it there. -/
theorem exists_publication_eq (name : String) (rest : List Char) : ∃ more,
    (publication name).toList ++ rest = "if (typeof ".toList ++ (name.toList ++ ' ' :: more) := by
  have hparts {a b c d : String} {behind : List Char} (hb : b.toList = ' ' :: behind) : ∃ more,
      (a ++ name ++ b ++ name ++ c ++ name ++ d).toList ++ rest = a.toList ++ (name.toList ++ ' ' :: more) :=
    ⟨behind ++ (name.toList ++ (c.toList ++ (name.toList ++ (d.toList ++ rest)))), by simp [hb]⟩
  exact hparts (b := " === 'function') globalThis.") rfl

theorem publication_append_inj {name' : String} {rest rest' : List Char} (h : IsName name) (h' : IsName name')
    (heq : (publication name).toList ++ rest = (publication name').toList ++ rest') : name = name' ∧ rest = rest' := by
  have htake {name : String} (h : IsName name) (more : List Char) :
      (name.toList ++ ' ' :: more).takeWhile inName = name.toList := by
    rw [List.takeWhile_append_of_pos h.forall_inName, List.takeWhile_cons_of_neg (by decide), List.append_nil]
  obtain ⟨more, hmore⟩ := exists_publication_eq name rest
  obtain ⟨more', hmore'⟩ := exists_publication_eq name' rest'
  have hnames := congrArg (List.takeWhile inName)
    (List.append_cancel_left (hmore.symm.trans (heq.trans hmore')))
  rw [htake h, htake h'] at hnames
  obtain rfl := String.toList_inj.1 hnames
  exact ⟨rfl, List.append_cancel_left heq⟩

/-- What stands behind the first publication. -/
def laterPublications : List String → List Char
  | [] => []
  | name :: more => ' ' :: (" ".intercalate ((name :: more).map publication)).toList

theorem toList_publications (name : String) (more : List String) :
    (" ".intercalate ((name :: more).map publication)).toList = (publication name).toList ++ laterPublications more := by
  cases more with
  | nil => simp [laterPublications]
  | cons other more => simp [laterPublications, String.intercalate_cons_cons]

theorem laterPublications_inj (h : laterPublications names = laterPublications names') :
    " ".intercalate (names.map publication) = " ".intercalate (names'.map publication) := by
  cases names with
  | nil =>
      cases names' with
      | nil => rfl
      | cons name' more' => cases h
  | cons name more =>
      cases names' with
      | nil => cases h
      | cons name' more' => exact String.toList_inj.1 (List.cons.inj h).2

/-- The published names can be read off. -/
theorem publications_injective (h : ∀ name ∈ names, IsName name) (h' : ∀ name ∈ names', IsName name)
    (heq : " ".intercalate (names.map publication) = " ".intercalate (names'.map publication)) : names = names' := by
  have hne (name : String) (more : List String) : " ".intercalate ((name :: more).map publication) ≠ "" := by
    intro hempty
    obtain ⟨rest, hrest⟩ := exists_publication_eq name (laterPublications more)
    have hlist := congrArg String.toList hempty
    rw [toList_publications, hrest] at hlist
    cases (List.append_eq_nil_iff.1 hlist).1
  -- The first publication ends the first name; what is left starts with a blank, unless it was the last one.
  induction names generalizing names' with
  | nil =>
      cases names' with
      | nil => rfl
      | cons name' more' => exact absurd heq.symm (hne name' more')
  | cons name more ih =>
      cases names' with
      | nil => exact absurd heq (hne name more)
      | cons name' more' =>
          rw [← String.toList_inj, toList_publications, toList_publications] at heq
          obtain ⟨rfl, hlater⟩ :=
            publication_append_inj (h _ (List.mem_cons_self ..)) (h' _ (List.mem_cons_self ..)) heq
          rw [ih (fun name hname => h name (List.mem_cons_of_mem _ hname))
            (fun name hname => h' name (List.mem_cons_of_mem _ hname)) (laterPublications_inj hlater)]

theorem isName_of_mem_publishedNames {source : String} (h : name ∈ publishedNames source) : IsName name := by
  obtain ⟨line, -, hline⟩ := List.mem_filterMap.1 h
  obtain ⟨spacing, hnames⟩ := declaredName?_eq_some_iff.1 hline
  exact hnames.name

theorem wrap_eq (source : String) : wrap source = wrapHead (publishedNames source) ++ source ++ wrapTail := by
  unfold wrap wrapHead wrapTail
  with_reducible rfl

theorem endsLine_of_inName {c : Char} (h : inName c = true) : Text.endsLine c = false := by
  have hof (n : Nat) (hn : c.toNat = n) : c = Char.ofNat n := by rw [← hn, Char.ofNat_toNat]
  rw [Bool.eq_false_iff]
  intro hc
  simp only [Text.endsLine, Bool.or_eq_true, decide_eq_true_eq] at hc
  rcases hc with ((rfl | rfl) | hc) | hc
  · exact absurd h (by decide)
  · exact absurd h (by decide)
  · exact absurd (hof _ hc ▸ h) (by decide)
  · exact absurd (hof _ hc ▸ h) (by decide)

theorem any_endsLine_append {a b : String} (ha : a.toList.any Text.endsLine = false)
    (hb : b.toList.any Text.endsLine = false) : (a ++ b).toList.any Text.endsLine = false := by
  rw [String.toList_append, List.any_append, ha, hb]
  rfl

theorem any_endsLine_publication (h : IsName name) : (publication name).toList.any Text.endsLine = false := by
  have hname : name.toList.any Text.endsLine = false :=
    List.any_eq_false.2 fun c hc => Bool.eq_false_iff.1 (endsLine_of_inName (h.forall_inName c hc))
  have htest := any_endsLine_append (a := "if (typeof ") rfl hname
  have htarget := any_endsLine_append (any_endsLine_append htest (b := " === 'function') globalThis.") rfl) hname
  have hvalue := any_endsLine_append (any_endsLine_append htarget (b := " = ") rfl) hname
  unfold publication
  exact any_endsLine_append hvalue rfl

/-- What stands in front of the source is all on one line. -/
theorem endsLine_wrapHead (h : ∀ name ∈ names, IsName name) : ∀ c ∈ (wrapHead names).toList, Text.endsLine c = false := by
  have hpublications : (" ".intercalate (names.map publication)).toList.any Text.endsLine = false := by
    induction names with
    | nil => rfl
    | cons name more ih =>
        have hmore := ih fun name hname => h name (List.mem_cons_of_mem _ hname)
        rw [toList_publications, List.any_append, any_endsLine_publication (h _ (List.mem_cons_self ..))]
        cases more with
        | nil => rfl
        | cons other more => exact hmore
  have hhead : (wrapHead names).toList.any Text.endsLine = false := by
    unfold wrapHead
    exact any_endsLine_append rfl hpublications
  exact fun c hc => Bool.eq_false_iff.2 (List.any_eq_false.1 hhead c hc)

end publishing

/-- A wrapped program is its source between a head on the line of its start and a tail that is always the same. The head
publishes names that can be read off it: in order, those that keyword and spacing are followed by at the start of a line, be
the spacing empty or not. They are the names of the functions that the lines declare just if no line starts with a longer
word in place of the keyword. -/
theorem wrap_publishes_declared_iff (source : String) : ∃ ls names,
    (∀ ls', LinesOf source.toList ls' ↔ ls' = ls) ∧ wrap source = wrapHead names ++ source ++ wrapTail ∧
      (∀ c ∈ (wrapHead names).toList, Text.endsLine c = false) ∧
      (∀ names', (∀ name ∈ names', IsName name) → wrapHead names' = wrapHead names → names' = names) ∧
      NamesOf (fun line name => ∃ spacing, Keyed spacing line name) ls names ∧
      (NamesOf Declares ls names ↔ ∀ line ∈ ls, ¬ RunsOn line) := by
  have hnames : ∀ name ∈ publishedNames source, IsName name := fun _ => isName_of_mem_publishedNames
  refine ⟨lines source.toList, publishedNames source, fun _ => linesOf_iff, wrap_eq source, endsLine_wrapHead hnames, ?_, ?_,
    namesOf_declares_iff _⟩
  · intro names' hnames' heq
    unfold wrapHead at heq
    exact publications_injective hnames' hnames ((String.append_right_inj _).1 heq)
  · exact namesOf_filterMap fun _ _ _ => declaredName?_eq_some_iff

end ScriptedText.Scripting
