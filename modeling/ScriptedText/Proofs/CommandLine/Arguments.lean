import Mathlib.Data.List.Basic
import ScriptedText.CommandLine.Arguments

/-!
The grammar of argument lists: a list is accepted just if it asks for help or for the version, or is written as a sequence
of groups that describes one request. The order of the groups matters only among values of one flag.
-/

namespace ScriptedText.CommandLine

def ValueFlag.text : ValueFlag → String
  | .base => "--base"
  | .language => "--language"
  | .config => "--config"
  | .format => "--format"

theorem ValueFlag.ofText?_eq_some_iff {s : String} {flag : ValueFlag} : ofText? s = some flag ↔ s = flag.text := by
  constructor
  · intro h
    unfold ofText? at h
    split at h
    · next hs => cases h; exact hs
    · split at h
      · next hs => cases h; exact hs
      · split at h
        · next hs => cases h; exact hs
        · split at h
          · next hs => cases h; exact hs
          · cases h
  · rintro rfl
    cases flag <;> decide

theorem looksLikeFlag_eq_false_iff {s : String} : looksLikeFlag s = false ↔ s = "-" ∨ s.toList.head? ≠ some '-' := by
  have hstart : Text.startsWith s "-" = true ↔ s.toList.head? = some '-' := by
    change List.isPrefixOf ['-'] s.toList = true ↔ _
    cases s.toList with
    | nil => simp
    | cons c rest => simpa [List.isPrefixOf] using eq_comm
  unfold looksLikeFlag
  rw [Bool.and_eq_false_iff, Bool.eq_false_iff, Ne, hstart, decide_eq_false_iff_not, not_not]
  exact or_comm

theorem looksLikeFlag_text (flag : ValueFlag) : looksLikeFlag flag.text = true := by
  cases flag <;> decide

namespace Group

/-- The arguments that a group is written as. -/
def words : Group → List String
  | .verbose => ["--verbose"]
  | .value flag text => [flag.text, text]
  | .positional text => [text]

/-- A positional argument starts with no dash, unless it is nothing but one. -/
def Fits : Group → Prop
  | .positional text => text = "-" ∨ text.toList.head? ≠ some '-'
  | _ => True

end Group

section grouping

variable {argv : List String} {gs : List Group} {g : Group}

theorem map_cons_eq_ok_iff {x : Except Mistake (List Group)} :
    x.map (g :: ·) = .ok gs ↔ ∃ rest, x = .ok rest ∧ g :: rest = gs := by
  cases x <;> simp [Except.map]

theorem fits_of_groups (h : groups argv = .ok gs) : gs.flatMap Group.words = argv ∧ ∀ g ∈ gs, g.Fits := by
  fun_induction groups argv generalizing gs with
  | case1 => cases h; simp
  | case2 rest _ ih =>
      obtain ⟨more, hmore, rfl⟩ := map_cons_eq_ok_iff.1 h
      obtain ⟨hwords, hfits⟩ := ih hmore
      exact ⟨by simp [Group.words, hwords], by simpa [Group.Fits] using hfits⟩
  | case3 => cases h
  | case4 => cases h
  | case5 a hlooks hverbose flag v rest hflag ih =>
      obtain ⟨more, hmore, rfl⟩ := map_cons_eq_ok_iff.1 h
      obtain ⟨hwords, hfits⟩ := ih hmore
      exact ⟨by simp [Group.words, hwords, ValueFlag.ofText?_eq_some_iff.1 hflag], by simpa [Group.Fits] using hfits⟩
  | case6 a rest hlooks ih =>
      obtain ⟨more, hmore, rfl⟩ := map_cons_eq_ok_iff.1 h
      obtain ⟨hwords, hfits⟩ := ih hmore
      refine ⟨by simp [Group.words, hwords], fun g hg => ?_⟩
      rcases List.mem_cons.1 hg with rfl | hg
      · exact looksLikeFlag_eq_false_iff.1 (Bool.eq_false_iff.2 hlooks)
      · exact hfits g hg

theorem groups_verbose (rest : List String) : groups ("--verbose" :: rest) = (groups rest).map (.verbose :: ·) := by
  rw [groups.eq_def]
  rfl

theorem groups_value (flag : ValueFlag) (v : String) (rest : List String) :
    groups (flag.text :: v :: rest) = (groups rest).map (.value flag v :: ·) := by
  have hverbose : flag.text ≠ "--verbose" := by cases flag <;> decide
  rw [groups.eq_def]
  dsimp only
  rw [if_pos (looksLikeFlag_text flag), if_neg hverbose, ValueFlag.ofText?_eq_some_iff.2 rfl]

theorem groups_positional {text : String} (h : looksLikeFlag text = false) (rest : List String) :
    groups (text :: rest) = (groups rest).map (.positional text :: ·) := by
  rw [groups.eq_def]
  dsimp only
  rw [h]
  rfl

theorem groups_flatMap_words (h : ∀ g ∈ gs, g.Fits) : groups (gs.flatMap Group.words) = .ok gs := by
  induction gs with
  | nil => rfl
  | cons g gs ih =>
      have hmore := ih fun g hg => h g (List.mem_cons_of_mem _ hg)
      refine Eq.trans ?_ (map_cons_eq_ok_iff.2 ⟨gs, hmore, rfl⟩)
      cases g with
      | verbose => exact groups_verbose _
      | value flag text => exact groups_value flag text _
      | positional text => exact groups_positional (looksLikeFlag_eq_false_iff.2 (h _ (List.mem_cons_self ..))) _

/-- A list is split in the one way in which it is written. -/
theorem groups_eq_ok_iff : groups argv = .ok gs ↔ gs.flatMap Group.words = argv ∧ ∀ g ∈ gs, g.Fits := by
  constructor
  · exact fits_of_groups
  · rintro ⟨rfl, hfits⟩
    exact groups_flatMap_words hfits

end grouping

section describing

variable {gs gs' : List Group} {g : Group} {flag : ValueFlag} {text : String} {r : Request}

/-- The value that a group gives a flag. -/
def Group.valueFor? (flag : ValueFlag) : Group → Option String
  | .value f text => if f = flag then some text else none
  | _ => none

theorem Group.valueFor?_eq_some_iff : g.valueFor? flag = some text ↔ g = .value flag text := by
  cases g with
  | value f t => simp [Group.valueFor?]
  | verbose => simp [Group.valueFor?]
  | positional t => simp [Group.valueFor?]

/-- The text of a positional argument. -/
def Group.positional? : Group → Option String
  | .positional text => some text
  | _ => none

theorem Group.positional?_eq_some_iff : g.positional? = some text ↔ g = .positional text := by
  cases g <;> simp [Group.positional?]

/-- Where `f` reads off what groups of one form hold, it finds nothing just if there are no such groups. -/
theorem filterMap_eq_nil_iff_of_form {f : Group → Option String} {form : String → Group}
    (hf : ∀ g text, f g = some text ↔ g = form text) : gs.filterMap f = [] ↔ ∀ text, form text ∉ gs := by
  rw [List.filterMap_eq_nil_iff]
  constructor
  · intro h text hmem
    cases (h _ hmem).symm.trans ((hf _ text).2 rfl)
  · intro h g hg
    refine Option.eq_none_iff_forall_ne_some.2 fun text htext => ?_
    exact h text ((hf g text).1 htext ▸ hg)

/-- The values given for a flag, in order. -/
def valuesFor (flag : ValueFlag) (gs : List Group) : List String := gs.filterMap (Group.valueFor? flag)

theorem lastValue?_eq_getLast? (flag : ValueFlag) (gs : List Group) :
    lastValue? flag gs = (valuesFor flag gs).getLast? :=
  List.getLast?_filterMap.symm

/-- The value that a flag has in the end: that of the last group which gives it one. -/
inductive Last (flag : ValueFlag) (gs : List Group) : Option String → Prop
  | none (h : ∀ text, .value flag text ∉ gs) : Last flag gs none
  | some {before after : List Group} {text : String} (h : gs = before ++ .value flag text :: after)
      (hafter : ∀ text, .value flag text ∉ after) : Last flag gs (some text)

theorem valuesFor_eq_nil_iff : valuesFor flag gs = [] ↔ ∀ text, .value flag text ∉ gs :=
  filterMap_eq_nil_iff_of_form fun _ _ => Group.valueFor?_eq_some_iff

theorem lastValue?_eq_some_iff : lastValue? flag gs = some text ↔
    ∃ before after, gs = before ++ .value flag text :: after ∧ ∀ text, .value flag text ∉ after := by
  -- The last value is the first one of the groups read backwards.
  rw [lastValue?_eq_getLast?, ← List.head?_reverse, valuesFor, ← List.filterMap_reverse, List.head?_eq_some_iff]
  constructor
  · rintro ⟨texts, htexts⟩
    obtain ⟨later, g, earlier, hgs, hlater, hg, -⟩ := List.filterMap_eq_cons_iff.1 htexts
    refine ⟨earlier.reverse, later.reverse, ?_, ?_⟩
    · rw [← Group.valueFor?_eq_some_iff.1 hg, ← List.reverse_reverse gs, hgs]
      simp
    · rw [← valuesFor_eq_nil_iff, valuesFor, List.filterMap_reverse, List.filterMap_eq_nil_iff.2 hlater, List.reverse_nil]
  · rintro ⟨before, after, rfl, hafter⟩
    refine ⟨(before.reverse).filterMap (Group.valueFor? flag), ?_⟩
    have hnil : after.reverse.filterMap (Group.valueFor? flag) = [] := by
      rw [List.filterMap_reverse, show after.filterMap _ = [] from valuesFor_eq_nil_iff.2 hafter, List.reverse_nil]
    rw [List.reverse_append, List.reverse_cons, List.filterMap_append, List.filterMap_append, hnil]
    simp [Group.valueFor?]

theorem lastValue?_eq_iff {v : Option String} : lastValue? flag gs = v ↔ Last flag gs v := by
  constructor
  · intro h
    cases v with
    | none =>
        rw [lastValue?_eq_getLast?, List.getLast?_eq_none_iff] at h
        exact .none (valuesFor_eq_nil_iff.1 h)
    | some text =>
        obtain ⟨before, after, hgs, hnone⟩ := lastValue?_eq_some_iff.1 h
        exact .some hgs hnone
  · rintro (h | ⟨hgs, hnone⟩)
    · rw [lastValue?_eq_getLast?, valuesFor_eq_nil_iff.2 h]
      rfl
    · exact lastValue?_eq_some_iff.2 ⟨_, _, hgs, hnone⟩

theorem positionals_eq_nil_iff : positionals gs = [] ↔ ∀ other, .positional other ∉ gs :=
  filterMap_eq_nil_iff_of_form fun _ _ => Group.positional?_eq_some_iff

theorem positionals_eq_singleton_iff : positionals gs = [text] ↔
    ∃ before after, gs = before ++ .positional text :: after ∧ ∀ other, .positional other ∉ before ++ after := by
  constructor
  · intro h
    obtain ⟨before, g, after, rfl, hbefore, hg, hafter⟩ := List.filterMap_eq_cons_iff.1 h
    cases Group.positional?_eq_some_iff.1 hg
    refine ⟨before, after, rfl, positionals_eq_nil_iff.1 ?_⟩
    rw [positionals, List.filterMap_append, hafter, List.append_nil]
    exact List.filterMap_eq_nil_iff.2 hbefore
  · rintro ⟨before, after, rfl, hnone⟩
    have hnil := positionals_eq_nil_iff.2 hnone
    rw [positionals, List.filterMap_append, List.append_eq_nil_iff] at hnil
    rw [positionals, List.filterMap_append, List.filterMap_cons, hnil.1, hnil.2]
    rfl

/-- What a sequence of groups asks for. -/
structure Describes (gs : List Group) (r : Request) : Prop where
  document : ∃ before after, gs = before ++ .positional r.document :: after ∧ ∀ other, .positional other ∉ before ++ after
  base : Last .base gs r.base
  language : Last .language gs r.language
  config : Last .config gs r.config
  format : Last .format gs none ∧ r.format = .human ∨ Last .format gs (some r.format.name)
  verbose : r.verbose = true ↔ .verbose ∈ gs

theorem Format.ofName?_eq_some_iff {format : Format} : Format.ofName? text = some format ↔ text = format.name := by
  constructor
  · intro h
    unfold ofName? at h
    split at h
    · next hs => cases h; exact hs
    · split at h
      · next hs => cases h; exact hs
      · cases h
  · rintro rfl
    cases format <;> decide

theorem requestOf_eq_ok_iff : requestOf gs = .ok r ↔ positionals gs = [r.document] ∧ lastValue? .base gs = r.base ∧
    lastValue? .language gs = r.language ∧ lastValue? .config gs = r.config ∧
    (lastValue? .format gs).getD Format.human.name = r.format.name ∧ gs.contains .verbose = r.verbose := by
  unfold requestOf
  dsimp only
  split
  · next format hformat =>
      rw [Format.ofName?_eq_some_iff] at hformat
      have hname {f : Format} : format.name = f.name ↔ format = f := by cases format <;> cases f <;> decide
      rw [hformat, hname]
      split
      · next hnil => simp [hnil]
      · next document hdocument =>
          rw [hdocument]
          cases r
          simp [pure, Except.pure]
      · next other extra more hmore => simp [hmore]
  · next hnone =>
      refine ⟨fun h => (nomatch h), fun ⟨_, _, _, _, hformat, _⟩ => ?_⟩
      exact absurd (Format.ofName?_eq_some_iff.2 hformat) (hnone _)

theorem requestOf_eq_ok_iff_describes : requestOf gs = .ok r ↔ Describes gs r := by
  have hformat : (lastValue? .format gs).getD Format.human.name = r.format.name ↔
      Last .format gs none ∧ r.format = .human ∨ Last .format gs (some r.format.name) := by
    rw [← lastValue?_eq_iff, ← lastValue?_eq_iff]
    cases lastValue? .format gs with
    | none => cases r.format <;> decide
    | some text => simp
  have hverbose : gs.contains .verbose = r.verbose ↔ (r.verbose = true ↔ .verbose ∈ gs) := by
    rw [← List.contains_iff_mem, ← Bool.eq_iff_iff, eq_comm]
  rw [requestOf_eq_ok_iff, positionals_eq_singleton_iff, hformat, hverbose, lastValue?_eq_iff, lastValue?_eq_iff, lastValue?_eq_iff]
  constructor
  · rintro ⟨document, base, language, config, format, verbose⟩
    exact { document, base, language, config, format, verbose }
  · rintro ⟨document, base, language, config, format, verbose⟩
    exact ⟨document, base, language, config, format, verbose⟩

/-- A request stays the same if groups change places, so long as the values of each flag keep their order. -/
theorem requestOf_eq_ok_iff_of_perm (hperm : gs'.Perm gs) (hvalues : ∀ flag, valuesFor flag gs' = valuesFor flag gs) :
    requestOf gs' = .ok r ↔ requestOf gs = .ok r := by
  have hlast (flag : ValueFlag) : lastValue? flag gs' = lastValue? flag gs := by
    rw [lastValue?_eq_getLast?, lastValue?_eq_getLast?, hvalues]
  have hpositional : positionals gs' = [r.document] ↔ positionals gs = [r.document] := by
    -- Groups that change places may change the order of documents, but not where there is only one.
    have htexts : (positionals gs').Perm (positionals gs) := hperm.filterMap _
    rw [← List.perm_singleton, ← List.perm_singleton]
    exact ⟨htexts.symm.trans, htexts.trans⟩
  have hverbose : gs'.contains .verbose = gs.contains .verbose := by
    rw [Bool.eq_iff_iff, List.contains_iff_mem, List.contains_iff_mem]
    exact hperm.mem_iff
  rw [requestOf_eq_ok_iff, requestOf_eq_ok_iff, hpositional, hverbose, hlast, hlast, hlast, hlast]

end describing

section accepting

variable {argv argv' : List String} {gs : List Group} {a : Arguments}

/-- What an argument list means. Help is asked for before the version, and both in any place, be it that of a value. -/
inductive Means (argv : List String) : Arguments → Prop
  | help (h : "--help" ∈ argv ∨ "-h" ∈ argv) : Means argv .help
  | version (hhelp : "--help" ∉ argv ∧ "-h" ∉ argv) (h : "--version" ∈ argv ∨ "-v" ∈ argv) : Means argv .version
  | run {gs : List Group} {r : Request} (hhelp : "--help" ∉ argv ∧ "-h" ∉ argv)
      (hversion : "--version" ∉ argv ∧ "-v" ∉ argv) (hwords : gs.flatMap Group.words = argv) (hfits : ∀ g ∈ gs, g.Fits)
      (h : Describes gs r) : Means argv (.run r)

theorem askedFor?_of_help (h : "--help" ∈ argv ∨ "-h" ∈ argv) : askedFor? argv = some .help := by
  simp [askedFor?, h]

theorem askedFor?_of_version (hhelp : "--help" ∉ argv ∧ "-h" ∉ argv) (h : "--version" ∈ argv ∨ "-v" ∈ argv) :
    askedFor? argv = some .version := by
  simp [askedFor?, hhelp, h]

theorem askedFor?_of_neither (hhelp : "--help" ∉ argv ∧ "-h" ∉ argv) (hversion : "--version" ∉ argv ∧ "-v" ∉ argv) :
    askedFor? argv = none := by
  simp [askedFor?, hhelp, hversion]

theorem askedFor?_congr (h : ∀ s, s ∈ argv' ↔ s ∈ argv) : askedFor? argv' = askedFor? argv := by
  unfold askedFor?
  simp only [List.contains_eq_mem, h]

theorem parse_of_asked (h : askedFor? argv = some a) : parse argv = .ok a := by
  rw [parse, h]

theorem parse_of_not_asked (h : askedFor? argv = none) :
    parse argv = .ok a ↔ ∃ gs r, groups argv = .ok gs ∧ requestOf gs = .ok r ∧ .run r = a := by
  rw [parse, h]
  cases groups argv with
  | error m => simp [bind, Except.bind]
  | ok gs =>
      cases hrequest : requestOf gs with
      | error m => simp [bind, Except.bind, hrequest]
      | ok r => simp [bind, Except.bind, hrequest, pure, Except.pure]

theorem parse_eq_ok_iff : parse argv = .ok a ↔ Means argv a := by
  by_cases hhelp : "--help" ∈ argv ∨ "-h" ∈ argv
  · rw [parse_of_asked (askedFor?_of_help hhelp), Except.ok.injEq]
    constructor
    · rintro rfl
      exact .help hhelp
    · rintro (_ | ⟨hnot, -⟩ | ⟨hnot, -, -, -, -⟩)
      · rfl
      · exact absurd hhelp (not_or.2 hnot)
      · exact absurd hhelp (not_or.2 hnot)
  · have hhelp' := not_or.1 hhelp
    by_cases hversion : "--version" ∈ argv ∨ "-v" ∈ argv
    · rw [parse_of_asked (askedFor?_of_version hhelp' hversion), Except.ok.injEq]
      constructor
      · rintro rfl
        exact .version hhelp' hversion
      · rintro (h | _ | ⟨-, hnot, -, -, -⟩)
        · exact absurd h hhelp
        · rfl
        · exact absurd hversion (not_or.2 hnot)
    · have hversion' := not_or.1 hversion
      rw [parse_of_not_asked (askedFor?_of_neither hhelp' hversion')]
      constructor
      · rintro ⟨gs, r, hgroups, hrequest, rfl⟩
        obtain ⟨hwords, hfits⟩ := groups_eq_ok_iff.1 hgroups
        exact .run hhelp' hversion' hwords hfits (requestOf_eq_ok_iff_describes.1 hrequest)
      · rintro (h | ⟨-, h⟩ | ⟨-, -, hwords, hfits, h⟩)
        · exact absurd h hhelp
        · exact absurd h hversion
        · exact ⟨_, _, groups_eq_ok_iff.2 ⟨hwords, hfits⟩, requestOf_eq_ok_iff_describes.2 h, rfl⟩

/-- Groups may change places, so long as the values of each flag keep their order. -/
theorem parse_flatMap_words_of_perm {gs gs' : List Group} (hfits : ∀ g ∈ gs, g.Fits) (hperm : gs'.Perm gs)
    (hvalues : ∀ flag, valuesFor flag gs' = valuesFor flag gs) :
    parse (gs'.flatMap Group.words) = .ok a ↔ parse (gs.flatMap Group.words) = .ok a := by
  have hasked : askedFor? (gs'.flatMap Group.words) = askedFor? (gs.flatMap Group.words) :=
    askedFor?_congr fun s => (hperm.flatMap_right Group.words).mem_iff
  have hfits' : ∀ g ∈ gs', g.Fits := fun g hg => hfits g (hperm.mem_iff.1 hg)
  cases h : askedFor? (gs.flatMap Group.words) with
  | some b => rw [parse_of_asked h, parse_of_asked (hasked.trans h)]
  | none =>
      rw [parse_of_not_asked h, parse_of_not_asked (hasked.trans h), groups_flatMap_words hfits, groups_flatMap_words hfits']
      simp [requestOf_eq_ok_iff_of_perm hperm hvalues]

/-- An argument list is accepted just if it asks for help or for the version, or is written as groups that describe one
request, and then with that meaning; any other is refused. Neither changes if groups change places, so long as the values of
each flag keep their order. -/
theorem parse_accepts_groupings (argv : List String) :
    (∀ a, parse argv = .ok a ↔ Means argv a) ∧ ((∃ m, parse argv = .error m) ↔ ∀ a, ¬ Means argv a) ∧
      ∀ gs gs' : List Group, gs.flatMap Group.words = argv → (∀ g ∈ gs, g.Fits) → gs'.Perm gs →
        (∀ flag, valuesFor flag gs' = valuesFor flag gs) →
          ∀ a, parse (gs'.flatMap Group.words) = .ok a ↔ parse argv = .ok a := by
  refine ⟨fun a => parse_eq_ok_iff, ?_, ?_⟩
  · simp only [← parse_eq_ok_iff]
    cases parse argv <;> simp
  · rintro gs gs' rfl hfits hperm hvalues a
    exact parse_flatMap_words_of_perm hfits hperm hvalues

example : parse ["--base", "--verbose", "a", "--format", "xml", "--format", "json"] =
    .ok (.run { document := "a", base := some "--verbose", format := .json }) := by rfl

end accepting

end ScriptedText.CommandLine
