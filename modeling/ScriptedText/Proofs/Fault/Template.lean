import Mathlib.Data.List.Basic
import ScriptedText.Fault.Template
import ScriptedText.Value.Basic

/-!
Messages from templates. A template in which a brace opens that is never closed is given back as it is. Any other one
is read in one pass, and the values come in only afterwards, so that braces in them mean nothing.
-/

namespace ScriptedText.Value

/-- What a record itself has to say under a name. -/
def ownText? (fields : List (String × Value)) (name : String) : Option String :=
  match field? fields name with
  | none | some .undefined => none
  | some v => some v.display

theorem ne_empty_of_inheritedText? {name text : String} (h : inheritedText? name = some text) : text ≠ "" := by
  unfold inheritedText? at h
  split at h
  · cases h
    decide
  · split at h
    · cases h
      decide
    · split at h
      · cases h
        intro hempty
        have hlength := congrArg String.length hempty
        simp only [String.length_append] at hlength
        exact absurd hlength (by simp)
      · cases h

theorem textUnder?_eq (fields : List (String × Value)) (name : String) :
    textUnder? fields name = if field? fields name = none then inheritedText? name else ownText? fields name := by
  unfold textUnder? ownText?
  cases field? fields name with
  | none => rfl
  | some v => cases v <;> rfl

end ScriptedText.Value

namespace ScriptedText.Template

/-- What a template holds: characters that stand for themselves, and placeholders. -/
inductive Item
  | char (c : Char)
  | placeholder (name : String)
  deriving DecidableEq, Repr

/-- The items of a template from left to right. A brace right before another one stands for itself; any other one opens
a placeholder, whose name goes on to the next closing brace. -/
inductive Reads : List Char → List Item → Prop
  | nil : Reads [] []
  | doubled {rest : List Char} {items : List Item} (h : Reads ('\x7b' :: rest) items) :
      Reads ('\x7b' :: '\x7b' :: rest) (.char '\x7b' :: items)
  | copied {c : Char} {rest : List Char} {items : List Item} (hc : c ≠ '\x7b') (h : Reads rest items) :
      Reads (c :: rest) (.char c :: items)
  | placeholder {name rest : List Char} {items : List Item} (hopen : name.head? ≠ some '\x7b') (hname : '\x7d' ∉ name)
      (h : Reads rest items) :
      Reads ('\x7b' :: (name ++ '\x7d' :: rest)) (.placeholder (String.ofList name) :: items)

/-- A brace opens, and no closing one comes after it. -/
def Dangles (cs : List Char) : Prop := ∃ before after, cs = before ++ '\x7b' :: after ∧ '\x7d' ∉ after

/-- What is written for an item. A placeholder without a value leaves nothing. -/
def Item.expand (value : String → Option String) : Item → List Char
  | .char c => [c]
  | .placeholder name => ((value name).getD "").toList

def expansion (value : String → Option String) (items : List Item) : List Char := items.flatMap (Item.expand value)

variable {value : String → Option String} {c : Char} {cs name rest : List Char} {items items' : List Item}

theorem not_dangles_nil : ¬ Dangles [] := by
  rintro ⟨before, after, h, -⟩
  simp at h

theorem dangles_cons : Dangles (c :: cs) ↔ (c = '\x7b' ∧ '\x7d' ∉ cs) ∨ Dangles cs := by
  constructor
  · rintro ⟨before, after, h, hafter⟩
    cases before with
    | nil =>
        cases h
        exact .inl ⟨rfl, hafter⟩
    | cons x before =>
        cases h
        exact .inr ⟨before, after, rfl, hafter⟩
  · rintro (⟨rfl, hcs⟩ | ⟨before, after, rfl, hafter⟩)
    · exact ⟨[], cs, rfl, hcs⟩
    · exact ⟨c :: before, after, rfl, hafter⟩

/-- Inside a placeholder everything hangs on its closing brace, and on what follows that. -/
theorem expandFrom_eq_none_iff (state : Option (List Char)) (cs : List Char) :
    expandFrom value state cs = none ↔ (state.isSome = true ∧ '\x7d' ∉ cs) ∨ Dangles cs := by
  fun_induction expandFrom value state cs with
  | case7 name c rest hc ih =>
      have hclose : '\x7d' ∉ c :: rest ↔ '\x7d' ∉ rest := by simp [Ne.symm hc]
      rw [ih, dangles_cons, hclose]
      tauto
  | _ => simp_all [dangles_cons, not_dangles_nil]

theorem expandFrom_name (hname : '\x7d' ∉ name) (start rest : List Char) :
    expandFrom value (some start) (name ++ '\x7d' :: rest) =
      (expandFrom value none rest).map
        (((value (String.ofList (start.reverse ++ name))).getD "").toList ++ ·) := by
  induction name generalizing start with
  | nil => simp [expandFrom]
  | cons c name ih =>
      obtain ⟨hc, hname⟩ := not_or.1 (List.mem_cons.not.1 hname)
      rw [List.cons_append, expandFrom.eq_7 _ _ _ _ (Ne.symm hc), ih hname]
      simp

theorem expandFrom_open (hopen : rest.head? ≠ some '\x7b') :
    expandFrom value none ('\x7b' :: rest) = expandFrom value (some []) rest := by
  cases rest with
  | nil => rfl
  | cons c rest =>
      have hc : c ≠ '\x7b' := fun h => hopen (congrArg some h)
      simp [expandFrom, hc]

theorem head?_append_close (hopen : name.head? ≠ some '\x7b') : (name ++ '\x7d' :: rest).head? ≠ some '\x7b' := by
  cases name with
  | nil => simp
  | cons c name => exact hopen

theorem expand_of_reads (h : Reads cs items) : expand value cs = some (expansion value items) := by
  unfold expand
  induction h with
  | nil => rfl
  | doubled _ ih => simp [expandFrom, ih, expansion, Item.expand]
  | copied hc _ ih => simp [expandFrom, hc, ih, expansion, Item.expand]
  | @placeholder name rest items hopen hname _ ih =>
      rw [expandFrom_open (head?_append_close hopen), expandFrom_name hname, ih]
      rfl

theorem exists_reads (h : ¬ Dangles cs) : ∃ items, Reads cs items := by
  induction hlength : cs.length using Nat.strongRecOn generalizing cs with
  | ind n ih =>
    subst hlength
    cases cs with
    | nil => exact ⟨[], .nil⟩
    | cons c rest =>
        obtain ⟨hclosed, hrest⟩ := not_or.1 (dangles_cons.not.1 h)
        by_cases hc : c = '\x7b'
        · subst hc
          have hmem : '\x7d' ∈ rest := Classical.not_not.1 fun hn => hclosed ⟨rfl, hn⟩
          obtain ⟨name, rest', rfl, hname⟩ := List.eq_append_cons_of_mem hmem
          by_cases hopen : name.head? = some '\x7b'
          · obtain ⟨name', rfl⟩ := List.head?_eq_some_iff.1 hopen
            obtain ⟨items, hitems⟩ := ih _ (by simp) hrest rfl
            exact ⟨_, .doubled hitems⟩
          · have htail : ¬ Dangles rest' := by
              rintro ⟨before, after, rfl, hafter⟩
              exact hrest ⟨name ++ '\x7d' :: before, after, by simp, hafter⟩
            obtain ⟨items, hitems⟩ := ih rest'.length (by simp; omega) htail rfl
            exact ⟨_, .placeholder hopen hname hitems⟩
        · obtain ⟨items, hitems⟩ := ih rest.length (by simp) hrest rfl
          exact ⟨_, .copied hc hitems⟩

theorem Reads.cons_cases (h : Reads (c :: rest) items) :
    (∃ items', c = '\x7b' ∧ rest.head? = some '\x7b' ∧ items = .char '\x7b' :: items' ∧ Reads rest items') ∨
      (∃ items', c ≠ '\x7b' ∧ items = .char c :: items' ∧ Reads rest items') ∨
      ∃ name rest' items', c = '\x7b' ∧ rest = name ++ '\x7d' :: rest' ∧ name.head? ≠ some '\x7b' ∧ '\x7d' ∉ name ∧
        items = .placeholder (String.ofList name) :: items' ∧ Reads rest' items' := by
  generalize hcs : c :: rest = cs at h
  cases h with
  | nil => cases hcs
  | doubled h =>
      cases hcs
      exact .inl ⟨_, rfl, rfl, rfl, h⟩
  | copied hc h =>
      cases hcs
      exact .inr (.inl ⟨_, hc, rfl, h⟩)
  | placeholder hopen hname h =>
      cases hcs
      exact .inr (.inr ⟨_, _, _, rfl, rfl, hopen, hname, rfl, h⟩)

/-- A name ends at the first closing brace. -/
theorem close_inj {name' rest' : List Char} (hname : '\x7d' ∉ name) (hname' : '\x7d' ∉ name')
    (h : name ++ '\x7d' :: rest = name' ++ '\x7d' :: rest') : name = name' ∧ rest = rest' := by
  have htake (n r : List Char) (hn : '\x7d' ∉ n) : (n ++ '\x7d' :: r).takeWhile (· ≠ '\x7d') = n := by
    have hpass : ∀ c ∈ n, decide (c ≠ '\x7d') = true := by
      rintro c hc
      exact decide_eq_true fun heq => hn (heq ▸ hc)
    rw [List.takeWhile_append_of_pos hpass]
    simp
  obtain rfl : name = name' := by rw [← htake name rest hname, h, htake name' rest' hname']
  exact ⟨rfl, by simpa using h⟩

theorem Reads.unique (h : Reads cs items) (h' : Reads cs items') : items' = items := by
  induction h generalizing items' with
  | nil =>
      cases h'
      rfl
  | doubled _ ih =>
      rcases h'.cons_cases with ⟨items', -, -, rfl, hrest⟩ | ⟨items', hc, -, -⟩ | ⟨name, rest', items', -, heq, hopen, -, -, -⟩
      · rw [ih hrest]
      · exact absurd rfl hc
      · exact absurd (congrArg List.head? heq).symm (head?_append_close hopen)
  | copied hc _ ih =>
      rcases h'.cons_cases with ⟨items', rfl, -, -, -⟩ | ⟨items', -, rfl, hrest⟩ | ⟨name, rest', items', rfl, -, -, -, -, -⟩
      · exact absurd rfl hc
      · rw [ih hrest]
      · exact absurd rfl hc
  | placeholder hopen hname _ ih =>
      rcases h'.cons_cases with ⟨items', -, hhead, -, -⟩ | ⟨items', hc, -, -⟩ |
        ⟨name', rest', items', -, heq, -, hname', rfl, hrest⟩
      · exact absurd hhead (head?_append_close hopen)
      · exact absurd rfl hc
      · obtain ⟨rfl, rfl⟩ := close_inj hname hname' heq
        rw [ih hrest]

/-- Texts of which none is put in the place of a longer one come to the same only where each is the same. -/
theorem flatMap_eq_iff {α : Type} {f g : α → List Char} {l : List α}
    (h : ∀ a ∈ l, f a = g a ∨ (g a).length < (f a).length) : l.flatMap f = l.flatMap g ↔ ∀ a ∈ l, f a = g a := by
  have hlength (l : List α) (h : ∀ a ∈ l, f a = g a ∨ (g a).length < (f a).length) :
      (l.flatMap g).length ≤ (l.flatMap f).length := by
    induction l with
    | nil => exact Nat.le_refl _
    | cons a l ih =>
        obtain ⟨ha, hl⟩ := List.forall_mem_cons.1 h
        have hrest := ih hl
        simp only [List.flatMap_cons, List.length_append]
        rcases ha with ha | ha
        · rw [ha]
          omega
        · omega
  induction l with
  | nil => simp
  | cons a l ih =>
      obtain ⟨ha, hl⟩ := List.forall_mem_cons.1 h
      simp only [List.flatMap_cons, List.forall_mem_cons, ← ih hl]
      constructor
      · intro heq
        rcases ha with ha | ha
        · rw [ha] at heq
          exact ⟨ha, List.append_cancel_left heq⟩
        · have hlengths := congrArg List.length heq
          have hrest := hlength l hl
          simp only [List.length_append] at hlengths
          omega
      · rintro ⟨ha, hrest⟩
        rw [ha, hrest]

theorem expand_eq_or_lt (fields : List (String × Value)) (item : Item) :
    item.expand (Value.textUnder? fields) = item.expand (Value.ownText? fields) ∨
      (item.expand (Value.ownText? fields)).length < (item.expand (Value.textUnder? fields)).length := by
  cases item with
  | char c => exact .inl rfl
  | placeholder name =>
      simp only [Item.expand, Value.textUnder?_eq]
      by_cases hfield : Value.field? fields name = none
      · have hown : Value.ownText? fields name = none := by simp [Value.ownText?, hfield]
        rw [if_pos hfield, hown]
        cases htext : Value.inheritedText? name with
        | none => exact .inl rfl
        | some text =>
            have hne : text.toList ≠ [] := String.toList_eq_nil_iff.not.2 (Value.ne_empty_of_inheritedText? htext)
            exact .inr (List.length_pos_iff.2 hne)
      · exact .inl (by rw [if_neg hfield])

/-- A placeholder gets what the record has to say, unless the record lacks the name and answers all the same. -/
theorem expand_eq_iff (fields : List (String × Value)) (item : Item) :
    item.expand (Value.textUnder? fields) = item.expand (Value.ownText? fields) ↔
      ∀ name, item = .placeholder name → Value.field? fields name = none → Value.inheritedText? name = none := by
  cases item with
  | char c => simp [Item.expand]
  | placeholder name =>
      simp only [Item.expand, Value.textUnder?_eq, Item.placeholder.injEq, forall_eq']
      by_cases hfield : Value.field? fields name = none
      · have hown : Value.ownText? fields name = none := by simp [Value.ownText?, hfield]
        rw [if_pos hfield, hown]
        cases htext : Value.inheritedText? name with
        | none => simp
        | some text => simpa [hfield] using Value.ne_empty_of_inheritedText? htext
      · simp [hfield]

/-- A template whose last opening brace is followed by no closing one is given back. Any other has one reading, and gets
the values of its placeholders in one pass; these are what the record of details itself has, if and only if no placeholder
names something that the record lacks and answers all the same. -/
theorem message_is_expansion (fields : List (String × Value)) (template : String) :
    (Dangles template.toList ∧ render (Value.textUnder? fields) template = template) ∨
      (¬ Dangles template.toList ∧ ∃ items, (∀ items', Reads template.toList items' ↔ items' = items) ∧
        render (Value.textUnder? fields) template = String.ofList (expansion (Value.textUnder? fields) items) ∧
        (render (Value.textUnder? fields) template = String.ofList (expansion (Value.ownText? fields) items) ↔
          ∀ name, .placeholder name ∈ items → Value.field? fields name = none → Value.inheritedText? name = none)) := by
  by_cases hdangles : Dangles template.toList
  · refine .inl ⟨hdangles, ?_⟩
    have hnone : expand (Value.textUnder? fields) template.toList = none :=
      (expandFrom_eq_none_iff none _).2 (.inr hdangles)
    rw [render, hnone]
  · obtain ⟨items, hreads⟩ := exists_reads hdangles
    have hrender : render (Value.textUnder? fields) template =
        String.ofList (expansion (Value.textUnder? fields) items) := by
      rw [render, expand_of_reads hreads]
    refine .inr ⟨hdangles, items, fun items' => ⟨hreads.unique, fun h => h ▸ hreads⟩, hrender, ?_⟩
    rw [hrender, String.ofList_inj]
    calc expansion (Value.textUnder? fields) items = expansion (Value.ownText? fields) items
        ↔ ∀ item ∈ items, item.expand (Value.textUnder? fields) = item.expand (Value.ownText? fields) :=
          flatMap_eq_iff fun item _ => expand_eq_or_lt fields item
      _ ↔ ∀ name, .placeholder name ∈ items → Value.field? fields name = none → Value.inheritedText? name = none := by
          simp only [expand_eq_iff]
          constructor
          · exact fun h name hmem => h _ hmem name rfl
          · rintro h item hmem name rfl
            exact h name hmem

-- The record has no such value, but answers with the routine that every record has.
example : render (Value.textUnder? []) "[\x7bconstructor\x7d]" = "[function Object() \x7b [native code] \x7d]" := by
  decide +kernel

end ScriptedText.Template
