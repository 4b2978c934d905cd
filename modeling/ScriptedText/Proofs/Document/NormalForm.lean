import Mathlib.Data.List.Chain
import Mathlib.Data.List.Forall2
import Mathlib.Data.List.TakeWhile
import ScriptedText.Document.Collapse
import ScriptedText.Language.Registry

/-!
Collapsed segments are in normal form: nothing in them can be put together any more. Each stands for a run of the
segments that were there before, and literals in front of the first program are only put next to each other.
-/

namespace ScriptedText

section gluing

variable {absorb : Segment → Segment → Option Segment} {P : Segment → Prop} {a b c current : Segment}
  {l xs rest : List Segment}

/-- What takes up a neighbour stays what it is, with more text. -/
def Appends (absorb : Segment → Segment → Option Segment) : Prop :=
  ∀ a b c, absorb a b = some c → ∃ text, c = a.append text

theorem Segment.append_empty (a : Segment) : a.append "" = a := by
  simp [Segment.append]

theorem Segment.append_append (a : Segment) (s t : String) : (a.append s).append t = a.append (s ++ t) := by
  simp [Segment.append, String.append_assoc]

theorem glue_of_isChain (h : l.IsChain fun a b => absorb a b = none) : glue absorb l = l := by
  cases l with
  | nil => rfl
  | cons current rest =>
      simp only [glue]
      induction rest generalizing current with
      | nil => rfl
      | cons s rest ih =>
          obtain ⟨hs, hrest⟩ := List.isChain_cons_cons.1 h
          simp [glueFrom, hs, ih s hrest]

/-- What stops the gluing parts the list: neither side knows of the other. -/
theorem glueFrom_append (hP : ∀ a b c, P a → P b → absorb a b = some c → P c) (hcurrent : P current)
    (hxs : ∀ x ∈ xs, P x) (hstop : ∀ a, P a → ∀ s ∈ rest.head?, absorb a s = none) :
    glueFrom absorb current (xs ++ rest) = glueFrom absorb current xs ++ glue absorb rest := by
  induction xs generalizing current with
  | nil =>
      cases rest with
      | nil => simp [glueFrom, glue]
      | cons s rest => simp [glueFrom, glue, hstop current hcurrent s rfl]
  | cons x xs ih =>
      have hx : P x := hxs x (List.mem_cons_self ..)
      have hrest : ∀ y ∈ xs, P y := fun y hy => hxs y (List.mem_cons_of_mem _ hy)
      cases hc : absorb current x with
      | none => simp [glueFrom, hc, ih hx hrest]
      | some c => simp [glueFrom, hc, ih (hP current x c hcurrent hx hc) hrest]

theorem glue_append (hP : ∀ a b c, P a → P b → absorb a b = some c → P c) (hxs : ∀ x ∈ xs, P x)
    (hstop : ∀ a, P a → ∀ s ∈ rest.head?, absorb a s = none) :
    glue absorb (xs ++ rest) = glue absorb xs ++ glue absorb rest := by
  cases xs with
  | nil => rfl
  | cons x xs =>
      apply glueFrom_append hP (hxs x (List.mem_cons_self ..)) _ hstop
      intro y hy
      exact hxs y (List.mem_cons_of_mem _ hy)

theorem forall_glue (hP : ∀ a b c, P a → P b → absorb a b = some c → P c) (hl : ∀ x ∈ l, P x) :
    ∀ x ∈ glue absorb l, P x := by
  cases l with
  | nil => exact hl
  | cons current rest =>
      simp only [glue]
      induction rest generalizing current with
      | nil => simpa [glueFrom] using hl
      | cons s rest ih =>
          simp only [List.forall_mem_cons] at hl ih
          obtain ⟨hcurrent, hs, hrest⟩ := hl
          cases hc : absorb current s with
          | none => simpa [glueFrom, hc, hcurrent] using ih s ⟨hs, hrest⟩
          | some c => simpa [glueFrom, hc] using ih c ⟨hP current s c hcurrent hs hc, hrest⟩

/-! Runs. -/

/-- A run has become one segment: the first of it, with more text. -/
def Became (run : List Segment) (s : Segment) : Prop :=
  ∃ first others text, run = first :: others ∧ s = first.append text

/-- The one list is what the consecutive runs of the other have become. -/
def Gathers (segments gathered : List Segment) : Prop :=
  ∃ runs : List (List Segment), runs.flatten = segments ∧ List.Forall₂ Became runs gathered

/-- Gluing grows the segment at hand over the front of the rest, and goes on behind it. -/
theorem exists_glueFrom_eq (h : Appends absorb) (current : Segment) (rest : List Segment) :
    ∃ text tail others, ∃ runs : List (List Segment), glueFrom absorb current rest = current.append text :: tail ∧
      others ++ runs.flatten = rest ∧ List.Forall₂ Became runs tail := by
  induction rest generalizing current with
  | nil => exact ⟨"", [], [], [], by simp [glueFrom, Segment.append_empty], rfl, .nil⟩
  | cons s rest ih =>
      cases hs : absorb current s with
      | none =>
          obtain ⟨text, tail, others, runs, htail, hrest, hruns⟩ := ih s
          refine ⟨"", s.append text :: tail, [], (s :: others) :: runs, ?_, ?_, .cons ⟨s, others, text, rfl, rfl⟩ hruns⟩
          · simp [glueFrom, hs, htail, Segment.append_empty]
          · simp [← hrest]
      | some c =>
          obtain ⟨text, rfl⟩ := h current s c hs
          obtain ⟨text', tail, others, runs, htail, hrest, hruns⟩ := ih (current.append text)
          refine ⟨text ++ text', tail, s :: others, runs, ?_, ?_, hruns⟩
          · simp [glueFrom, hs, htail, Segment.append_append]
          · simp [hrest]

theorem gathers_glue (h : Appends absorb) (l : List Segment) : Gathers l (glue absorb l) := by
  cases l with
  | nil => exact ⟨[], rfl, .nil⟩
  | cons current rest =>
      obtain ⟨text, tail, others, runs, htail, hrest, hruns⟩ := exists_glueFrom_eq h current rest
      refine ⟨(current :: others) :: runs, by simp [← hrest], ?_⟩
      rw [glue, htail]
      exact .cons ⟨current, others, text, rfl, rfl⟩ hruns

section apart

variable (h : Appends absorb) (hstable : ∀ a b text, absorb a b = none → absorb a (b.append text) = none)

include h hstable in
theorem isChain_glueFrom (current : Segment) (rest : List Segment) :
    (glueFrom absorb current rest).IsChain fun a b => absorb a b = none := by
  induction rest generalizing current with
  | nil => simp [glueFrom]
  | cons s rest ih =>
      cases hs : absorb current s with
      | some c =>
          simp only [glueFrom, hs]
          exact ih c
      | none =>
          obtain ⟨text, tail, -, -, htail, -⟩ := exists_glueFrom_eq h s rest
          have hchain := ih s
          simp only [glueFrom, hs]
          rw [htail] at hchain ⊢
          exact List.isChain_cons_cons.2 ⟨hstable current s text hs, hchain⟩

end apart

theorem Gathers.trans {l m n : List Segment} (h : Gathers l m) (h' : Gathers m n) : Gathers l n := by
  obtain ⟨runs', hflat', hruns'⟩ := h'
  induction hruns' generalizing l m with
  | nil =>
      obtain ⟨runs, hflat, hruns⟩ := h
      simp only [List.flatten_nil] at hflat'
      subst hflat'
      cases hruns
      exact ⟨[], hflat, .nil⟩
  | @cons run s runs' n hs _ ih =>
      obtain ⟨runs, hflat, hruns⟩ := h
      rw [← hflat', List.flatten_cons] at hruns
      have hfront := List.forall₂_take_append runs run runs'.flatten hruns
      obtain ⟨later, hlater, hn⟩ := ih ⟨_, rfl, List.forall₂_drop_append runs run runs'.flatten hruns⟩ rfl
      obtain ⟨first, others, text, rfl, rfl⟩ := hs
      -- the first run of the first pass holds the first segment of the new run
      cases hfirst : runs.take (first :: others).length with
      | nil =>
          rw [hfirst] at hfront
          cases hfront
      | cons inner inners =>
          rw [hfirst] at hfront
          obtain ⟨⟨x, ys, text', rfl, rfl⟩, -⟩ := List.forall₂_cons.1 hfront
          refine ⟨((x :: ys) :: inners).flatten :: later, ?_, .cons ?_ hn⟩
          · rw [List.flatten_cons, hlater, ← hfirst, ← hflat, ← List.flatten_append, List.take_append_drop]
          · exact ⟨x, ys ++ inners.flatten, text' ++ text, by simp, x.append_append text' text⟩

theorem Gathers.isProgram_head? {l m : List Segment} (h : Gathers l m) :
    m.head?.map Segment.isProgram = l.head?.map Segment.isProgram := by
  obtain ⟨runs, rfl, hruns⟩ := h
  cases hruns with
  | nil => rfl
  | cons hrun _ =>
      obtain ⟨first, others, text, rfl, rfl⟩ := hrun
      rfl

end gluing

/-! The two rules. -/

section rules

variable {forms : FormTable} {a b c current : Segment} {l rest : List Segment}

theorem appends_joinAlike : Appends Segment.joinAlike := by
  intro a b c h
  simp only [Segment.joinAlike] at h
  split at h
  · exact ⟨b.text, (Option.some.inj h).symm⟩
  · cases h

theorem appends_takeUp (forms : FormTable) : Appends (Segment.takeUp forms) := by
  intro a b c h
  simp only [Segment.takeUp] at h
  split at h
  · split at h
    · exact ⟨b.text, (Option.some.inj h).symm⟩
    · obtain ⟨f, -, rfl⟩ := Option.map_eq_some_iff.1 h
      exact ⟨f.literal b.text, rfl⟩
  · cases h

theorem joinAlike_eq_none_iff : a.joinAlike b = none ↔ ¬ (a.isProgram = b.isProgram ∧ a.tag = b.tag) := by
  simp [Segment.joinAlike]

theorem takeUp_eq_none_iff : a.takeUp forms b = none ↔
    ¬ (a.isProgram = true ∧ a.tag = b.tag ∧ (b.isProgram = true ∨ (forms b.tag).isSome = true)) := by
  simp only [Segment.takeUp]
  split
  · next h =>
      obtain ⟨hprogram, htag⟩ := h
      split
      · next hb => simp [hprogram, htag, hb]
      · next hb => simp [hprogram, htag, hb]
  · next h => simpa using fun hprogram htag => absurd ⟨hprogram, htag⟩ h

theorem takeUp_of_literal (ha : a.isProgram = false) : a.takeUp forms b = none := by
  simp [takeUp_eq_none_iff, ha]

theorem isProgram_of_takeUp (h : a.takeUp forms b = some c) : c.isProgram = true := by
  have ha : a.isProgram = true := by
    by_contra hn
    rw [takeUp_of_literal (Bool.not_eq_true _ ▸ hn)] at h
    cases h
  obtain ⟨text, rfl⟩ := appends_takeUp forms a b c h
  exact ha

/-- What neither pass puts together: two of a kind and tag, or a program and a literal of its tag for which there is an
adapter. -/
def Segment.Apart (r : Registry) (a b : Segment) : Prop :=
  ¬ (a.isProgram = b.isProgram ∧ a.tag = b.tag) ∧
    ¬ (a.isProgram = true ∧ b.isProgram = false ∧ a.tag = b.tag ∧ (r.adapterForTag? a.tag).isSome = true)

theorem Segment.apart_iff {r : Registry} {exposed : String} :
    Segment.Apart r a b ↔ a.joinAlike b = none ∧ a.takeUp (r.forms exposed) b = none := by
  rw [joinAlike_eq_none_iff, takeUp_eq_none_iff]
  cases ha : a.isProgram <;> cases hb : b.isProgram <;> by_cases ht : a.tag = b.tag <;>
    simp [Segment.Apart, Registry.forms, ha, hb, ht]

/-- A literal is refused by what it follows in the list that is folded, and a program by every program of another tag:
so no two segments that the first pass keeps apart come to be neighbours of a kind and tag. -/
theorem isChain_takeUpFrom (hrest : rest.IsChain fun a b => a.joinAlike b = none)
    (hcurrent : current.isProgram = true ∨ ∀ s ∈ rest.head?, current.joinAlike s = none) :
    (glueFrom (Segment.takeUp forms) current rest).IsChain fun a b => a.joinAlike b = none := by
  induction rest generalizing current with
  | nil => simp [glueFrom]
  | cons s rest ih =>
      have htail := hrest.tail
      cases hs : current.takeUp forms s with
      | some c =>
          simp only [glueFrom, hs]
          exact ih htail (.inl (isProgram_of_takeUp hs))
      | none =>
          obtain ⟨text, tail, -, -, hglued, -⟩ := exists_glueFrom_eq (appends_takeUp forms) s rest
          have hchain := @ih s htail (.inr fun x hx => ?_)
          · simp only [glueFrom, hs]
            rw [hglued] at hchain ⊢
            refine List.isChain_cons_cons.2 ⟨?_, hchain⟩
            rw [joinAlike_eq_none_iff]
            rintro ⟨hkind, htag⟩
            change current.isProgram = s.isProgram at hkind
            change current.tag = s.tag at htag
            rcases hcurrent with hprogram | hnext
            · exact takeUp_eq_none_iff.1 hs ⟨hprogram, htag, .inl (hkind ▸ hprogram)⟩
            · exact joinAlike_eq_none_iff.1 (hnext s rfl) ⟨hkind, htag⟩
          · cases rest with
            | nil => cases hx
            | cons y rest =>
                cases hx
                exact (List.isChain_cons_cons.1 hrest).1

theorem isChain_mergeAdjacent (l : List Segment) : (mergeAdjacent l).IsChain fun a b => a.joinAlike b = none := by
  cases l with
  | nil => simp [mergeAdjacent, glue]
  | cons s rest =>
      apply isChain_glueFrom appends_joinAlike
      intro a b text h
      rw [joinAlike_eq_none_iff] at h ⊢
      exact h

theorem isChain_foldLiterals (l : List Segment) :
    (foldLiterals forms l).IsChain fun a b => a.takeUp forms b = none := by
  cases l with
  | nil => simp [foldLiterals, glue]
  | cons s rest =>
      apply isChain_glueFrom (appends_takeUp forms)
      intro a b text h
      rw [takeUp_eq_none_iff] at h ⊢
      exact h

theorem isChain_collapse (l : List Segment) : (collapse forms l).IsChain fun a b => a.joinAlike b = none := by
  have hmerged := isChain_mergeAdjacent l
  simp only [collapse, foldLiterals]
  cases hl : mergeAdjacent l with
  | nil => simp [glue]
  | cons s rest =>
      rw [hl] at hmerged
      refine isChain_takeUpFrom hmerged.tail (.inr fun x hx => ?_)
      cases rest with
      | nil => cases hx
      | cons y rest =>
          cases hx
          exact (List.isChain_cons_cons.1 hmerged).1

theorem gathers_collapse (l : List Segment) : Gathers l (collapse forms l) :=
  (gathers_glue appends_joinAlike l).trans (gathers_glue (appends_takeUp forms) (mergeAdjacent l))

theorem joinAlike_literals (a b c : Segment) (ha : a.isProgram = false) (_ : b.isProgram = false)
    (h : a.joinAlike b = some c) : c.isProgram = false := by
  obtain ⟨text, rfl⟩ := appends_joinAlike a b c h
  exact ha

theorem forall_mergeAdjacent_literals (hl : ∀ s ∈ l, s.isProgram = false) :
    ∀ s ∈ mergeAdjacent l, s.isProgram = false := forall_glue joinAlike_literals hl

theorem foldLiterals_literals (hl : ∀ s ∈ l, s.isProgram = false) : foldLiterals forms l = l := by
  apply glue_of_isChain
  induction l with
  | nil => simp
  | cons s rest ih =>
      simp only [List.forall_mem_cons] at hl
      cases rest with
      | nil => simp
      | cons x rest => exact List.isChain_cons_cons.2 ⟨takeUp_of_literal hl.1, ih hl.2⟩

theorem collapse_append (literals rest : List Segment) (hl : ∀ s ∈ literals, s.isProgram = false)
    (hrest : ∀ s ∈ rest.head?, s.isProgram = true) :
    collapse forms (literals ++ rest) = mergeAdjacent literals ++ collapse forms rest := by
  have hmerge : mergeAdjacent (literals ++ rest) = mergeAdjacent literals ++ mergeAdjacent rest := by
    apply glue_append joinAlike_literals hl
    intro a ha s hs
    simp [joinAlike_eq_none_iff, ha, hrest s hs]
  have hmerged := forall_mergeAdjacent_literals hl
  have hfold : foldLiterals forms (mergeAdjacent literals ++ mergeAdjacent rest) =
      foldLiterals forms (mergeAdjacent literals) ++ foldLiterals forms (mergeAdjacent rest) := by
    apply glue_append (P := fun s => s.isProgram = false) _ hmerged
    · intro a ha s _
      exact takeUp_of_literal ha
    · intro a b c ha _ h
      rw [takeUp_of_literal ha] at h
      cases h
  simp only [collapse, hmerge, hfold, foldLiterals_literals hmerged]

/-- Texts that are only put next to each other stay the same in all. -/
theorem join_text_mergeAdjacent (l : List Segment) :
    String.join ((mergeAdjacent l).map Segment.text) = String.join (l.map Segment.text) := by
  cases l with
  | nil => rfl
  | cons current rest =>
      simp only [mergeAdjacent, glue]
      induction rest generalizing current with
      | nil => rfl
      | cons s rest ih =>
          cases hs : current.joinAlike s with
          | none =>
              have h := ih s
              simp only [List.map_cons, String.join_cons] at h
              simp only [glueFrom, hs, List.map_cons, String.join_cons, h]
          | some c =>
              obtain rfl : c = current.append s.text := by
                simp only [Segment.joinAlike] at hs
                split at hs
                · exact (Option.some.inj hs).symm
                · cases hs
              rw [glueFrom, hs, ih (current.append s.text)]
              simp [Segment.append, String.append_assoc]

theorem forall_takeWhile_literal (l : List Segment) : ∀ s ∈ l.takeWhile (!·.isProgram), s.isProgram = false := by
  intro s hs
  simpa using List.mem_takeWhile_imp hs

theorem head?_dropWhile_literal (l : List Segment) : ∀ s ∈ (l.dropWhile (!·.isProgram)).head?, s.isProgram = true := by
  intro s hs
  have h := List.head?_dropWhile_not (!·.isProgram) l
  rw [Option.mem_def.1 hs] at h
  simpa using h

/-- Collapsed segments have no two neighbours that could still be put together, and collapsing them again changes nothing.
Each of them is the first segment of a run with more text, and the runs are the segments from before. What stands before
the first program is only merged: it stays literal, with the same text, and the rest is collapsed by itself. -/
theorem collapse_is_normal (r : Registry) (exposed : String) (segments : List Segment) :
    (collapse (r.forms exposed) segments).IsChain (Segment.Apart r) ∧
      collapse (r.forms exposed) (collapse (r.forms exposed) segments) = collapse (r.forms exposed) segments ∧
      (∃ runs : List (List Segment), runs.flatten = segments ∧
        List.Forall₂ Became runs (collapse (r.forms exposed) segments)) ∧
      (collapse (r.forms exposed) segments).head?.map Segment.isProgram = segments.head?.map Segment.isProgram ∧
      collapse (r.forms exposed) segments =
        mergeAdjacent (segments.takeWhile (!·.isProgram)) ++
          collapse (r.forms exposed) (segments.dropWhile (!·.isProgram)) ∧
      (∀ s ∈ mergeAdjacent (segments.takeWhile (!·.isProgram)), s.isProgram = false) ∧
      String.join ((mergeAdjacent (segments.takeWhile (!·.isProgram))).map Segment.text) =
        String.join ((segments.takeWhile (!·.isProgram)).map Segment.text) := by
  have hmerged : (collapse (r.forms exposed) segments).IsChain fun a b => a.joinAlike b = none := isChain_collapse segments
  have hfolded : (collapse (r.forms exposed) segments).IsChain fun a b => a.takeUp (r.forms exposed) b = none :=
    isChain_foldLiterals (mergeAdjacent segments)
  have hfront := forall_takeWhile_literal segments
  have hsplit := @collapse_append (r.forms exposed) _ _ hfront (head?_dropWhile_literal segments)
  rw [List.takeWhile_append_dropWhile] at hsplit
  have hagain : collapse (r.forms exposed) (collapse (r.forms exposed) segments) =
      collapse (r.forms exposed) segments := by
    have hmerge : mergeAdjacent (collapse (r.forms exposed) segments) = collapse (r.forms exposed) segments :=
      glue_of_isChain hmerged
    rw [collapse, hmerge]
    exact glue_of_isChain hfolded
  have hruns : Gathers segments (collapse (r.forms exposed) segments) := gathers_collapse segments
  refine ⟨?_, hagain, hruns, hruns.isProgram_head?, hsplit, forall_mergeAdjacent_literals hfront, join_text_mergeAdjacent _⟩
  rw [List.isChain_iff_getElem] at hmerged hfolded ⊢
  intro i hi
  exact Segment.apart_iff.2 ⟨hmerged i hi, hfolded i hi⟩

-- The leading literals are merged and stay text; the one behind the program is folded into it.
example : collapse (fun _ => some ⟨fun t => "print " ++ t ++ ";", id, id⟩)
    [⟨false, "a", 1, 1, "x"⟩, ⟨false, "a", 1, 2, "y"⟩, ⟨true, "a", 1, 3, "nop;"⟩, ⟨false, "a", 1, 12, "z"⟩] =
      [⟨false, "a", 1, 1, "xy"⟩, ⟨true, "a", 1, 3, "nop;print z;"⟩] := by decide +kernel

end rules

end ScriptedText
