import ScriptedText.Proofs.Document.NormalForm
import ScriptedText.Proofs.Language.Scripting.Output

/-!
What texts that print come to where they are put together. A text that is a program by itself is the same behind another one
where that one leaves off at the start of a statement, none where both would print on one line, and something else where that
one has left a comment open.
-/

namespace ScriptedText.Scripting

variable {p q : Place} {cs ds : List Char} {es fs : List Expr} {e : Expr}

/-! ### Forms -/

/-- The form of an expression that is a sum. -/
theorem prints_expression {before after : List Char} {text : String} (hbefore : Gap before) (h : IsSum false cs e)
    (hafter : Gap after) (htext : text.toList = before ++ cs ++ after) (exposed : String) :
    Prints .ready ((forms exposed).expression text).toList [e] .ready := by
  have hform : ((forms exposed).expression text).toList =
      ("print".toList ++ [] ++ '(' :: before ++ cs ++ after ++ [')']) ++ [';'] := by
    change ("print(" ++ text ++ ");").toList = _
    simp [htext]
  rw [hform]
  exact .call (.print .nil hbefore h hafter) (.semicolon nofun (.nil _))

theorem length_le_escaped (cs : List Char) : cs.length ≤ (cs.flatMap Text.escape).length := by
  induction cs with
  | nil => exact Nat.zero_le _
  | cons c cs ih =>
      have hc : 0 < (Text.escape c).length := by
        unfold Text.escape
        split_ifs <;> exact Nat.succ_pos _
      simp only [List.flatMap_cons, List.length_append, List.length_cons]
      omega

/-- The form of a literal prints it. -/
theorem prints_literal (exposed text : String) :
    Prints .ready ((forms exposed).literal text).toList [.literal (.text text)] .ready := by
  have hquoted : IsString (Text.quote text).toList text := by
    have hread : stringWithin '"' ((text.toList.flatMap Text.escape ++ ['"']).length + 1) (text.toList.flatMap Text.escape ++ ['"']) =
        some (text.toList, []) := by
      have hlength := length_le_escaped text.toList
      refine stringWithin_quoted text.toList [] ?_
      rw [List.length_append]
      omega
    have hstring := IsString.quoted (.inl rfl) hread
    rw [String.ofList_toList] at hstring
    simpa [Text.quote] using hstring
  exact prints_expression .nil (.operand (.literal hquoted)) .nil (by simp) exposed

/-! ### Behind a call -/

/-- The text starts with a call, with nothing but blanks before it on the line. -/
def Jams (cs : List Char) : Prop :=
  ∃ gap c rest, (∀ d ∈ gap, Text.isBlank d = true ∧ Text.endsLine d = false) ∧ inWord c = false ∧
    cs = gap ++ ("print".toList ++ c :: rest)

theorem Jams.blank {c : Char} (hc : Text.isBlank c = true) (hline : Text.endsLine c = false) (h : Jams cs) : Jams (c :: cs) := by
  obtain ⟨gap, d, rest, hgap, hd, rfl⟩ := h
  exact ⟨c :: gap, d, rest, List.forall_mem_cons.2 ⟨⟨hc, hline⟩, hgap⟩, hd, rfl⟩

theorem Call.jams (h : Call cs e) (ds : List Char) : Jams (cs ++ ds) := by
  obtain @⟨gap, before, cs, after, e, hgap, -, -, -⟩ := h
  obtain ⟨c, rest, hrest, hc⟩ := hgap.opens (before ++ (cs ++ (after ++ (')' :: ds))))
  refine ⟨[], c, rest, nofun, hc, ?_⟩
  rw [← hrest]
  simp

/-- Behind a call a text is read as it is by itself, unless it jams. -/
theorem Prints.behind_or_jams (h : Prints .ready cs es q) :
    (∃ q', Prints .behind cs es q' ∧ (q' = .comment ↔ q = .comment)) ∨ Jams cs := by
  generalize hp : Place.ready = p at h
  induction h with
  | nil p =>
      subst hp
      exact .inl ⟨.behind, .nil _, by decide⟩
  | inside => cases hp
  | line hc h _ => exact .inl ⟨_, .line hc h, Iff.rfl⟩
  | blank _ hc hline _ ih =>
      rcases ih hp with ⟨q', hq, hcomment⟩ | hjams
      · exact .inl ⟨q', .blank nofun hc hline hq, hcomment⟩
      · exact .inr (hjams.blank hc hline)
  | semicolon _ h _ => exact .inl ⟨_, .semicolon nofun h, Iff.rfl⟩
  | slashes _ h _ => exact .inl ⟨_, .slashes nofun h, Iff.rfl⟩
  | call hcall _ _ => exact .inr (hcall.jams _)

/-- Such a text makes no program behind an open call. -/
theorem Prints.program?_eq_none_of_jams (h : Prints .ready cs es .behind) (hjams : Jams ds) (rest : List Char) :
    Scripting.program? (String.ofList (cs ++ (ds ++ rest))) = none := by
  obtain ⟨gap, c, tail, hgap, hc, rfl⟩ := hjams
  have hnone : Scripting.program? (String.ofList (cs ++ (gap ++ ("print".toList ++ c :: (tail ++ rest))))) = none :=
    h.program?_eq_none hgap hc
  simpa using hnone

theorem Jams.append (h : Jams cs) (ds : List Char) : Jams (cs ++ ds) := by
  obtain ⟨gap, c, rest, hgap, hc, rfl⟩ := h
  exact ⟨gap, c, rest ++ ds, hgap, hc, by simp⟩

theorem jams_literal (exposed text : String) : Jams ((forms exposed).literal text).toList := by
  refine ⟨[], '(', (Text.quote text).toList ++ ");".toList, nofun, by decide, ?_⟩
  change ("print(" ++ Text.quote text ++ ");").toList = _
  simp

example : (program? "print(\"a\") print(\"b\");").isNone := by decide +kernel

/-- What a text prints is determined. -/
theorem Prints.sums_eq {q' : Place} (h : Prints .ready cs es q) (h' : Prints .ready cs fs q') : es = fs := by
  have hprogram := h.program?.symm.trans h'.program?
  have hmap : es.map printing = fs.map printing := by simpa using hprogram
  exact (List.map_inj_right fun a b hab => by simpa [printing] using hab).1 hmap

/-! ### Segments -/

variable {tag exposed text : String} {σ : Option Place} {s s' c : Segment} {rest segments : List Segment} {o : Option String}

/-- What segments print where those are glued together whose programs have the tag, with a program before them that leaves off
at the place `σ`, if there is one: nothing, where calls meet on one line. -/
inductive Reads (tag : String) : Option Place → List Segment → Option String → Prop
  | nil (σ : Option Place) : Reads tag σ [] (some "")
  /-- A literal that no program takes up. -/
  | apart {σ : Option Place} {s : Segment} {rest : List Segment} {o : Option String} (hlit : s.isProgram = false)
      (h : σ = none ∨ s.tag ≠ tag) (hrest : Reads tag none rest o) : Reads tag σ (s :: rest) (o.map (s.text ++ ·))
  | taken {s : Segment} {rest : List Segment} {o : Option String} (hlit : s.isProgram = false) (htag : s.tag = tag)
      (hrest : Reads tag (some .ready) rest o) : Reads tag (some .ready) (s :: rest) (o.map (s.text ++ ·))
  | program {σ : Option Place} {s : Segment} {rest : List Segment} {o : Option String} {es : List Expr} {q : Place}
      (hprog : s.isProgram = true) (htag : s.tag = tag) (h : Prints (σ.getD .ready) s.text.toList es q)
      (hrest : Reads tag (some q) rest o) : Reads tag σ (s :: rest) (o.map (output es ++ ·))
  | literalJams {s : Segment} {rest : List Segment} (hlit : s.isProgram = false) (htag : s.tag = tag) :
      Reads tag (some .behind) (s :: rest) none
  | programJams {σ : Option Place} {s : Segment} {rest : List Segment} {cs ds : List Char} {es : List Expr}
      (hprog : s.isProgram = true) (htag : s.tag = tag) (h : Prints (σ.getD .ready) cs es .behind) (hjams : Jams ds)
      (htext : s.text.toList = cs ++ ds) : Reads tag σ (s :: rest) none

/-- What segments print one by one: nothing, where there is no program of a text. -/
inductive Tells (tag : String) : List Segment → Option String → Prop
  | nil : Tells tag [] (some "")
  | literal {s : Segment} {rest : List Segment} {o : Option String} (hlit : s.isProgram = false) (hrest : Tells tag rest o) :
      Tells tag (s :: rest) (o.map (s.text ++ ·))
  | program {s : Segment} {rest : List Segment} {o : Option String} {es : List Expr} {q : Place} (hprog : s.isProgram = true)
      (htag : s.tag = tag) (h : Prints .ready s.text.toList es q) (hrest : Tells tag rest o) :
      Tells tag (s :: rest) (o.map (output es ++ ·))
  | rejected {s : Segment} {rest : List Segment} (hprog : s.isProgram = true) (htag : s.tag = tag)
      (h : program? s.text = none) : Tells tag (s :: rest) none

theorem map_append_append (o : Option String) (s t : String) :
    (o.map (t ++ ·)).map (s ++ ·) = o.map ((s ++ t) ++ ·) := by
  cases o with
  | none => rfl
  | some u => simp [String.append_assoc]

theorem Reads.congr {more : List Segment} (h : ∀ σ o, Reads tag σ rest o → Reads tag σ more o)
    (hr : Reads tag σ (s :: rest) o) : Reads tag σ (s :: more) o := by
  cases hr with
  | apart hlit hσ hrest => exact .apart hlit hσ (h _ _ hrest)
  | taken hlit htag hrest => exact .taken hlit htag (h _ _ hrest)
  | program hprog htag hp hrest => exact .program hprog htag hp (h _ _ hrest)
  | literalJams hlit htag => exact .literalJams hlit htag
  | programJams hprog htag hp hjams htext => exact .programJams hprog htag hp hjams htext

theorem toList_append_text (s : Segment) (t : String) : (s.append t).text.toList = s.text.toList ++ t.toList :=
  String.toList_append

/-- Neighbours of one kind print what they print as one. -/
theorem Reads.joinAlike (h : Reads tag σ (s :: s' :: rest) o) (hc : s.joinAlike s' = some c) : Reads tag σ (c :: rest) o := by
  unfold Segment.joinAlike at hc
  split at hc
  · next halike =>
      obtain ⟨hkind, htags⟩ := halike
      cases hc
      cases h with
      | apart hlit hσ hrest =>
          cases hrest with
          | apart _ _ hrest =>
              rw [map_append_append]
              exact .apart (s := s.append s'.text) hlit hσ hrest
          | program hprog | programJams hprog => cases (hkind.symm.trans hlit).symm.trans hprog
      | taken hlit htag hrest =>
          cases hrest with
          | apart _ hσ => exact absurd (htags.symm.trans htag) (hσ.resolve_left (Option.some_ne_none _))
          | taken _ _ hrest =>
              rw [map_append_append]
              exact .taken (s := s.append s'.text) hlit htag hrest
          | program hprog | programJams hprog => cases (hkind.symm.trans hlit).symm.trans hprog
      | program hprog htag hp hrest =>
          cases hrest with
          | apart hlit | taken hlit | literalJams hlit => cases (hkind.symm.trans hprog).symm.trans hlit
          | program _ _ hp' hrest =>
              rw [map_append_append, ← output_append]
              refine .program (s := s.append s'.text) hprog htag ?_ hrest
              rw [toList_append_text]
              exact hp.append hp'
          | programJams _ _ hp' hjams htext =>
              refine .programJams (s := s.append s'.text) hprog htag (hp.append hp') hjams ?_
              rw [toList_append_text, htext, List.append_assoc]
      | literalJams hlit htag => exact .literalJams (s := s.append s'.text) hlit htag
      | programJams hprog htag hp hjams htext =>
          refine .programJams (s := s.append s'.text) hprog htag hp (hjams.append s'.text.toList) ?_
          rw [toList_append_text, htext, List.append_assoc]
  · cases hc

theorem Reads.mergeFrom (h : Reads tag σ (s :: rest) o) : Reads tag σ (glueFrom Segment.joinAlike s rest) o := by
  induction rest generalizing s σ o with
  | nil => exact h
  | cons s' rest ih =>
      unfold glueFrom
      split
      · next c hc => exact ih (h.joinAlike hc)
      · exact h.congr fun _ _ => ih

section folding

variable {table : FormTable} (hforms : table tag = some (forms exposed))

theorem tells_of_jams (hprog : s.isProgram = true) (htag : s.tag = tag) (h : Prints .ready cs es .behind) (hjams : Jams ds)
    (htext : s.text.toList = cs ++ ds) (table : FormTable) (rest : List Segment) :
    Tells tag (glueFrom (Segment.takeUp table) s rest) none := by
  obtain ⟨t, more, -, -, hglued, -⟩ := exists_glueFrom_eq (appends_takeUp table) s rest
  have hnone := h.program?_eq_none_of_jams hjams t.toList
  have hwhole : (s.append t).text = String.ofList (cs ++ (ds ++ t.toList)) := by
    rw [← String.toList_inj, toList_append_text, htext, String.toList_ofList, List.append_assoc]
  rw [hglued]
  exact .rejected (s := s.append t) hprog htag (hwhole ▸ hnone)

include hforms

/-- By induction on the segments, for a literal and for a program at the front. -/
theorem tells_foldFrom :
    (∀ s o, s.isProgram = false → Reads tag none rest o →
      Tells tag (glueFrom (Segment.takeUp table) s rest) (o.map (s.text ++ ·))) ∧
    ∀ s es q o, s.isProgram = true → s.tag = tag → Prints .ready s.text.toList es q → Reads tag (some q) rest o →
      Tells tag (glueFrom (Segment.takeUp table) s rest) (o.map (output es ++ ·)) := by
  induction rest with
  | nil =>
      constructor
      · intro s o hlit h
        cases h
        exact .literal hlit .nil
      · intro s es q o hprog htag hp h
        cases h
        exact .program hprog htag hp .nil
  | cons s' rest ih =>
      obtain ⟨ihliteral, ihprogram⟩ := ih
      constructor
      · intro s o hlit h
        have hnone : Segment.takeUp table s s' = none := if_neg fun h => by simp [hlit] at h
        rw [glueFrom, hnone]
        refine .literal hlit ?_
        cases h with
        | apart hlit' _ hrest => exact ihliteral s' _ hlit' hrest
        | program hprog htag hp hrest => exact ihprogram s' _ _ _ hprog htag hp hrest
        | programJams hprog htag hp hjams htext => exact tells_of_jams hprog htag hp hjams htext table rest
      · intro s es q o hprog htag hp h
        have htaken (htag' : s'.tag = tag) : Segment.takeUp table s s' =
            if s'.isProgram then some (s.append s'.text) else some (s.append ((forms exposed).literal s'.text)) := by
          unfold Segment.takeUp
          rw [if_pos ⟨hprog, htag.trans htag'.symm⟩, htag', hforms]
          rfl
        cases h with
        | apart hlit h hrest =>
            have hnone : Segment.takeUp table s s' = none :=
              if_neg fun halike => h.resolve_left (Option.some_ne_none q) (halike.2.symm.trans htag)
            rw [glueFrom, hnone]
            exact .program hprog htag hp (ihliteral s' _ hlit hrest)
        | taken hlit htag' hrest =>
            rw [glueFrom, htaken htag', if_neg (by simp [hlit]), map_append_append]
            have hliteral := hp.append (prints_literal exposed s'.text)
            rw [← toList_append_text] at hliteral
            have htext : output (es ++ [.literal (.text s'.text)]) = output es ++ s'.text := by
              rw [output_append, output_cons rfl]
              simp [output]
            have hrest := ihprogram (s.append _) _ _ _ hprog htag hliteral hrest
            rwa [htext] at hrest
        | program hprog' htag' hp' hrest =>
            rw [glueFrom, htaken htag', if_pos hprog', map_append_append, ← output_append]
            have hboth := hp.append hp'
            rw [← toList_append_text] at hboth
            exact ihprogram (s.append _) _ _ _ hprog htag hboth hrest
        | literalJams hlit htag' =>
            rw [glueFrom, htaken htag', if_neg (by simp [hlit])]
            exact tells_of_jams (s := s.append _) hprog htag hp (jams_literal exposed s'.text) (toList_append_text _ _) table rest
        | programJams hprog' htag' hp' hjams htext =>
            rw [glueFrom, htaken htag', if_pos hprog']
            refine tells_of_jams (s := s.append _) hprog htag (hp.append hp') hjams ?_ table rest
            rw [toList_append_text, htext, List.append_assoc]

/-- Segments print, collapsed, what they print where they are glued together. -/
theorem Reads.tells_collapse (h : Reads tag none segments o) : Tells tag (collapse table segments) o := by
  cases segments with
  | nil =>
      cases h
      exact .nil
  | cons s rest =>
      have hmerged := h.mergeFrom
      change Tells tag (glue (Segment.takeUp table) (glueFrom Segment.joinAlike s rest)) o
      generalize glueFrom Segment.joinAlike s rest = merged at hmerged
      have hfolded := @tells_foldFrom tag exposed merged.tail table hforms
      obtain ⟨hliteral, hprogram⟩ := hfolded
      cases hmerged with
      | nil => exact .nil
      | apart hlit _ hrest => exact hliteral _ _ hlit hrest
      | program hprog htag hp hrest => exact hprogram _ _ _ _ hprog htag hp hrest
      | programJams hprog htag hp hjams htext => exact tells_of_jams hprog htag hp hjams htext table _

end folding

/-- Every program but the last segment can be read so that it leaves off at a place of the kind. -/
def LeavesOff (P : Place → Prop) (segments : List Segment) : Prop :=
  ∀ s ∈ segments.dropLast, s.isProgram = true → ∃ es q, Prints .ready s.text.toList es q ∧ P q

theorem LeavesOff.tail {P : Place → Prop} (h : LeavesOff P (s :: rest)) : LeavesOff P rest := by
  cases rest with
  | nil => nofun
  | cons s' rest => exact fun x hx => h x (List.mem_cons_of_mem s hx)

/-- A program prints the same where it leaves off at a place of the kind. -/
theorem LeavesOff.exists_place {P : Place → Prop} (h : LeavesOff P (s :: rest)) (hprog : s.isProgram = true)
    (hprints : Prints .ready s.text.toList es q) : ∃ q, Prints .ready s.text.toList es q ∧ (P q ∨ rest = []) := by
  cases rest with
  | nil => exact ⟨q, hprints, .inr rfl⟩
  | cons s' rest =>
      obtain ⟨es', q', hprints', hq'⟩ := h s (List.mem_cons_self ..) hprog
      exact ⟨q', hprints.sums_eq hprints' ▸ hprints', .inl hq'⟩

theorem map_append_none_or {t : String} (h : o = none ∨ o = some t) (s : String) :
    o.map (s ++ ·) = none ∨ o.map (s ++ ·) = some (s ++ t) := by
  rcases h with rfl | rfl
  · exact .inl rfl
  · exact .inr rfl

/-- Where no segment but the last leaves a comment open, glued segments print what they print one by one, or nothing: each
text is read behind the one before it, unless it jams there. -/
theorem Tells.exists_reads (h : Tells tag segments (some text)) (hσ : σ ≠ some .comment ∨ segments = [])
    (hends : LeavesOff (· ≠ .comment) segments) : ∃ o, Reads tag σ segments o ∧ (o = none ∨ o = some text) := by
  generalize htext : some text = o at h
  induction h generalizing text σ with
  | nil =>
      cases htext
      exact ⟨_, .nil σ, .inr rfl⟩
  | @literal s rest o hlit _ ih =>
      obtain ⟨text', rfl, rfl⟩ := Option.map_eq_some_iff.1 htext.symm
      have hrest {σ : Option Place} (hσ : σ ≠ some .comment) :
          ∃ o, Reads tag σ rest o ∧ (o.map (s.text ++ ·) = none ∨ o.map (s.text ++ ·) = some (s.text ++ text')) := by
        obtain ⟨o, hreads, ho⟩ := ih (.inl hσ) hends.tail rfl
        exact ⟨o, hreads, map_append_none_or ho s.text⟩
      by_cases happart : σ = none ∨ s.tag ≠ tag
      · obtain ⟨o, hreads, ho⟩ := @hrest none nofun
        exact ⟨_, .apart hlit happart hreads, ho⟩
      · obtain ⟨hnone, htag⟩ := not_or.1 happart
        obtain ⟨p, rfl⟩ := Option.ne_none_iff_exists'.1 hnone
        have htag := not_not.1 htag
        cases p with
        | ready =>
            obtain ⟨o, hreads, ho⟩ := @hrest (some .ready) nofun
            exact ⟨_, .taken hlit htag hreads, ho⟩
        | behind => exact ⟨none, .literalJams hlit htag, .inl rfl⟩
        | comment => exact absurd rfl (hσ.resolve_right (List.cons_ne_nil _ _))
  | @program s rest o es q hprog htag hp _ ih =>
      obtain ⟨text', rfl, rfl⟩ := Option.map_eq_some_iff.1 htext.symm
      have hrest {q : Place} (hq : q ≠ .comment ∨ rest = []) :
          ∃ o, Reads tag (some q) rest o ∧ (o.map (output es ++ ·) = none ∨ o.map (output es ++ ·) = some (output es ++ text')) := by
        obtain ⟨o, hreads, ho⟩ := ih (hq.imp_left fun h (h' : some q = some .comment) => h (Option.some.inj h')) hends.tail rfl
        exact ⟨o, hreads, map_append_none_or ho (output es)⟩
      obtain ⟨q, hp, hq⟩ := hends.exists_place hprog hp
      have hready (hσ : σ.getD .ready = .ready) : ∃ o, Reads tag σ (s :: rest) o ∧ (o = none ∨ o = some (output es ++ text')) := by
        obtain ⟨o, hreads, ho⟩ := hrest hq
        have hp : Prints (σ.getD .ready) s.text.toList es q := by rwa [hσ]
        exact ⟨_, .program hprog htag hp hreads, ho⟩
      match σ, hσ.resolve_right (List.cons_ne_nil _ _) with
      | none, _ | some .ready, _ => exact hready rfl
      | some .behind, _ =>
          rcases hp.behind_or_jams with ⟨q', hp', hcomment⟩ | hjams
          · obtain ⟨o, hreads, ho⟩ := hrest (hq.imp_left fun h h' => h (hcomment.1 h'))
            exact ⟨_, .program hprog htag hp' hreads, ho⟩
          · exact ⟨none, .programJams hprog htag (.nil _) hjams rfl, .inl rfl⟩
      | some .comment, hne => exact absurd rfl hne
  | rejected => cases htext

/-- Where all programs but the last segment leave off at the start of a statement, glued segments print what they print one by
one. -/
theorem Tells.reads (h : Tells tag segments (some text)) (hσ : σ = none ∨ σ = some .ready ∨ segments = [])
    (hends : LeavesOff (· = .ready) segments) : Reads tag σ segments (some text) := by
  generalize htext : some text = o at h ⊢
  induction h generalizing text σ with
  | nil => exact .nil σ
  | @literal s rest o hlit _ ih =>
      obtain ⟨text', rfl, -⟩ := Option.map_eq_some_iff.1 htext.symm
      by_cases happart : σ = none ∨ s.tag ≠ tag
      · exact .apart hlit happart (ih (.inl rfl) hends.tail rfl)
      · obtain ⟨hnone, htag⟩ := not_or.1 happart
        obtain rfl := (hσ.resolve_left hnone).resolve_right (List.cons_ne_nil _ _)
        exact .taken hlit (not_not.1 htag) (ih (.inr (.inl rfl)) hends.tail rfl)
  | @program s rest o es q hprog htag hp _ ih =>
      obtain ⟨text', rfl, -⟩ := Option.map_eq_some_iff.1 htext.symm
      obtain ⟨q, hp, hq⟩ := hends.exists_place hprog hp
      have hplace : σ.getD .ready = .ready := by
        rcases hσ with rfl | rfl | hnil
        · rfl
        · rfl
        · cases hnil
      have hp : Prints (σ.getD .ready) s.text.toList es q := by rwa [hplace]
      exact .program hprog htag hp (ih (.inr (hq.imp_left (congrArg some))) hends.tail rfl)
  | rejected => cases htext

end ScriptedText.Scripting
