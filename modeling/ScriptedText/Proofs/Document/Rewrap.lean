import Mathlib.Data.List.Chain
import Mathlib.Data.List.DropRight
import ScriptedText.Proofs.Document.Grammar

/-!
A body that is handed out is written between delimiters again, with its tag first, and read as a document of its own.
It reads back as the code of the request unless its tag looks like a marker.
-/

namespace ScriptedText

open Text (isBlank)

section text

variable {a b : Char} {cs mark before after own code l₁ l₂ : List Char}

theorem not_pair_infix_iff : ¬ [a, b] <:+: cs ↔ cs.IsChain fun x y => ¬ (x = a ∧ y = b) := by
  rw [List.isChain_iff_forall_rel_of_append_cons_cons]
  constructor
  · rintro h x y l₁ l₂ rfl ⟨rfl, rfl⟩
    exact h ⟨l₁, l₂, by simp⟩
  · rintro h ⟨l₁, l₂, rfl⟩
    have hsplit : l₁ ++ [a, b] ++ l₂ = l₁ ++ a :: b :: l₂ := by simp
    exact h hsplit ⟨rfl, rfl⟩

/-- Two characters that stand next to each other in a text stand so in one of its halves or across the middle. -/
theorem not_pair_infix_append (h₁ : ¬ [a, b] <:+: l₁) (h₂ : ¬ [a, b] <:+: l₂)
    (h : ∀ x ∈ l₁.getLast?, ∀ y ∈ l₂.head?, ¬ (x = a ∧ y = b)) : ¬ [a, b] <:+: l₁ ++ l₂ := by
  rw [not_pair_infix_iff] at h₁ h₂ ⊢
  exact List.isChain_append.2 ⟨h₁, h₂, h⟩

theorem Text.FirstAt.not_infix_before (h : Text.FirstAt mark cs before after) (hm : mark ≠ []) :
    ¬ mark <:+: before := by
  rintro ⟨b, a, hb⟩
  have hpos := List.length_pos_iff.2 hm
  have hle := h.least b (a ++ mark ++ after) (by simp [h.eq, ← hb])
  have hlen := congrArg List.length hb
  simp only [List.length_append] at hlen
  omega

/-- A mark at the end of a text is the first one if none stands before its own last character. -/
theorem firstAt_end (hm : mark ≠ []) (h : ¬ mark <:+: cs ++ mark.dropLast) :
    Text.FirstAt mark (cs ++ mark) cs [] := by
  refine ⟨by simp, fun b a hba => ?_⟩
  by_contra hlt
  have hlen := congrArg List.length hba
  simp only [List.length_append] at hlen
  have ha : a ≠ [] := fun hnil => by
    rw [hnil, List.length_nil] at hlen
    omega
  apply h
  refine ⟨b, a.dropLast, ?_⟩
  have hinit := congrArg List.dropLast hba
  rw [List.dropLast_append_of_ne_nil hm, List.dropLast_append_of_ne_nil ha] at hinit
  exact hinit.symm

/-! Trimmed code. -/

theorem trim_eq (cs : List Char) : Text.trim cs = (cs.dropWhile isBlank).rdropWhile isBlank := rfl

theorem exists_eq_trim (cs : List Char) : ∃ before after, cs = before ++ Text.trim cs ++ after ∧
    (∀ c ∈ before, isBlank c) ∧ ∀ c ∈ after, isBlank c := by
  refine ⟨cs.takeWhile isBlank, (cs.dropWhile isBlank).rtakeWhile isBlank, ?_, ?_, ?_⟩
  · rw [trim_eq, List.append_assoc, List.rdropWhile_append_rtakeWhile, List.takeWhile_append_dropWhile]
  · intro c hc
    exact List.mem_takeWhile_imp hc
  · intro c hc
    exact List.mem_rtakeWhile_imp hc

theorem trim_isPart (cs : List Char) : Text.trim cs <:+: cs := by
  obtain ⟨before, after, h, -⟩ := exists_eq_trim cs
  exact ⟨before, after, h.symm⟩

theorem not_isBlank_trim (h : ¬ ∀ c ∈ cs, isBlank c) : ¬ ∀ c ∈ Text.trim cs, isBlank c := by
  obtain ⟨before, after, hcs, hbefore, hafter⟩ := exists_eq_trim cs
  intro hall
  apply h
  intro c hc
  rw [hcs, List.mem_append, List.mem_append] at hc
  rcases hc with (hc | hc) | hc
  · exact hbefore c hc
  · exact hall c hc
  · exact hafter c hc

theorem head?_trim (cs : List Char) : ∀ c ∈ (Text.trim cs).head?, ¬ isBlank c := by
  intro c hc hblank
  have hprefix : Text.trim cs <+: cs.dropWhile isBlank := List.rdropWhile_prefix isBlank _
  obtain ⟨tail, htail⟩ := hprefix
  have hhead := List.head?_dropWhile_not isBlank cs
  rw [← htail, List.head?_append, Option.mem_def.1 hc] at hhead
  simp [hblank] at hhead

end text

/-! A body between delimiters again. -/

section printed

variable {d : Delimiters} {m : Char} {source own code : List Char}

/-- What stands between the delimiters. -/
def Request.printed (own code : List Char) : List Char := own ++ ' ' :: Text.trim code

theorem rewrap_eq (d : Delimiters) (own code : List Char) :
    Request.rewrap d own code = d.opening.toList ++ (Request.printed own code ++ d.closing.toList) := by
  simp [Request.rewrap, Request.printed]

/-- The standard styles: an angle bracket and one sign, and the other way round. -/
theorem exists_sign_of_standard (hd : d ∈ Delimiters.standard) :
    ∃ m, d.opening.toList = ['<', m] ∧ d.closing.toList = [m, '>'] ∧ m ≠ '<' ∧ m ≠ '>' ∧ m ≠ ' ' := by
  simp only [Delimiters.standard, List.mem_cons, List.not_mem_nil, or_false] at hd
  rcases hd with rfl | rfl
  · exact ⟨'%', by decide⟩
  · exact ⟨'?', by decide⟩

theorem ne_empty_of_standard (hd : d ∈ Delimiters.standard) : d.opening ≠ "" ∧ d.closing ≠ "" := by
  obtain ⟨m, hopening, hclosing, -⟩ := exists_sign_of_standard hd
  constructor
  · intro h
    simp [h] at hopening
  · intro h
    simp [h] at hclosing

theorem not_pair_infix_printed {a b : Char} (ha : a ≠ ' ') (hb : b ≠ ' ') (ho : ¬ [a, b] <:+: own)
    (hc : ¬ [a, b] <:+: code) : ¬ [a, b] <:+: Request.printed own code := by
  have hcode : ¬ [a, b] <:+: Text.trim code := fun h => hc (h.trans (trim_isPart code))
  apply not_pair_infix_append ho
  · have hspace : ¬ [a, b] <:+: [' '] := fun h => by simpa using h.length_le
    refine not_pair_infix_append hspace hcode ?_
    rintro x hx y - ⟨rfl, -⟩
    simp only [List.getLast?_singleton, Option.mem_def, Option.some.injEq] at hx
    exact ha hx.symm
  · rintro x - y hy ⟨-, rfl⟩
    simp only [List.head?_cons, Option.mem_def, Option.some.injEq] at hy
    exact hb hy.symm

theorem firstAt_closing (hd : d ∈ Delimiters.standard) (ho : ¬ d.closing.toList <:+: own)
    (hc : ¬ d.closing.toList <:+: code) :
    Text.FirstAt d.closing.toList (Request.printed own code ++ d.closing.toList) (Request.printed own code) [] := by
  obtain ⟨m, -, hclosing, -, hm, hblank⟩ := exists_sign_of_standard hd
  rw [hclosing] at ho hc ⊢
  apply firstAt_end (List.cons_ne_nil m ['>'])
  apply not_pair_infix_append (not_pair_infix_printed hblank (by decide) ho hc)
  · intro h
    simpa using h.length_le
  · rintro x - y hy ⟨-, rfl⟩
    simp only [List.dropLast_cons_cons, List.dropLast_singleton, List.head?_cons, Option.mem_def, Option.some.injEq] at hy
    exact hm hy

theorem detect_percent {cs : List Char} (h : Delimiters.percent.opening.toList <:+: cs) :
    Delimiters.detect Delimiters.standard cs = some .percent :=
  detect_eq_some (List.forall_mem_nil _) h

theorem detect_question {cs : List Char} (hn : ¬ Delimiters.percent.opening.toList <:+: cs)
    (h : Delimiters.question.opening.toList <:+: cs) : Delimiters.detect Delimiters.standard cs = some .question :=
  detect_eq_some (List.forall_mem_singleton.2 hn) h

/-- The smaller text is in the same style. -/
theorem detect_rewrap (hd : Delimiters.detect Delimiters.standard source = some d) (ho : own <:+: source)
    (hc : code <:+: source) :
    Delimiters.detect Delimiters.standard (Request.rewrap d own code) = some d := by
  have hopening : d.opening.toList <:+: Request.rewrap d own code :=
    ⟨[], Request.printed own code ++ d.closing.toList, by rw [rewrap_eq]; rfl⟩
  have hmem : d ∈ Delimiters.standard := List.mem_of_find?_eq_some hd
  simp only [Delimiters.standard, List.mem_cons, List.not_mem_nil, or_false] at hmem
  rcases hmem with rfl | rfl
  · exact detect_percent hopening
  · refine detect_question ?_ hopening
    have hsource : ¬ ['<', '%'] <:+: source := by
      intro h
      have hpercent := detect_percent h
      rw [hd] at hpercent
      exact absurd hpercent (by decide)
    rw [rewrap_eq]
    have hprinted : ¬ ['<', '%'] <:+: Request.printed own code :=
      not_pair_infix_printed (by decide) (by decide) (fun h => hsource (h.trans ho)) fun h => hsource (h.trans hc)
    refine not_pair_infix_append (by decide) (not_pair_infix_append hprinted (by decide) ?_) ?_
    · rintro x - y hy ⟨-, rfl⟩
      cases hy
    · rintro x hx y - ⟨rfl, -⟩
      cases hx

theorem layout_rewrap (hd : d ∈ Delimiters.standard) (ho : ¬ d.closing.toList <:+: own)
    (hc : ¬ d.closing.toList <:+: code) :
    Layout d (Request.rewrap d own code) [([], Request.printed own code)] [] := by
  obtain ⟨m, hopening, -⟩ := exists_sign_of_standard hd
  constructor
  · refine .scriptlet ⟨by simp [rewrap_eq], fun b _ _ => Nat.zero_le b.length⟩ (firstAt_closing hd ho hc) (.here [])
  · rw [hopening]
    simp

/-- The only scriptlet of the smaller text. -/
def Request.scriptlet (own code : List Char) : Scriptlet := Scriptlet.ofBody (Request.printed own code)

theorem ofDocument_rewrap (tag : String) (extract : Bool) (hsource : Delimiters.detect Delimiters.standard source = some d)
    (ho : own <:+: source) (hc : code <:+: source) (ho' : ¬ d.closing.toList <:+: own)
    (hc' : ¬ d.closing.toList <:+: code) :
    Reading.ofDocument Delimiters.standard tag extract (Request.rewrap d own code) =
      ⟨some d, (Request.scriptlet own code).parts d extract tag {}, .complete⟩ := by
  have hd : d ∈ Delimiters.standard := List.mem_of_find?_eq_some hsource
  rw [ofDocument_of_layout (detect_rewrap hsource ho hc) (ne_empty_of_standard hd).1 (layout_rewrap hd ho' hc')]
  simp only [layoutPieces, Piece.literals, List.isEmpty_nil, if_true, List.nil_append, readPieces, List.append_nil]
  rfl

end printed

/-! Where the tag of a request looks like no marker, and where it does. -/

section readsBack

variable {d : Delimiters} {own code : List Char} {name : Nat → Request → String}

theorem parts_eq_program_of_plain (hne : own ≠ []) (ht : ∀ x ∈ own, ¬ isBlank x) (hc : ¬ ∀ c ∈ code, isBlank c)
    (hm : ∀ c ∈ own.head?, c ≠ '=' ∧ c ≠ '&' ∧ c ≠ ':') :
    (Request.scriptlet own code).parts d true (String.ofList own) {} =
      [.segmentAt .plain (String.ofList own) {} (Text.trim code)] := by
  have hreads : (⟨.plain, some own, Text.trim code⟩ : Scriptlet).Reads (Request.printed own code) := by
    refine ⟨Request.printed own code, .plain ?_, .tagged hne ht (by decide)⟩
    obtain ⟨x, own', rfl⟩ := List.exists_cons_of_ne_nil hne
    exact hm
  rw [Request.scriptlet, ← Scriptlet.reads_iff.1 hreads]
  exact parts_of_program (not_isBlank_trim hc) (by simp)

theorem parts_eq_program_of_colon (hc : ¬ ∀ c ∈ code, isBlank c) (hw : ∀ c ∈ Text.trim code, ¬ isBlank c) :
    (Request.scriptlet [':'] code).parts d true (String.ofList [':']) {} =
      [.segmentAt .plain (String.ofList [':']) {} (Text.trim code)] := by
  have hreads : (⟨.inFlow, none, Text.trim code⟩ : Scriptlet).Reads (Request.printed [':'] code) :=
    ⟨Text.trim code, .inFlow (List.forall_mem_singleton.2 rfl) (head?_trim code), .untagged (.inr hw)⟩
  rw [Request.scriptlet, ← Scriptlet.reads_iff.1 hreads]
  exact parts_of_inPlace (not_isBlank_trim hc) rfl (.inr rfl)

/-- What is read in-flow and has the whole code is the marker and a single word. -/
theorem eq_colon_of_tagged {rest text : List Char} {tag : Option (List Char)} (hne : own ≠ []) (ht : ∀ x ∈ own, ¬ isBlank x)
    (hmarked : Marked (own ++ ' ' :: text) .inFlow rest) (htagged : Tagged rest tag text) (htag : ∀ t ∈ tag, t = own) :
    own = [':'] ∧ ∀ c ∈ text, ¬ isBlank c := by
  obtain ⟨x, own', rfl⟩ := List.exists_cons_of_ne_nil hne
  generalize hbody : x :: own' ++ ' ' :: text = body at hmarked
  cases hmarked with
  | @inFlow blanks _ hblanks hrest =>
      obtain ⟨rfl, htail⟩ := List.cons.inj hbody
      change own' ++ ' ' :: text = blanks ++ rest at htail
      cases htagged with
      | untagged hw =>
          have hown : own' ++ [' '] = blanks := by
            apply List.append_cancel_right
            rw [List.append_assoc]
            exact htail
          constructor
          · cases own' with
            | nil => rfl
            | cons y own' =>
                -- a character of the tag would be a blank
                exact absurd (hblanks y (by simp [← hown])) (ht y (by simp))
          · rcases hw with hw | hw
            · intro c hc
              obtain ⟨y, tail, hy⟩ := List.exists_cons_of_ne_nil (List.ne_nil_of_mem hc)
              rw [hy] at hw hrest
              exact absurd (hw y rfl) (hrest y rfl)
            · exact hw
      | @tagged own'' _ c _ _ _ =>
          -- the code would be read with the tag before it
          have hlen := congrArg List.length htail
          rw [htag own'' rfl] at hlen
          simp only [List.length_append, List.length_cons] at hlen
          omega

/-- A scriptlet that makes a single program with the whole code has no marker, or its whole tag is the marker of in-flow
scriptlets and its code a single word. -/
theorem eq_of_parts_eq_program (hne : own ≠ []) (ht : ∀ x ∈ own, ¬ isBlank x)
    (h : (Request.scriptlet own code).parts d true (String.ofList own) {} =
      [.segmentAt .plain (String.ofList own) {} (Text.trim code)]) :
    (∀ c ∈ own.head?, c ≠ '=' ∧ c ≠ '&' ∧ c ≠ ':') ∨ own = [':'] ∧ ∀ c ∈ Text.trim code, ¬ isBlank c := by
  obtain ⟨rest, hmarked, htagged⟩ : (Request.scriptlet own code).Reads (Request.printed own code) := Scriptlet.reads_iff.2 rfl
  generalize Request.scriptlet own code = s at h hmarked htagged
  have hcode : ¬ ∀ c ∈ s.code, isBlank c := fun hblank => by
    rw [parts_of_blank hblank] at h
    cases h
  cases hm : s.marker with
  | plain =>
      obtain ⟨x, own', rfl⟩ := List.exists_cons_of_ne_nil hne
      rw [hm] at hmarked
      generalize hbody : Request.printed (x :: own') code = body at hmarked
      cases hmarked with
      | plain hhead =>
          left
          rw [← hbody] at hhead
          exact hhead
  | expression | inclusion =>
      rw [parts_of_program hcode (by simp [hm]), hm] at h
      simp [Part.segmentAt, Marker.kind] at h
  | inFlow =>
      by_cases ha : s.tagName.getD (String.ofList own) = String.ofList own
      · right
        rw [parts_of_inPlace hcode hm (.inr ha), ha] at h
        have hwhole : s.code = Text.trim code := by simpa [Part.segmentAt, String.ofList_inj] using h
        rw [hm] at hmarked
        rw [hwhole] at htagged
        refine eq_colon_of_tagged hne ht hmarked htagged fun t htag => ?_
        rw [Scriptlet.tagName, Option.mem_def.1 htag] at ha
        exact String.ofList_inj.1 ha
      · cases htag : s.tag with
        | none => exact absurd (by simp [Scriptlet.tagName, htag]) ha
        | some own' =>
            rw [parts_of_handedOut hcode hm htag (by simpa [Scriptlet.tagName, htag] using ha)] at h
            simp [Part.segmentAt] at h

end readsBack

/-! Where a request comes from. -/

/-- The request is for the scriptlet with this tag and code: the scriptlet stands in the document at the place of the
request, behind others that the scan goes over. -/
def Request.IsFor (r : Request) (d : Delimiters) (source own code : List Char) : Prop :=
  ∃ earlier literal body later rest, Walk d source (earlier ++ (literal, body) :: later) rest ∧
    r.place = .behind (joined d earlier ++ literal) ∧ (⟨.inFlow, some own, code⟩ : Scriptlet).Reads body

section requests

variable {d : Delimiters} {r : Request} {extract : Bool} {active tag : String} {p : Place}
  {source before last rest own code body : List Char} {pairs : List (List Char × List Char)}

theorem exists_of_mem_parts (h : Part.request r ∈ (Scriptlet.ofBody body).parts d extract active p) :
    ∃ own code, (⟨.inFlow, some own, code⟩ : Scriptlet).Reads body ∧ (¬ ∀ c ∈ code, isBlank c) ∧
      r.place = p ∧ r.source = Request.rewrap d own code ∧ r.tag = String.ofList own := by
  have hreads : (Scriptlet.ofBody body).Reads body := Scriptlet.reads_iff.2 rfl
  generalize Scriptlet.ofBody body = s at h hreads
  by_cases hcode : ∀ c ∈ s.code, isBlank c
  · simp [parts_of_blank hcode] at h
  by_cases hm : s.marker = .inFlow
  · by_cases ha : extract = false ∨ s.tagName.getD active = active
    · simp [parts_of_inPlace hcode hm ha, Part.segmentAt] at h
    · obtain ⟨hextract, ha⟩ := not_or.1 ha
      cases ht : s.tag with
      | none => simp [Scriptlet.tagName, ht] at ha
      | some own =>
          rw [Bool.not_eq_false] at hextract
          subst hextract
          rw [parts_of_handedOut hcode hm ht (by simpa [Scriptlet.tagName, ht] using ha)] at h
          simp only [List.mem_singleton, Part.request.injEq] at h
          subst h
          obtain ⟨marker, tag, code⟩ := s
          subst hm ht
          exact ⟨own, code, hreads, hcode, rfl, rfl, rfl⟩
  · simp [parts_of_program hcode hm, Part.segmentAt] at h

theorem exists_of_mem_readPieces (h : Part.request r ∈ readPieces d extract active (layoutPieces d before pairs last)) :
    ∃ earlier literal body later own code, pairs = earlier ++ (literal, body) :: later ∧
      r.place = .behind (before ++ joined d earlier ++ literal) ∧
      (⟨.inFlow, some own, code⟩ : Scriptlet).Reads body ∧ (¬ ∀ c ∈ code, isBlank c) ∧
      r.source = Request.rewrap d own code ∧ r.tag = String.ofList own := by
  have hmem {active : String} {rest : List Piece} {p : Place} (text : List Char)
      (h : Part.request r ∈ readPieces d extract active (Piece.literals p text ++ rest)) :
      Part.request r ∈ readPieces d extract active rest := by
    cases text with
    | nil => exact h
    | cons c text => simpa [Piece.literals, readPieces, Part.segmentAt] using h
  induction pairs generalizing before active with
  | nil =>
      rw [layoutPieces, ← List.append_nil (Piece.literals _ _)] at h
      cases hmem last h
  | cons pair pairs ih =>
      obtain ⟨literal, body⟩ := pair
      rw [layoutPieces] at h
      have h := hmem literal h
      rw [readPieces, List.mem_append] at h
      rcases h with h | h
      · obtain ⟨own, code, hreads, hcode, hplace, hsource, htag⟩ := exists_of_mem_parts h
        exact ⟨[], literal, body, pairs, own, code, rfl, by simpa [joined] using hplace, hreads, hcode, hsource, htag⟩
      · obtain ⟨earlier, literal', body', later, own, code, rfl, hplace, hreads⟩ := ih h
        refine ⟨(literal, body) :: earlier, literal', body', later, own, code, rfl, ?_, hreads⟩
        simpa [joined] using hplace

theorem exists_of_mem_requests (h : r ∈ (Reading.ofDocument Delimiters.standard tag extract source).requests) :
    ∃ d own code, Delimiters.detect Delimiters.standard source = some d ∧ r.IsFor d source own code ∧
      (¬ ∀ c ∈ code, isBlank c) ∧ r.source = Request.rewrap d own code ∧ r.tag = String.ofList own := by
  obtain ⟨part, hpart, hr⟩ := List.mem_filterMap.1 h
  obtain rfl : part = .request r := by
    cases part with
    | segment s => cases hr
    | request r' => rw [Option.some.inj hr]
  cases hd : Delimiters.detect Delimiters.standard source with
  | none =>
      rw [ofDocument_of_none hd] at hpart
      cases source <;> simp [Piece.literals, readPieces, Part.segmentAt] at hpart
  | some d =>
      have hne : d.opening ≠ "" := (ne_empty_of_standard (List.mem_of_find?_eq_some hd)).1
      obtain ⟨pairs, last, rest, hwalk, hmem⟩ : ∃ pairs last rest, Walk d source pairs rest ∧
          Part.request r ∈ readPieces d extract tag (layoutPieces d [] pairs last) := by
        rcases layout_or_unclosed (toList_ne_nil hne) source with ⟨pairs, last, hl⟩ | ⟨pairs, literal, hu⟩
        · rw [ofDocument_of_layout hd hne hl] at hpart
          exact ⟨pairs, last, last, hl.walk, hpart⟩
        · rw [ofDocument_of_unclosed hd hne hu] at hpart
          obtain ⟨rest, -, hw, -⟩ := hu
          exact ⟨pairs, literal, rest, hw, hpart⟩
      obtain ⟨earlier, literal, body, later, own, code, rfl, hplace, hreads, hcode⟩ := exists_of_mem_readPieces hmem
      exact ⟨d, own, code, rfl, ⟨earlier, literal, body, later, rest, hwalk, hplace, hreads⟩, hcode⟩

/-- A body is between two delimiters of the document and holds no closing one. -/
theorem Walk.body_isPart (hw : Walk d source pairs rest) (hne : d.closing.toList ≠ []) :
    ∀ pair ∈ pairs, pair.2 <:+: source ∧ ¬ d.closing.toList <:+: pair.2 := by
  induction hw with
  | here => simp
  | @scriptlet cs literal opened body closed rest pairs ho hc hw ih =>
      have hclosed : closed <:+: cs :=
        ⟨literal ++ d.opening.toList ++ body ++ d.closing.toList, [], by simp [ho.eq, hc.eq]⟩
      intro pair hpair
      rcases List.mem_cons.1 hpair with rfl | hpair
      · exact ⟨⟨literal ++ d.opening.toList, d.closing.toList ++ closed, by simp [ho.eq, hc.eq]⟩,
          hc.not_infix_before hne⟩
      · exact ⟨(ih pair hpair).1.trans hclosed, (ih pair hpair).2⟩

theorem Scriptlet.Reads.areParts (h : (⟨.inFlow, some own, code⟩ : Scriptlet).Reads body) :
    own <:+: body ∧ code <:+: body ∧ own ≠ [] ∧ ∀ x ∈ own, ¬ Text.isBlank x := by
  obtain ⟨rest, hm, ht⟩ := h
  cases hm with
  | @inFlow blanks _ hblanks hrest =>
      cases ht with
      | @tagged own code c hne hword hc =>
          exact ⟨⟨':' :: blanks, c :: code, by simp⟩, ⟨':' :: blanks ++ own ++ [c], [], by simp⟩, hne, hword⟩

theorem placeParts_eq_singleton_iff {name : Nat → Request → String} {k : Nat} {parts : List Part} {s : RawSegment} :
    placeParts name k parts = [s] ∧ parts.filterMap Part.request? = [] ↔ parts = [.segment s] := by
  constructor
  · rintro ⟨hplaced, hrequests⟩
    cases parts with
    | nil => cases hplaced
    | cons part rest =>
        cases part with
        | request r => cases hrequests
        | segment s' =>
            obtain ⟨rfl, hrest⟩ := List.cons.inj hplaced
            cases rest with
            | nil => rfl
            | cons part rest => cases part <;> cases hrest
  · rintro rfl
    exact ⟨rfl, rfl⟩

/-- A body that is handed out is read again as a document in the language of its request. It makes no further request and
reads as one program at the start of the document, the trimmed code of the scriptlet, exactly if its tag does not start
with a marker; but for a tag that is the marker of in-flow scriptlets and nothing more, whose code then has to be a single
word. -/
theorem request_reads_back_iff {tag : String} {source : List Char} {r : Request}
    (h : r ∈ (Reading.ofDocument Delimiters.standard tag true source).requests) :
    ∃ d own code, Delimiters.detect Delimiters.standard source = some d ∧ r.IsFor d source own code ∧
      r.source = Request.rewrap d own code ∧ r.tag = String.ofList own ∧
      ((∀ document name, segmentDocument Delimiters.standard document r.tag (some name) r.source =
            .ok ([⟨.plain, r.tag, 1, 1, String.ofList (Text.trim code)⟩], some d) ∧
          (Reading.ofDocument Delimiters.standard r.tag true r.source).requests = []) ↔
        (∀ c ∈ own.head?, c ≠ '=' ∧ c ≠ '&' ∧ c ≠ ':') ∨ own = [':'] ∧ ∀ c ∈ Text.trim code, ¬ isBlank c) := by
  obtain ⟨d, own, code, hd, hfor, hcode, hsource, htag⟩ := exists_of_mem_requests h
  refine ⟨d, own, code, hd, hfor, hsource, htag, ?_⟩
  obtain ⟨earlier, literal, body, later, rest, hwalk, -, hreads⟩ := hfor
  obtain ⟨hown, hin, hne, hword⟩ := hreads.areParts
  have hclosing := toList_ne_nil (ne_empty_of_standard (List.mem_of_find?_eq_some hd)).2
  obtain ⟨hbody, hends⟩ := hwalk.body_isPart hclosing (literal, body) (by simp)
  have hreading := ofDocument_rewrap r.tag true hd (hown.trans hbody) (hin.trans hbody) (fun h => hends (h.trans hown))
    fun h => hends (h.trans hin)
  rw [← hsource] at hreading
  have hiff (document : String) (name : Nat → Request → String) :
      segmentDocument Delimiters.standard document r.tag (some name) r.source =
            .ok ([⟨.plain, r.tag, 1, 1, String.ofList (Text.trim code)⟩], some d) ∧
          (Reading.ofDocument Delimiters.standard r.tag true r.source).requests = [] ↔
        (Request.scriptlet own code).parts d true r.tag {} = [.segmentAt .plain r.tag {} (Text.trim code)] := by
    rw [Part.segmentAt, ← @placeParts_eq_singleton_iff name 0]
    simp [segmentDocument, Reading.requests, Reading.failure?, hreading]
  simp only [hiff, forall_const]
  rw [htag]
  constructor
  · exact eq_of_parts_eq_program hne hword
  · rintro (hm | ⟨rfl, hw⟩)
    · exact parts_eq_program_of_plain hne hword hcode hm
    · exact parts_eq_program_of_colon hcode hw

theorem request_reads_back_iff_in_question_style :
    let r : Request := ⟨"<?py f(1 %> 0)?>".toList, "py", ⟨1, 2, 1⟩, "js"⟩
    r ∈ (Reading.ofDocument Delimiters.standard "js" true "x<?: py f(1 %> 0) ?><?=".toList).requests ∧
      ∀ document name, segmentDocument Delimiters.standard document r.tag (some name) r.source =
        .ok ([⟨.plain, "py", 1, 1, "f(1 %> 0)"⟩], some .question) := by
  intro r
  have hmem : r ∈ (Reading.ofDocument Delimiters.standard "js" true "x<?: py f(1 %> 0) ?><?=".toList).requests := by
    decide
  obtain ⟨d, own, code, hd, -, hsource, htag, hiff⟩ := request_reads_back_iff hmem
  obtain rfl : d = .question := by
    have hquestion : Delimiters.detect Delimiters.standard "x<?: py f(1 %> 0) ?><?=".toList = some .question := by decide
    exact Option.some.inj (hd.symm.trans hquestion)
  obtain rfl : own = ['p', 'y'] := by
    simpa [r] using (congrArg String.toList htag).symm
  have hcode : Text.trim code = "f(1 %> 0)".toList := by
    have hprinted : "<?py ".toList ++ "f(1 %> 0)".toList = "<?py ".toList ++ Text.trim code :=
      List.append_cancel_right hsource
    exact (List.append_cancel_left hprinted).symm
  refine ⟨hmem, fun document name => ?_⟩
  have hread := (hiff.2 (.inl (by simp)) document name).1
  rwa [hcode] at hread

end requests

end ScriptedText
