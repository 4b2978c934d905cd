import ScriptedText.Proofs.Document.Segmentation
import Mathlib.Data.List.TakeWhile

/-!
The grammar of scriptlets, said without an algorithm: which marker, tag and code a body has, and which language is
active where. The segments of a document are those that the grammar gives to its layout.
-/

namespace ScriptedText

open Text (isBlank)

/-- The marker of a body is its first character, if it is one of three. Blanks behind an in-flow marker count for
nothing. -/
inductive Marked : List Char → Marker → List Char → Prop
  | expression (rest : List Char) : Marked ('=' :: rest) .expression rest
  | inclusion (rest : List Char) : Marked ('&' :: rest) .inclusion rest
  | inFlow {blanks rest : List Char} (hb : ∀ c ∈ blanks, isBlank c) (hr : ∀ c ∈ rest.head?, ¬ isBlank c) :
      Marked (':' :: (blanks ++ rest)) .inFlow rest
  | plain {body : List Char} (h : ∀ c ∈ body.head?, c ≠ '=' ∧ c ≠ '&' ∧ c ≠ ':') : Marked body .plain body

/-- What starts with no blank but has one starts with a tag, and the first blank parts it from the code. All else is
code. -/
inductive Tagged : List Char → Option (List Char) → List Char → Prop
  | tagged {tag code : List Char} {c : Char} (hne : tag ≠ []) (ht : ∀ x ∈ tag, ¬ isBlank x) (hc : isBlank c) :
      Tagged (tag ++ c :: code) (some tag) code
  | untagged {rest : List Char} (h : (∀ c ∈ rest.head?, isBlank c) ∨ ∀ c ∈ rest, ¬ isBlank c) :
      Tagged rest none rest

def Scriptlet.Reads (s : Scriptlet) (body : List Char) : Prop :=
  ∃ rest, Marked body s.marker rest ∧ Tagged rest s.tag s.code

/-- The language behind some scriptlets: the tag of the nearest one that has a tag and is not in-flow. -/
def languageAfter (tag : String) (earlier : List Scriptlet) : String :=
  (earlier.reverse.findSome? fun s => if s.marker = .inFlow then none else s.tagName).getD tag

/-- A literal in the language `active` behind the text `before`; an empty one is none. -/
def literalSegments (active : String) (before text : List Char) : List RawSegment :=
  if text = [] then []
  else [⟨.literal, active, (Place.behind before).line, (Place.behind before).column, String.ofList text⟩]

/-- The segment of a scriptlet behind the text `before`. -/
def scriptletSegment (kind : SegmentKind) (tag : String) (before : List Char) (text : String) : RawSegment :=
  ⟨kind, tag, (Place.behind before).line, (Place.behind before).column, text⟩

/-- The text behind a scriptlet that stands, after a literal, behind the text `before`. -/
def textBehind (d : Delimiters) (before literal body : List Char) : List Char :=
  before ++ literal ++ d.opening.toList ++ body ++ d.closing.toList

/-- The segments that the scriptlets and literals of a layout make from left to right, after the scriptlets `earlier`
and the text `before`, when `k` bodies were handed out already. -/
inductive Rendering (d : Delimiters) (tag : String) (inFlow : Option (Nat → Request → String)) :
    List Scriptlet → Nat → List Char → List (List Char × List Char) → List Char → List RawSegment → Prop
  | last (earlier : List Scriptlet) (k : Nat) (before text : List Char) :
      Rendering d tag inFlow earlier k before [] text (literalSegments (languageAfter tag earlier) before text)
  | blank {earlier k before literal body s pairs text segments} (hs : s.Reads body)
      (hc : ∀ c ∈ s.code, isBlank c)
      (h : Rendering d tag inFlow (earlier ++ [s]) k (textBehind d before literal body) pairs text segments) :
      Rendering d tag inFlow earlier k before ((literal, body) :: pairs) text
        (literalSegments (languageAfter tag earlier) before literal ++ segments)
  | program {earlier k before literal body s pairs text segments} (hs : s.Reads body)
      (hc : ¬ ∀ c ∈ s.code, isBlank c) (hm : s.marker ≠ .inFlow)
      (h : Rendering d tag inFlow (earlier ++ [s]) k (textBehind d before literal body) pairs text segments) :
      Rendering d tag inFlow earlier k before ((literal, body) :: pairs) text
        (literalSegments (languageAfter tag earlier) before literal ++
          scriptletSegment s.marker.kind (s.tagName.getD (languageAfter tag earlier)) (before ++ literal)
            (String.ofList s.code) :: segments)
  | handedOut {earlier k before literal body s pairs text segments own name} (hs : s.Reads body)
      (hc : ¬ ∀ c ∈ s.code, isBlank c) (hm : s.marker = .inFlow) (ht : s.tag = some own)
      (hn : inFlow = some name) (ha : String.ofList own ≠ languageAfter tag earlier)
      (h : Rendering d tag inFlow (earlier ++ [s]) (k + 1) (textBehind d before literal body) pairs text segments) :
      Rendering d tag inFlow earlier k before ((literal, body) :: pairs) text
        (literalSegments (languageAfter tag earlier) before literal ++
          scriptletSegment .inclusion (languageAfter tag earlier) (before ++ literal)
            ("'" ++ name k ⟨Request.rewrap d own s.code, String.ofList own, .behind (before ++ literal),
              languageAfter tag earlier⟩ ++ "'") :: segments)
  | inPlace {earlier k before literal body s pairs text segments} (hs : s.Reads body)
      (hc : ¬ ∀ c ∈ s.code, isBlank c) (hm : s.marker = .inFlow)
      (ha : inFlow = none ∨ s.tagName.getD (languageAfter tag earlier) = languageAfter tag earlier)
      (h : Rendering d tag inFlow (earlier ++ [s]) k (textBehind d before literal body) pairs text segments) :
      Rendering d tag inFlow earlier k before ((literal, body) :: pairs) text
        (literalSegments (languageAfter tag earlier) before literal ++
          scriptletSegment .plain (s.tagName.getD (languageAfter tag earlier)) (before ++ literal)
            (String.ofList s.code) :: segments)

/-! The reader of bodies finds what the grammar says. -/

theorem trimLeft_append {blanks rest : List Char} (hb : ∀ c ∈ blanks, isBlank c)
    (hr : ∀ c ∈ rest.head?, ¬ isBlank c) : Text.trimLeft (blanks ++ rest) = rest := by
  rw [Text.trimLeft, List.dropWhile_append_of_pos hb]
  cases rest with
  | nil => rfl
  | cons c rest => exact List.dropWhile_cons_of_neg (hr c rfl)

theorem markerOf_of_marked {body rest : List Char} {m : Marker} (h : Marked body m rest) :
    Scriptlet.markerOf body = (m, rest) := by
  cases h with
  | expression => rfl
  | inclusion => rfl
  | inFlow hb hr =>
      have hc : Marker.ofChar? ':' = some .inFlow := rfl
      simp only [Scriptlet.markerOf, hc, trimLeft_append hb hr]
  | plain h =>
      cases body with
      | nil => rfl
      | cons c rest =>
          obtain ⟨h₁, h₂, h₃⟩ := h c rfl
          simp only [Scriptlet.markerOf, Marker.ofChar?, if_neg h₁, if_neg h₂, if_neg h₃]

theorem marked_markerOf (body : List Char) :
    Marked body (Scriptlet.markerOf body).1 (Scriptlet.markerOf body).2 := by
  cases body with
  | nil => exact .plain (by simp)
  | cons c rest =>
      by_cases h₁ : c = '='
      · subst h₁
        exact .expression rest
      by_cases h₂ : c = '&'
      · subst h₂
        exact .inclusion rest
      by_cases h₃ : c = ':'
      · subst h₃
        have hsplit := List.takeWhile_append_dropWhile (p := isBlank) (l := rest)
        have hmark : Marked (':' :: (rest.takeWhile isBlank ++ rest.dropWhile isBlank)) .inFlow
            (rest.dropWhile isBlank) := by
          refine .inFlow (fun c hc => List.mem_takeWhile_imp hc) fun c hc hblank => ?_
          have := List.head?_dropWhile_not isBlank rest
          rw [Option.mem_def.1 hc] at this
          simp [hblank] at this
        rw [hsplit] at hmark
        exact hmark
      · have hnone : Marker.ofChar? c = none := by
          simp only [Marker.ofChar?, if_neg h₁, if_neg h₂, if_neg h₃]
        simp only [Scriptlet.markerOf, hnone]
        exact .plain fun x hx => by
          cases hx
          exact ⟨h₁, h₂, h₃⟩

theorem tagOf_of_tagged {rest code : List Char} {tag : Option (List Char)} (h : Tagged rest tag code) :
    Scriptlet.tagOf rest = (tag, code) := by
  cases h with
  | @tagged tag code c hne ht hc =>
      have hword : ∀ x ∈ tag, (!isBlank x) = true := fun x hx => by simpa using ht x hx
      have hdrop : (tag ++ c :: code).dropWhile (!isBlank ·) = c :: code := by
        rw [List.dropWhile_append_of_pos hword]
        simp [hc]
      have htake : (tag ++ c :: code).takeWhile (!isBlank ·) = tag := by
        rw [List.takeWhile_append_of_pos hword]
        simp [hc]
      simp only [Scriptlet.tagOf, hdrop, htake, List.isEmpty_iff, if_neg hne]
  | untagged h =>
      rcases h with h | h
      · cases rest with
        | nil => rfl
        | cons c rest =>
            have hc : isBlank c = true := h c rfl
            simp [Scriptlet.tagOf, hc]
      · have hdrop : rest.dropWhile (!isBlank ·) = [] :=
          List.dropWhile_eq_nil_iff.2 fun x hx => by simpa using h x hx
        simp only [Scriptlet.tagOf, hdrop]

theorem tagged_tagOf (rest : List Char) : Tagged rest (Scriptlet.tagOf rest).1 (Scriptlet.tagOf rest).2 := by
  have hsplit := List.takeWhile_append_dropWhile (p := (!isBlank ·)) (l := rest)
  cases hdrop : rest.dropWhile (!isBlank ·) with
  | nil =>
      simp only [Scriptlet.tagOf, hdrop]
      exact .untagged (.inr fun x hx => by simpa using List.dropWhile_eq_nil_iff.1 hdrop x hx)
  | cons c code =>
      have hc : isBlank c := by
        have := List.head?_dropWhile_not (!isBlank ·) rest
        rw [hdrop] at this
        simpa using this
      rw [hdrop] at hsplit
      by_cases hempty : rest.takeWhile (!isBlank ·) = []
      · simp only [Scriptlet.tagOf, hdrop, hempty, List.isEmpty_nil, if_true]
        rw [hempty, List.nil_append] at hsplit
        refine .untagged (.inl fun x hx => ?_)
        rw [← hsplit] at hx
        cases hx
        exact hc
      · simp only [Scriptlet.tagOf, hdrop, List.isEmpty_iff, if_neg hempty]
        have hword : ∀ x ∈ rest.takeWhile (!isBlank ·), ¬ isBlank x := fun x hx => by
          simpa using List.mem_takeWhile_imp hx
        have htag : Tagged (rest.takeWhile (!isBlank ·) ++ c :: code) (some (rest.takeWhile (!isBlank ·))) code :=
          .tagged hempty hword hc
        rwa [hsplit] at htag

theorem Scriptlet.reads_iff {body : List Char} {s : Scriptlet} : s.Reads body ↔ s = Scriptlet.ofBody body := by
  constructor
  · rintro ⟨rest, hm, ht⟩
    simp only [Scriptlet.ofBody, markerOf_of_marked hm, tagOf_of_tagged ht]
  · rintro rfl
    exact ⟨_, marked_markerOf body, tagged_tagOf _⟩

/-! What each kind of scriptlet makes. -/

section parts

variable {d : Delimiters} {extract : Bool} {active tag : String} {p : Place} {s : Scriptlet}

theorem Scriptlet.isBlank_iff : s.isBlank = true ↔ ∀ c ∈ s.code, Text.isBlank c := by
  rw [Scriptlet.isBlank, Text.allBlank, List.all_eq_true]

theorem parts_of_blank (hc : ∀ c ∈ s.code, isBlank c) : s.parts d extract active p = [] := by
  rw [Scriptlet.parts, if_pos (Scriptlet.isBlank_iff.2 hc)]

theorem parts_of_program (hc : ¬ ∀ c ∈ s.code, isBlank c) (hm : s.marker ≠ .inFlow) :
    s.parts d extract active p = [.segmentAt s.marker.kind (s.tagName.getD active) p s.code] := by
  rw [Scriptlet.parts, if_neg (Scriptlet.isBlank_iff.not.2 hc), if_neg hm, Scriptlet.activeAfter, if_neg hm]

theorem parts_of_handedOut {own : List Char} (hc : ¬ ∀ c ∈ s.code, isBlank c) (hm : s.marker = .inFlow)
    (ht : s.tag = some own) (ha : String.ofList own ≠ active) :
    s.parts d true active p = [.request ⟨Request.rewrap d own s.code, String.ofList own, p, active⟩] := by
  rw [Scriptlet.parts, if_neg (Scriptlet.isBlank_iff.not.2 hc), if_pos hm, ht]
  simp only [true_and, ha, ne_eq, not_false_eq_true, if_true]

theorem parts_of_inPlace (hc : ¬ ∀ c ∈ s.code, isBlank c) (hm : s.marker = .inFlow)
    (ha : extract = false ∨ s.tagName.getD active = active) :
    s.parts d extract active p = [.segmentAt .plain (s.tagName.getD active) p s.code] := by
  rw [Scriptlet.parts, if_neg (Scriptlet.isBlank_iff.not.2 hc), if_pos hm]
  cases ht : s.tag with
  | none => simp only [Scriptlet.tagName, ht, Option.map_none, Option.getD_none]
  | some own =>
      have hn : ¬ (extract = true ∧ String.ofList own ≠ active) := by
        rintro ⟨rfl, hne⟩
        exact ha.elim Bool.noConfusion fun h => hne (by simpa [Scriptlet.tagName, ht] using h)
      simp only [if_neg hn, Scriptlet.tagName, ht, Option.map_some, Option.getD_some]

theorem languageAfter_append (earlier : List Scriptlet) (s : Scriptlet) :
    languageAfter tag (earlier ++ [s]) = s.activeAfter (languageAfter tag earlier) := by
  unfold languageAfter Scriptlet.activeAfter
  rw [List.reverse_append, List.reverse_singleton, List.singleton_append, List.findSome?_cons]
  by_cases hm : s.marker = .inFlow
  · simp only [if_pos hm]
  · simp only [if_neg hm]
    cases s.tagName <;> rfl

end parts

section rendering

variable {d : Delimiters} {tag : String} {inFlow : Option (Nat → Request → String)} {earlier : List Scriptlet}
  {k : Nat} {before literal body text : List Char} {pairs : List (List Char × List Char)}
  {segments : List RawSegment}

/-- The segments of a layout by the functions that read it. -/
def renderingOf (d : Delimiters) (inFlow : Option (Nat → Request → String)) (active : String) (k : Nat)
    (before : List Char) (pairs : List (List Char × List Char)) (text : List Char) : List RawSegment :=
  placeParts (inFlow.getD fun _ _ => "") k (readPieces d inFlow.isSome active (layoutPieces d before pairs text))

theorem renderingOf_nil (active : String) : renderingOf d inFlow active k before [] text =
    literalSegments active before text := by
  unfold renderingOf literalSegments
  cases text <;> rfl

theorem renderingOf_cons (active : String) : renderingOf d inFlow active k before ((literal, body) :: pairs) text =
    literalSegments active before literal ++
      placeParts (inFlow.getD fun _ _ => "") k
        ((Scriptlet.ofBody body).parts d inFlow.isSome active (.behind (before ++ literal)) ++
          readPieces d inFlow.isSome ((Scriptlet.ofBody body).activeAfter active)
            (layoutPieces d (textBehind d before literal body) pairs text)) := by
  unfold renderingOf literalSegments
  cases literal <;> rfl

theorem eq_renderingOf (h : Rendering d tag inFlow earlier k before pairs text segments) :
    segments = renderingOf d inFlow (languageAfter tag earlier) k before pairs text := by
  induction h with
  | last => rw [renderingOf_nil]
  | blank hs hc h ih =>
      rw [renderingOf_cons, ← Scriptlet.reads_iff.1 hs, parts_of_blank hc, ih, languageAfter_append]
      rfl
  | program hs hc hm h ih =>
      rw [renderingOf_cons, ← Scriptlet.reads_iff.1 hs, parts_of_program hc hm, ih, languageAfter_append]
      rfl
  | handedOut hs hc hm ht hn ha h ih =>
      rw [renderingOf_cons, ← Scriptlet.reads_iff.1 hs, hn, Option.isSome_some, parts_of_handedOut hc hm ht ha, ih,
        languageAfter_append, hn]
      rfl
  | inPlace hs hc hm ha h ih =>
      rw [renderingOf_cons, ← Scriptlet.reads_iff.1 hs,
        parts_of_inPlace hc hm (ha.imp_left fun hn => by rw [hn, Option.isSome_none]), ih, languageAfter_append]
      rfl

theorem rendering_exists (d : Delimiters) (tag : String) (inFlow : Option (Nat → Request → String))
    (earlier : List Scriptlet) (k : Nat) (before : List Char) (pairs : List (List Char × List Char))
    (text : List Char) : ∃ segments, Rendering d tag inFlow earlier k before pairs text segments := by
  induction pairs generalizing earlier k before with
  | nil => exact ⟨_, .last earlier k before text⟩
  | cons pair pairs ih =>
      obtain ⟨literal, body⟩ := pair
      have hs : (Scriptlet.ofBody body).Reads body := Scriptlet.reads_iff.2 rfl
      obtain ⟨next, hnext⟩ := ih (earlier ++ [Scriptlet.ofBody body]) k (textBehind d before literal body)
      by_cases hc : ∀ c ∈ (Scriptlet.ofBody body).code, isBlank c
      · exact ⟨_, .blank hs hc hnext⟩
      by_cases hm : (Scriptlet.ofBody body).marker = .inFlow
      · by_cases ha : inFlow = none ∨
            (Scriptlet.ofBody body).tagName.getD (languageAfter tag earlier) = languageAfter tag earlier
        · exact ⟨_, .inPlace hs hc hm ha hnext⟩
        · obtain ⟨hn, ha⟩ := not_or.1 ha
          obtain ⟨name, hn⟩ := Option.ne_none_iff_exists'.1 hn
          cases ht : (Scriptlet.ofBody body).tag with
          | none => simp [Scriptlet.tagName, ht] at ha
          | some own =>
              obtain ⟨next, hnext⟩ := ih (earlier ++ [Scriptlet.ofBody body]) (k + 1) (textBehind d before literal body)
              exact ⟨_, .handedOut hs hc hm ht hn (by simpa [Scriptlet.tagName, ht] using ha) hnext⟩
      · exact ⟨_, .program hs hc hm hnext⟩

theorem rendering_iff : Rendering d tag inFlow earlier k before pairs text segments ↔
    segments = renderingOf d inFlow (languageAfter tag earlier) k before pairs text := by
  refine ⟨eq_renderingOf, ?_⟩
  rintro rfl
  obtain ⟨segments, h⟩ := rendering_exists d tag inFlow earlier k before pairs text
  rwa [← eq_renderingOf h]

end rendering

/-- The segments of a document, with their kinds, languages and texts, are those that the grammar of scriptlets gives
to the leftmost layout; each literal and each scriptlet without a tag of its own is in the language of the nearest
earlier scriptlet that has a tag and is not in-flow. A document without a scriptlet is in its default language. -/
theorem segmentDocument_eq_ok_iff_rendering (styles : List Delimiters) (document tag : String)
    (inFlow : Option (Nat → Request → String)) (source : List Char)
    (hne : ∀ d ∈ styles, d.opening ≠ "" ∧ d.closing ≠ "") :
    ((∀ d ∈ styles, ¬ d.opening.toList <:+: source) →
      segmentDocument styles document tag inFlow source =
        .ok (if source = [] then [] else [⟨.literal, tag, 1, 1, String.ofList source⟩], none)) ∧
    ∀ earlier d later, styles = earlier ++ d :: later → (∀ x ∈ earlier, ¬ x.opening.toList <:+: source) →
      d.opening.toList <:+: source →
      ∀ segments, segmentDocument styles document tag inFlow source = .ok (segments, some d) ↔
        ∃ pairs last, Layout d source pairs last ∧ Rendering d tag inFlow [] 0 [] pairs last segments := by
  refine ⟨fun h => segmentDocument_of_none (detect_eq_none h), ?_⟩
  rintro earlier d later rfl hearlier hoccurs segments
  have hopen : d.opening ≠ "" := (hne d (by simp)).1
  have hd : Delimiters.detect (earlier ++ d :: later) source = some d := detect_eq_some hearlier hoccurs
  constructor
  · intro hok
    rcases layout_or_unclosed (toList_ne_nil hopen) source with ⟨pairs, last, hl⟩ | ⟨pairs, literal, hu⟩
    · refine ⟨pairs, last, hl, rendering_iff.2 ?_⟩
      rw [segmentDocument_of_layout hd hopen hl] at hok
      exact (congrArg Prod.fst (Except.ok.inj hok)).symm
    · rw [segmentDocument_of_unclosed hd hopen hu] at hok
      cases hok
  · rintro ⟨pairs, last, hl, hr⟩
    rw [segmentDocument_of_layout hd hopen hl, rendering_iff.1 hr]
    rfl

theorem segmentDocument_eq_ok_iff_rendering_across_languages :
    (∀ d ∈ Delimiters.standard, d.opening ≠ "" ∧ d.closing ≠ "") ∧
    ∃ pairs last, Layout .percent "x<%py a%>y<%: js b%>z<%= c%>".toList pairs last ∧
      Rendering .percent "js" (some fun k _ => "FLOW" ++ toString k) [] 0 [] pairs last
        [⟨.literal, "js", 1, 1, "x"⟩, ⟨.plain, "py", 1, 2, "a"⟩, ⟨.literal, "py", 1, 10, "y"⟩,
          ⟨.inclusion, "py", 1, 11, "'FLOW0'"⟩, ⟨.literal, "py", 1, 21, "z"⟩, ⟨.expression, "py", 1, 22, " c"⟩] := by
  have hne : ∀ d ∈ Delimiters.standard, d.opening ≠ "" ∧ d.closing ≠ "" := by decide
  have hoccurs : "<%".toList <:+: "x<%py a%>y<%: js b%>z<%= c%>".toList := Text.occurs_iff.1 (by decide)
  have hiff := (segmentDocument_eq_ok_iff_rendering Delimiters.standard "doc" "js"
    (some fun k _ => "FLOW" ++ toString k) "x<%py a%>y<%: js b%>z<%= c%>".toList hne).2
    [] .percent [.question] rfl (by simp) hoccurs
  exact ⟨hne, (hiff _).1 (by rfl)⟩

end ScriptedText
