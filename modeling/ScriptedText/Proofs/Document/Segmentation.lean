import ScriptedText.Document.Reading
import ScriptedText.Proofs.Document.Layout

/-!
What cutting a document into segments comes to: it fails on the first scriptlet that is never closed and else
follows the leftmost layout, with a segment for every literal and every body of code and each at its place.
-/

namespace ScriptedText

/-- A segment seen from outside: its text, where it is literal, and the line and column that it starts at. -/
def RawSegment.outline (s : RawSegment) : Option String × Nat × Nat :=
  (if s.kind = .literal then some s.text else none, s.line, s.column)

def Part.outline : Part → Option String × Nat × Nat
  | .segment s => s.outline
  | .request r => (none, r.place.line, r.place.column)

def literalOutline (before text : List Char) : List (Option String × Nat × Nat) :=
  if text = [] then []
  else [(some (String.ofList text), (Place.behind before).line, (Place.behind before).column)]

/-- A body has a segment unless its code is blank. It starts at its opening delimiter. -/
def bodyOutline (before body : List Char) : List (Option String × Nat × Nat) :=
  if (Scriptlet.ofBody body).isBlank then []
  else [(none, (Place.behind before).line, (Place.behind before).column)]

/-- The segments that a layout behind the text `before` should have, seen from outside. -/
def layoutOutline (d : Delimiters) :
    List Char → List (List Char × List Char) → List Char → List (Option String × Nat × Nat)
  | before, [], last => literalOutline before last
  | before, (literal, body) :: pairs, last =>
    literalOutline before literal ++ bodyOutline (before ++ literal) body ++
      layoutOutline d (before ++ literal ++ d.opening.toList ++ body ++ d.closing.toList) pairs last

/-- The places of the opening delimiters of bodies with code. -/
def bodyPlaces (d : Delimiters) : List Char → List (List Char × List Char) → List Place
  | _, [] => []
  | before, (literal, body) :: pairs =>
    (if (Scriptlet.ofBody body).isBlank then [] else [Place.behind (before ++ literal)]) ++
      bodyPlaces d (before ++ literal ++ d.opening.toList ++ body ++ d.closing.toList) pairs

theorem kind_ne_literal (m : Marker) : m.kind ≠ .literal := by cases m <;> decide

section parts

variable {d : Delimiters} {extract : Bool} {active : String} {before last : List Char}
  {pairs : List (List Char × List Char)}

theorem outline_placeParts (name : Nat → Request → String) (k : Nat) (parts : List Part) :
    (placeParts name k parts).map RawSegment.outline = parts.map Part.outline := by
  induction parts generalizing k with
  | nil => rfl
  | cons part rest ih =>
      cases part with
      | segment s => simp only [placeParts, List.map_cons, Part.outline, ih]
      | request r =>
          simp only [placeParts, List.map_cons, ih]
          rfl

theorem outline_scriptlet_parts (s : Scriptlet) (p : Place) :
    (s.parts d extract active p).map Part.outline = if s.isBlank then [] else [(none, p.line, p.column)] := by
  unfold Scriptlet.parts
  split
  · simp
  · split
    · split
      · split <;> rfl
      · rfl
    · have := kind_ne_literal s.marker
      simp [Part.segmentAt, Part.outline, RawSegment.outline, this]

theorem outline_readPieces_literals (text : List Char) (rest : List Piece) :
    (readPieces d extract active (Piece.literals (.behind before) text ++ rest)).map Part.outline =
      literalOutline before text ++ (readPieces d extract active rest).map Part.outline := by
  unfold Piece.literals literalOutline
  cases text with
  | nil => rfl
  | cons c text => rfl

theorem outline_readPieces :
    (readPieces d extract active (layoutPieces d before pairs last)).map Part.outline =
      layoutOutline d before pairs last := by
  induction pairs generalizing before active with
  | nil =>
      have h : (readPieces d extract active (Piece.literals (.behind before) last ++ [])).map Part.outline =
          literalOutline before last ++ (readPieces d extract active []).map Part.outline :=
        outline_readPieces_literals last []
      simpa [layoutPieces, layoutOutline, readPieces] using h
  | cons pair pairs ih =>
      obtain ⟨literal, body⟩ := pair
      rw [layoutPieces, outline_readPieces_literals, layoutOutline, readPieces]
      simp only [List.map_append, outline_scriptlet_parts, ih, bodyOutline, List.append_assoc]

theorem places_scriptlet_parts (s : Scriptlet) (p : Place) :
    (((s.parts d extract active p).filterMap Part.request?).map Request.place).Sublist
      (if s.isBlank then [] else [p]) := by
  unfold Scriptlet.parts
  split
  · simp
  · split
    · split
      · split
        · exact List.Sublist.refl _
        · exact List.nil_sublist _
      · exact List.nil_sublist _
    · exact List.nil_sublist _

theorem requests_readPieces_literals (text : List Char) (rest : List Piece) (p : Place) :
    (readPieces d extract active (Piece.literals p text ++ rest)).filterMap Part.request? =
      (readPieces d extract active rest).filterMap Part.request? := by
  cases text <;> rfl

theorem places_readPieces :
    (((readPieces d extract active (layoutPieces d before pairs last)).filterMap Part.request?).map
      Request.place).Sublist (bodyPlaces d before pairs) := by
  induction pairs generalizing before active with
  | nil =>
      rw [layoutPieces, ← List.append_nil (Piece.literals _ _), requests_readPieces_literals]
      exact List.nil_sublist _
  | cons pair pairs ih =>
      obtain ⟨literal, body⟩ := pair
      rw [layoutPieces, requests_readPieces_literals, readPieces, bodyPlaces, List.filterMap_append, List.map_append]
      exact (places_scriptlet_parts _ _).append ih

end parts

/-! The whole of a document. -/

section document

variable {styles earlier later : List Delimiters} {d : Delimiters} {source last literal : List Char}
  {pairs : List (List Char × List Char)}

theorem detect_eq_none (h : ∀ d ∈ styles, ¬ d.opening.toList <:+: source) :
    Delimiters.detect styles source = none := by
  refine List.find?_eq_none.2 fun d hd => ?_
  rw [Text.occurs_iff]
  exact h d hd

theorem detect_eq_some (he : ∀ x ∈ earlier, ¬ x.opening.toList <:+: source)
    (hd : d.opening.toList <:+: source) : Delimiters.detect (earlier ++ d :: later) source = some d := by
  have hnone := detect_eq_none he
  unfold Delimiters.detect at hnone ⊢
  simp [List.find?_append, hnone, Text.occurs_iff.2 hd]

theorem toList_ne_nil {s : String} (h : s ≠ "") : s.toList ≠ [] := fun hs => h (String.toList_eq_nil_iff.1 hs)

theorem ofDocument_of_none {tag : String} {extract : Bool} (h : Delimiters.detect styles source = none) :
    Reading.ofDocument styles tag extract source =
      ⟨none, readPieces .percent extract tag (Piece.literals {} source), .complete⟩ := by
  simp only [Reading.ofDocument, h]

theorem ofDocument_of_layout {tag : String} {extract : Bool} (hd : Delimiters.detect styles source = some d)
    (hne : d.opening ≠ "") (h : Layout d source pairs last) :
    Reading.ofDocument styles tag extract source =
      ⟨some d, readPieces d extract tag (layoutPieces d [] pairs last), .complete⟩ := by
  simp only [Reading.ofDocument, hd, scan_of_layout (toList_ne_nil hne) h]

theorem ofDocument_of_unclosed {tag : String} {extract : Bool} (hd : Delimiters.detect styles source = some d)
    (hne : d.opening ≠ "") (h : Unclosed d source pairs literal) :
    Reading.ofDocument styles tag extract source =
      ⟨some d, readPieces d extract tag (layoutPieces d [] pairs literal),
        .unclosed (.behind (joined d pairs ++ literal))⟩ := by
  simp only [Reading.ofDocument, hd, scan_of_unclosed (toList_ne_nil hne) h]

variable {document tag : String} {inFlow : Option (Nat → Request → String)}

theorem segmentDocument_of_none (h : Delimiters.detect styles source = none) :
    segmentDocument styles document tag inFlow source =
      .ok (if source = [] then [] else [⟨.literal, tag, 1, 1, String.ofList source⟩], none) := by
  simp only [segmentDocument, ofDocument_of_none h, Reading.failure?]
  cases source <;> rfl

theorem segmentDocument_of_layout (hd : Delimiters.detect styles source = some d) (hne : d.opening ≠ "")
    (h : Layout d source pairs last) :
    segmentDocument styles document tag inFlow source =
      .ok (placeParts (inFlow.getD fun _ _ => "") 0
        (readPieces d inFlow.isSome tag (layoutPieces d [] pairs last)), some d) := by
  simp only [segmentDocument, ofDocument_of_layout hd hne h, Reading.failure?]

/-- The fault of a document in which the opening delimiter behind `before` is never closed. -/
def unclosedFailure (d : Delimiters) (document : String) (before : List Char) : Failure :=
  (Problem.unclosedScriptlet d.closing).failure
    [⟨document, (Place.behind before).line, (Place.behind before).column⟩]

theorem segmentDocument_of_unclosed (hd : Delimiters.detect styles source = some d) (hne : d.opening ≠ "")
    (h : Unclosed d source pairs literal) :
    segmentDocument styles document tag inFlow source =
      .error (unclosedFailure d document (joined d pairs ++ literal)) := by
  simp only [segmentDocument, ofDocument_of_unclosed hd hne h, Reading.failure?]
  rfl

end document

/-- Segmentation loses nothing, puts every segment at its place, and fails exactly on a scriptlet that is never
closed. In a document with the style `d` it succeeds iff the leftmost scan meets no opening delimiter without a
closing one behind it. Then the document is its layout, which is unique, and its segments are the non-empty literals
and the bodies with code, at their places. Else the fault has the place of the first such delimiter as its only site.
Bodies that are handed out are at the places of their opening delimiters, also before a failure. -/
theorem segmentDocument_follows_layout (styles : List Delimiters) (document tag : String)
    (inFlow : Option (Nat → Request → String)) (source : List Char)
    (hne : ∀ d ∈ styles, d.opening ≠ "" ∧ d.closing ≠ "") :
    ((∀ d ∈ styles, ¬ d.opening.toList <:+: source) →
      segmentDocument styles document tag inFlow source =
        .ok (if source = [] then [] else [⟨.literal, tag, 1, 1, String.ofList source⟩], none)) ∧
    ∀ earlier d later, styles = earlier ++ d :: later → (∀ x ∈ earlier, ¬ x.opening.toList <:+: source) →
      d.opening.toList <:+: source →
      ((∃ r, segmentDocument styles document tag inFlow source = .ok r) ↔
        ¬ ∃ pairs literal, Unclosed d source pairs literal) ∧
      (∀ r, segmentDocument styles document tag inFlow source = .ok r →
        r.2 = some d ∧ ∃ pairs last, Layout d source pairs last ∧
          (∀ pairs' last', Layout d source pairs' last' → pairs' = pairs ∧ last' = last) ∧
          source = joined d pairs ++ last ∧
          r.1.map RawSegment.outline = layoutOutline d [] pairs last ∧
          ((Reading.ofDocument styles tag inFlow.isSome source).requests.map Request.place).Sublist
            (bodyPlaces d [] pairs)) ∧
      ∀ pairs literal, Unclosed d source pairs literal →
        segmentDocument styles document tag inFlow source =
          .error (unclosedFailure d document (joined d pairs ++ literal)) ∧
        ((Reading.ofDocument styles tag inFlow.isSome source).requests.map Request.place).Sublist
          (bodyPlaces d [] pairs) := by
  refine ⟨fun h => segmentDocument_of_none (detect_eq_none h), ?_⟩
  rintro earlier d later rfl hearlier hoccurs
  have hopen : d.opening ≠ "" := (hne d (by simp)).1
  have hd : Delimiters.detect (earlier ++ d :: later) source = some d := detect_eq_some hearlier hoccurs
  have hfails : ∀ pairs literal, Unclosed d source pairs literal →
      segmentDocument (earlier ++ d :: later) document tag inFlow source =
        .error (unclosedFailure d document (joined d pairs ++ literal)) :=
    fun _ _ hu => segmentDocument_of_unclosed hd hopen hu
  refine ⟨⟨?_, ?_⟩, ?_, ?_⟩
  · rintro ⟨r, hr⟩ ⟨pairs, literal, hu⟩
    rw [hfails pairs literal hu] at hr
    cases hr
  · intro hu
    obtain ⟨pairs, last, hl⟩ := (layout_or_unclosed (toList_ne_nil hopen) source).resolve_right hu
    exact ⟨_, segmentDocument_of_layout hd hopen hl⟩
  · intro r hr
    rcases layout_or_unclosed (toList_ne_nil hopen) source with ⟨pairs, last, hl⟩ | ⟨pairs, literal, hu⟩
    · rw [segmentDocument_of_layout hd hopen hl] at hr
      cases hr
      refine ⟨rfl, pairs, last, hl, fun _ _ hl' => hl'.unique hl, hl.walk.eq_append, ?_, ?_⟩
      · rw [outline_placeParts, outline_readPieces]
      · rw [ofDocument_of_layout hd hopen hl]
        exact places_readPieces
    · rw [hfails pairs literal hu] at hr
      cases hr
  · intro pairs literal hu
    refine ⟨hfails pairs literal hu, ?_⟩
    rw [ofDocument_of_unclosed hd hopen hu]
    exact places_readPieces

theorem segmentDocument_follows_layout_behind_blank_scriptlet :
    (∀ d ∈ Delimiters.standard, d.opening ≠ "" ∧ d.closing ≠ "") ∧
    segmentDocument Delimiters.standard "doc" "js" none "x\n<% %>y<%= z".toList =
      .error ((Problem.unclosedScriptlet "%>").failure [⟨"doc", 2, 7⟩]) := by
  have hne : ∀ d ∈ Delimiters.standard, d.opening ≠ "" ∧ d.closing ≠ "" := by decide
  have hopen : Text.FirstAt "<%".toList "x\n<% %>y<%= z".toList "x\n".toList " %>y<%= z".toList :=
    Text.firstAt_of_cut (by decide)
  have hclose : Text.FirstAt "%>".toList " %>y<%= z".toList " ".toList "y<%= z".toList :=
    Text.firstAt_of_cut (by decide)
  have hnext : Text.FirstAt "<%".toList "y<%= z".toList "y".toList "= z".toList := Text.firstAt_of_cut (by decide)
  have hnone : ¬ "%>".toList <:+: "= z".toList := Text.cut_eq_none_iff.1 (by decide)
  have hu : Unclosed .percent "x\n<% %>y<%= z".toList [("x\n".toList, " ".toList)] "y".toList :=
    ⟨_, _, .scriptlet hopen hclose (.here _), hnext, hnone⟩
  have h := (segmentDocument_follows_layout Delimiters.standard "doc" "js" none "x\n<% %>y<%= z".toList hne).2
    [] .percent [.question] rfl (by simp) hopen.occurs
  exact ⟨hne, (h.2.2 _ _ hu).1⟩

end ScriptedText
