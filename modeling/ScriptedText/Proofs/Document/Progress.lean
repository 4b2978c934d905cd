import Mathlib.Tactic.ByContra
import ScriptedText.Document.Reading
import ScriptedText.Proofs.Text.Occurrence

/-!
The scan of a document moves on. A turn that neither ends the scan nor fails takes the cursor forward, unless both
delimiters are empty: then it comes back to where it was and the scan never ends.
-/

namespace ScriptedText

theorem Text.length_le_units (cs : List Char) : cs.length ≤ Text.units cs := by
  induction cs with
  | nil => simp [Text.units]
  | cons c cs ih =>
      have hwidth : 1 ≤ Text.width c := by
        simp only [Text.width]
        split <;> omega
      simp only [Text.units, List.foldr_cons, List.length_cons] at ih ⊢
      omega

/-- Where a scan is, and the text from there on. -/
structure Cursor where
  place : Place
  rest : List Char

namespace Delimiters

variable {d : Delimiters} {c c' : Cursor} {n turns : Nat} {cs literal body rest : List Char} {p : Place}

def IsEmpty (d : Delimiters) : Prop := d.opening = "" ∧ d.closing = ""

/-- A turn after which the scan goes on: over a literal and a scriptlet. -/
inductive GoesOver (d : Delimiters) : Cursor → Cursor → Prop
  | scriptlet {p : Place} {cs literal body rest : List Char} (hne : cs ≠ [])
      (ht : d.turn cs = .scriptlet literal body rest) :
      GoesOver d ⟨p, cs⟩
        ⟨(((p.after literal).after d.opening.toList).after body).after d.closing.toList, rest⟩

/-- The number of turns in which a scan comes to its end, if it ever does. -/
inductive Takes (d : Delimiters) : Cursor → Nat → Prop
  | atEnd (p : Place) : Takes d ⟨p, []⟩ 0
  | leaves {c : Cursor} (hne : c.rest ≠ []) (h : ∀ c', ¬ d.GoesOver c c') : Takes d c 1
  | goesOn {c c' : Cursor} {n : Nat} (h : d.GoesOver c c') (hn : Takes d c' n) : Takes d c (n + 1)

/-! What one turn does to the cursor. -/

theorem GoesOver.unique {c'' : Cursor} (h : d.GoesOver c c') (h' : d.GoesOver c c'') : c' = c'' := by
  cases h with
  | scriptlet hne ht =>
      cases h' with
      | scriptlet hne' ht' =>
          rw [ht] at ht'
          cases ht'
          rfl

/-- The cursor goes over some text, and that is none only if both delimiters are. -/
theorem GoesOver.exists_skipped (h : d.GoesOver c c') :
    ∃ skipped, c.rest = skipped ++ c'.rest ∧ c'.place = c.place.after skipped ∧ (skipped = [] → d.IsEmpty) := by
  cases h with
  | @scriptlet p cs literal body rest hne ht =>
      refine ⟨literal ++ d.opening.toList ++ (body ++ d.closing.toList), ?_, ?_, ?_⟩
      · simpa only [List.append_assoc] using eq_append_of_turn ht
      · simp only [Place.after_append]
      · intro hskipped
        simp only [List.append_eq_nil_iff] at hskipped
        obtain ⟨⟨-, ho⟩, -, hc⟩ := hskipped
        exact ⟨String.toList_eq_nil_iff.1 ho, String.toList_eq_nil_iff.1 hc⟩

theorem GoesOver.length_lt (hd : ¬ d.IsEmpty) (h : d.GoesOver c c') : c'.rest.length < c.rest.length := by
  obtain ⟨skipped, hrest, -, hempty⟩ := h.exists_skipped
  have hpos : 0 < skipped.length := List.length_pos_iff.2 fun hs => hd (hempty hs)
  rw [hrest, List.length_append]
  omega

theorem GoesOver.offset_lt (hd : ¬ d.IsEmpty) (h : d.GoesOver c c') : c.place.offset < c'.place.offset := by
  obtain ⟨skipped, -, hplace, hempty⟩ := h.exists_skipped
  have hpos : 0 < skipped.length := List.length_pos_iff.2 fun hs => hd (hempty hs)
  have hunits := Text.length_le_units skipped
  rw [hplace, Place.offset_after]
  omega

/-- With both delimiters empty a turn finds an empty scriptlet right where it starts. -/
theorem IsEmpty.turn_eq (hd : d.IsEmpty) (cs : List Char) : d.turn cs = .scriptlet [] [] cs := by
  have hcut : Text.cut [] cs = some ([], cs) :=
    Text.cut_eq_some_iff.2 ⟨rfl, fun b _ _ => Nat.zero_le b.length⟩
  obtain ⟨ho, hc⟩ := hd
  simp only [turn, ho, hc, String.toList_empty, hcut]

theorem IsEmpty.goesOver_iff (hd : d.IsEmpty) (hne : c.rest ≠ []) : d.GoesOver c c' ↔ c' = c := by
  have hstays : d.GoesOver c c := by
    have h := GoesOver.scriptlet (p := c.place) hne (hd.turn_eq c.rest)
    obtain ⟨ho, hc⟩ := hd
    simpa only [ho, hc, String.toList_empty, Place.after, List.foldl_nil] using h
  constructor
  · intro h
    exact h.unique hstays
  · rintro rfl
    exact hstays

/-! What the turns of a scan come to. -/

theorem Takes.le_length (hd : ¬ d.IsEmpty) (h : d.Takes c n) : n ≤ c.rest.length := by
  induction h with
  | atEnd p => exact Nat.zero_le _
  | leaves hne => exact List.length_pos_iff.2 hne
  | goesOn h hn ih =>
      have hlt := h.length_lt hd
      omega

/-- The text that is left is shorter after every turn, so that the turns come to an end. -/
theorem exists_takes (hd : ¬ d.IsEmpty) (c : Cursor) : ∃ n, d.Takes c n := by
  induction hl : c.rest.length using Nat.strongRecOn generalizing c with
  | _ l ih =>
      subst hl
      by_cases hgoes : ∃ c', d.GoesOver c c'
      · obtain ⟨c', h⟩ := hgoes
        obtain ⟨n, hn⟩ := ih c'.rest.length (h.length_lt hd) c' rfl
        exact ⟨n + 1, .goesOn h hn⟩
      · obtain ⟨p, cs⟩ := c
        by_cases hne : cs = []
        · subst hne
          exact ⟨0, .atEnd p⟩
        · exact ⟨1, .leaves hne (not_exists.1 hgoes)⟩

theorem IsEmpty.not_takes (hd : d.IsEmpty) (hne : c.rest ≠ []) (n : Nat) : ¬ d.Takes c n := by
  intro h
  induction h with
  | atEnd p => exact hne rfl
  | @leaves c _ hends => exact hends c ((hd.goesOver_iff hne).2 rfl)
  | goesOn h hn ih =>
      obtain rfl := (hd.goesOver_iff hne).1 h
      exact ih hne

/-- The scan that is cut off after some turns has not ended exactly if it takes more of them. -/
theorem ending_scanTurns_iff (d : Delimiters) (turns : Nat) (p : Place) (cs : List Char) :
    (scanTurns d turns p cs).2 ≠ .endless ↔ ∃ n ≤ turns, d.Takes ⟨p, cs⟩ n := by
  induction turns generalizing p cs with
  | zero =>
      cases cs with
      | nil => simpa [scanTurns] using Takes.atEnd p
      | cons x cs =>
          have hnone : ¬ d.Takes ⟨p, x :: cs⟩ 0 := by
            intro h
            cases h
          simpa [scanTurns] using hnone
  | succ turns ih =>
      cases cs with
      | nil => simpa [scanTurns] using ⟨0, Nat.zero_le _, Takes.atEnd p⟩
      | cons x cs =>
          have hne : x :: cs ≠ [] := List.cons_ne_nil x cs
          have hleaves (h : ∀ c', ¬ d.GoesOver ⟨p, x :: cs⟩ c') : ∃ n ≤ turns + 1, d.Takes ⟨p, x :: cs⟩ n :=
            ⟨1, Nat.le_add_left 1 turns, .leaves hne h⟩
          cases ht : d.turn (x :: cs) with
          | tail | unclosed literal =>
              simp only [scanTurns, ht, ne_eq, reduceCtorEq, not_false_eq_true, true_iff]
              apply hleaves
              intro c' h
              cases h with
              | scriptlet _ ht' => simp [ht] at ht'
          | scriptlet literal body rest =>
              have hgoes := GoesOver.scriptlet (p := p) hne ht
              simp only [scanTurns, ht, ih]
              constructor
              · rintro ⟨n, hle, hn⟩
                exact ⟨n + 1, Nat.succ_le_succ hle, .goesOn hgoes hn⟩
              · rintro ⟨n, hle, hn⟩
                cases hn with
                | leaves _ hends => exact absurd hgoes (hends _)
                | @goesOn _ c' n h hn =>
                    obtain rfl := hgoes.unique h
                    exact ⟨n, Nat.le_of_succ_le_succ hle, hn⟩

theorem scan_endless_iff (d : Delimiters) (source : List Char) :
    (scan d source).2 = .endless ↔ d.IsEmpty ∧ source ≠ [] := by
  have hiff := ending_scanTurns_iff d source.length {} source
  constructor
  · intro hending
    have hnone : ¬ ∃ n ≤ source.length, d.Takes ⟨{}, source⟩ n := fun h => hiff.2 h hending
    constructor
    · by_contra hd
      obtain ⟨n, hn⟩ := exists_takes hd ⟨{}, source⟩
      exact hnone ⟨n, hn.le_length hd, hn⟩
    · rintro rfl
      exact hnone ⟨0, Nat.zero_le _, .atEnd {}⟩
  · rintro ⟨hd, hne⟩
    by_contra hending
    obtain ⟨n, -, hn⟩ := hiff.1 hending
    exact hd.not_takes hne n hn

/-- Empty scriptlets make no parts. -/
theorem IsEmpty.readPieces_scanTurns (hd : d.IsEmpty) (extract : Bool) (active : String) (turns : Nat) (p : Place)
    (cs : List Char) : readPieces d extract active (scanTurns d turns p cs).1 = [] := by
  induction turns generalizing active p with
  | zero => cases cs <;> rfl
  | succ turns ih =>
      cases cs with
      | nil => rfl
      | cons x cs =>
          simp only [scanTurns, hd.turn_eq, Piece.literals, List.isEmpty_nil, if_true, List.nil_append, readPieces]
          rw [ih]
          rfl

end Delimiters

section document

variable {styles : List Delimiters} {tag : String} {extract : Bool} {source : List Char} {r : Request}

theorem ending_ofDocument_iff : (Reading.ofDocument styles tag extract source).ending = .endless ↔
    ∃ d, Delimiters.detect styles source = some d ∧ d.IsEmpty ∧ source ≠ [] := by
  simp only [Reading.ofDocument]
  cases Delimiters.detect styles source with
  | none => simp
  | some d => simpa using d.scan_endless_iff source

/-- A body that is handed out is shorter than its document, also where the scan never ends: no body is handed out
there. -/
theorem request_shorter (h : r ∈ (Reading.ofDocument styles tag extract source).requests) :
    r.source.length < source.length := by
  apply length_lt_of_mem_requests h
  intro hending
  obtain ⟨d, hd, hempty, -⟩ := ending_ofDocument_iff.1 hending
  simp [Reading.requests, Reading.ofDocument, hd, scan, hempty.readPieces_scanTurns] at h

/-- Segmentation ends unless the style of the document has two empty delimiters and there is text to read. With every
other style each turn that goes on moves the cursor forward, so that there are no more turns than 16-bit units; with that
one a turn comes back to the cursor that it started from. -/
theorem segmentation_ends_iff (styles : List Delimiters) (document tag : String)
    (inFlow : Option (Nat → Request → String)) (source : List Char) :
    (segmentDocument styles document tag inFlow source = .error .endless ↔
        ∃ d, Delimiters.detect styles source = some d ∧ d.IsEmpty ∧ source ≠ []) ∧
      ∀ d, Delimiters.detect styles source = some d →
        (¬ d.IsEmpty →
          (∀ c c', d.GoesOver c c' → c.place.offset < c'.place.offset) ∧
            (∃ n, d.Takes ⟨{}, source⟩ n) ∧ ∀ n, d.Takes ⟨{}, source⟩ n → n ≤ Text.units source) ∧
        (d.IsEmpty → source ≠ [] →
          (∀ c', d.GoesOver ⟨{}, source⟩ c' ↔ c' = ⟨{}, source⟩) ∧ ∀ n, ¬ d.Takes ⟨{}, source⟩ n) := by
  have hending := @ending_ofDocument_iff styles tag inFlow.isSome source
  refine ⟨?_, fun d _ => ⟨fun hd => ⟨?_, ?_, ?_⟩, fun hd hne => ⟨?_, ?_⟩⟩⟩
  · rw [← hending]
    simp only [segmentDocument, Reading.failure?]
    cases (Reading.ofDocument styles tag inFlow.isSome source).ending <;> simp [Problem.failure]
  · intro c c' h
    exact h.offset_lt hd
  · exact d.exists_takes hd _
  · intro n hn
    exact Nat.le_trans (hn.le_length hd) (Text.length_le_units source)
  · intro c'
    exact hd.goesOver_iff hne
  · intro n
    exact hd.not_takes hne n

end document

end ScriptedText
