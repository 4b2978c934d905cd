import ScriptedText.Document.Scan
import ScriptedText.Proofs.Document.Position
import ScriptedText.Proofs.Text.Occurrence

/-!
The leftmost layout of a document: literals and bodies in turn, each delimiter the next that stands after the
cursor. A scan finds the layout of a document that has one, and else the first opening delimiter that is never
closed.
-/

namespace ScriptedText

/-- The cursor goes over scriptlets, each with the literal before it, and leaves `rest`. -/
inductive Walk (d : Delimiters) : List Char → List (List Char × List Char) → List Char → Prop
  | here (cs : List Char) : Walk d cs [] cs
  | scriptlet {cs literal opened body closed rest : List Char} {pairs : List (List Char × List Char)}
      (ho : Text.FirstAt d.opening.toList cs literal opened)
      (hc : Text.FirstAt d.closing.toList opened body closed)
      (hw : Walk d closed pairs rest) : Walk d cs ((literal, body) :: pairs) rest

/-- Scriptlets with the literals before them, and the literal after the last one. -/
structure Layout (d : Delimiters) (cs : List Char) (pairs : List (List Char × List Char)) (last : List Char) :
    Prop where
  walk : Walk d cs pairs last
  done : ¬ d.opening.toList <:+: last

/-- After some scriptlets and a literal comes an opening delimiter without a closing one behind it. -/
def Unclosed (d : Delimiters) (cs : List Char) (pairs : List (List Char × List Char)) (literal : List Char) : Prop :=
  ∃ rest opened, Walk d cs pairs rest ∧ Text.FirstAt d.opening.toList rest literal opened ∧
    ¬ d.closing.toList <:+: opened

/-- The text of scriptlets with the literals before them. -/
def joined (d : Delimiters) (pairs : List (List Char × List Char)) : List Char :=
  pairs.flatMap fun p => p.1 ++ d.opening.toList ++ p.2 ++ d.closing.toList

/-- The pieces of a layout behind the text `before`. -/
def layoutPieces (d : Delimiters) : List Char → List (List Char × List Char) → List Char → List Piece
  | before, [], last => Piece.literals (.behind before) last
  | before, (literal, body) :: pairs, last =>
    Piece.literals (.behind before) literal ++ .scriptlet (.behind (before ++ literal)) body ::
      layoutPieces d (before ++ literal ++ d.opening.toList ++ body ++ d.closing.toList) pairs last

variable {d : Delimiters} {cs rest last literal : List Char} {pairs : List (List Char × List Char)}

theorem Walk.eq_append (h : Walk d cs pairs rest) : cs = joined d pairs ++ rest := by
  induction h with
  | here cs => rfl
  | scriptlet ho hc hw ih =>
      rw [ho.eq, hc.eq, ih]
      simp [joined]

theorem Walk.unique {rest' : List Char} {pairs' : List (List Char × List Char)} (h : Walk d cs pairs rest)
    (h' : Walk d cs pairs' rest') (hr : ¬ d.opening.toList <:+: rest) (hr' : ¬ d.opening.toList <:+: rest') :
    pairs = pairs' ∧ rest = rest' := by
  induction h generalizing pairs' with
  | here cs =>
      cases h' with
      | here => exact ⟨rfl, rfl⟩
      | scriptlet ho => exact absurd ho.occurs hr
  | scriptlet ho hc hw ih =>
      cases h' with
      | here => exact absurd ho.occurs hr'
      | scriptlet ho' hc' hw' =>
          obtain ⟨rfl, rfl⟩ := ho.unique ho'
          obtain ⟨rfl, rfl⟩ := hc.unique hc'
          obtain ⟨rfl, rfl⟩ := ih hw' hr
          exact ⟨rfl, rfl⟩

theorem Layout.unique {last' : List Char} {pairs' : List (List Char × List Char)} (h : Layout d cs pairs last)
    (h' : Layout d cs pairs' last') : pairs = pairs' ∧ last = last' :=
  h.walk.unique h'.walk h.done h'.done

/-! Every text has a layout or an opening delimiter that is not closed. -/

theorem layout_or_unclosed (ho : d.opening.toList ≠ []) (cs : List Char) :
    (∃ pairs last, Layout d cs pairs last) ∨ ∃ pairs literal, Unclosed d cs pairs literal := by
  induction hn : cs.length using Nat.strongRecOn generalizing cs with
  | _ n ih =>
      subst hn
      cases hcut : Text.cut d.opening.toList cs with
      | none => exact .inl ⟨[], cs, .here cs, Text.cut_eq_none_iff.1 hcut⟩
      | some p =>
          have hopen := Text.firstAt_of_cut hcut
          cases hcut' : Text.cut d.closing.toList p.2 with
          | none => exact .inr ⟨[], p.1, cs, p.2, .here cs, hopen, Text.cut_eq_none_iff.1 hcut'⟩
          | some q =>
              have hclose := Text.firstAt_of_cut hcut'
              have hlt : q.2.length < cs.length := Nat.lt_of_le_of_lt hclose.length_le (hopen.length_lt ho)
              rcases ih _ hlt q.2 rfl with ⟨pairs, last, h⟩ | ⟨pairs, literal, rest, opened, hw, h⟩
              · exact .inl ⟨(p.1, q.1) :: pairs, last, .scriptlet hopen hclose h.walk, h.done⟩
              · exact .inr ⟨(p.1, q.1) :: pairs, literal, rest, opened, .scriptlet hopen hclose hw, h⟩

/-! What one turn of the scan finds. -/

namespace Delimiters

theorem turn_eq_tail (h : ¬ d.opening.toList <:+: cs) : d.turn cs = .tail := by
  simp only [turn, Text.cut_eq_none_iff.2 h]

theorem turn_eq_unclosed {opened : List Char} (ho : Text.FirstAt d.opening.toList cs literal opened)
    (hc : ¬ d.closing.toList <:+: opened) : d.turn cs = .unclosed literal := by
  simp only [turn, Text.cut_eq_some_iff.2 ho, Text.cut_eq_none_iff.2 hc]

theorem turn_eq_scriptlet {opened body closed : List Char} (ho : Text.FirstAt d.opening.toList cs literal opened)
    (hc : Text.FirstAt d.closing.toList opened body closed) : d.turn cs = .scriptlet literal body closed := by
  simp only [turn, Text.cut_eq_some_iff.2 ho, Text.cut_eq_some_iff.2 hc]

end Delimiters

/-- The pieces of one turn, before those of the rest. -/
theorem scanTurns_over {opened body closed before : List Char} {turns : Nat} (hne : d.opening.toList ≠ [])
    (ho : Text.FirstAt d.opening.toList cs literal opened) (hc : Text.FirstAt d.closing.toList opened body closed) :
    scanTurns d (turns + 1) (.behind before) cs =
      let next := scanTurns d turns
        (.behind (before ++ literal ++ d.opening.toList ++ body ++ d.closing.toList)) closed
      (Piece.literals (.behind before) literal ++ .scriptlet (.behind (before ++ literal)) body :: next.1, next.2) := by
  obtain ⟨c, cs', rfl⟩ : ∃ c cs', cs = c :: cs' := by
    cases cs with
    | nil => exact absurd (List.infix_nil.1 ho.occurs) hne
    | cons c cs' => exact ⟨c, cs', rfl⟩
  simp only [scanTurns, Delimiters.turn_eq_scriptlet ho hc, Place.after_behind]

theorem scanTurns_of_layout (hne : d.opening.toList ≠ []) {before : List Char} {turns : Nat}
    (h : Layout d cs pairs last) (ht : cs.length ≤ turns) :
    scanTurns d turns (.behind before) cs = (layoutPieces d before pairs last, .complete) := by
  obtain ⟨hw, hd⟩ := h
  induction hw generalizing before turns with
  | here cs =>
      cases cs with
      | nil => cases turns <;> rfl
      | cons c cs =>
          obtain ⟨turns, rfl⟩ : ∃ n, turns = n + 1 := ⟨turns - 1, by simp only [List.length_cons] at ht; omega⟩
          simp only [scanTurns, Delimiters.turn_eq_tail hd, layoutPieces, Piece.literals]
          rfl
  | scriptlet ho hc hw ih =>
      have hlt := Nat.lt_of_le_of_lt hc.length_le (ho.length_lt hne)
      obtain ⟨turns, rfl⟩ : ∃ n, turns = n + 1 := ⟨turns - 1, by omega⟩
      rw [scanTurns_over hne ho hc, ih (by omega) hd]
      rfl

theorem scanTurns_of_unclosed (hne : d.opening.toList ≠ []) {before : List Char} {turns : Nat}
    (h : Unclosed d cs pairs literal) (ht : cs.length ≤ turns) :
    scanTurns d turns (.behind before) cs =
      (layoutPieces d before pairs literal, .unclosed (.behind (before ++ joined d pairs ++ literal))) := by
  obtain ⟨rest, opened, hw, hopen, hclose⟩ := h
  induction hw generalizing before turns with
  | here cs =>
      cases cs with
      | nil => exact absurd (List.infix_nil.1 hopen.occurs) hne
      | cons c cs =>
          obtain ⟨turns, rfl⟩ : ∃ n, turns = n + 1 := ⟨turns - 1, by simp only [List.length_cons] at ht; omega⟩
          simp only [scanTurns, Delimiters.turn_eq_unclosed hopen hclose, layoutPieces, Place.after_behind, joined,
            List.flatMap_nil, List.append_nil]
  | scriptlet ho hc hw ih =>
      have hlt := Nat.lt_of_le_of_lt hc.length_le (ho.length_lt hne)
      obtain ⟨turns, rfl⟩ : ∃ n, turns = n + 1 := ⟨turns - 1, by omega⟩
      rw [scanTurns_over hne ho hc, ih (by omega) hopen]
      simp [layoutPieces, joined]

theorem scan_of_layout (hne : d.opening.toList ≠ []) (h : Layout d cs pairs last) :
    scan d cs = (layoutPieces d [] pairs last, .complete) := by
  rw [scan, Place.start_eq_behind]
  exact scanTurns_of_layout hne h (Nat.le_refl _)

theorem scan_of_unclosed (hne : d.opening.toList ≠ []) (h : Unclosed d cs pairs literal) :
    scan d cs = (layoutPieces d [] pairs literal, .unclosed (.behind (joined d pairs ++ literal))) := by
  rw [scan, Place.start_eq_behind]
  exact scanTurns_of_unclosed hne h (Nat.le_refl _)

end ScriptedText
