import ScriptedText.Text.Cut

/-!
Cutting a text at a mark finds the leftmost occurrence, and finds one whenever there is one.
-/

namespace ScriptedText.Text

/-- `mark` stands in `cs` between `before` and `after`, and nowhere earlier. -/
structure FirstAt (mark cs before after : List Char) : Prop where
  eq : cs = before ++ mark ++ after
  least : ∀ b a, cs = b ++ mark ++ a → before.length ≤ b.length

namespace FirstAt

variable {mark cs before after before' after' : List Char}

theorem unique (h : FirstAt mark cs before after) (h' : FirstAt mark cs before' after') :
    before = before' ∧ after = after' := by
  have hlen : before.length = before'.length :=
    Nat.le_antisymm (h.least _ _ h'.eq) (h'.least _ _ h.eq)
  have heq : before ++ (mark ++ after) = before' ++ (mark ++ after') := by
    rw [← List.append_assoc, ← List.append_assoc, ← h.eq, ← h'.eq]
  obtain ⟨hb, hr⟩ := List.append_inj heq hlen
  exact ⟨hb, List.append_cancel_left hr⟩

theorem occurs (h : FirstAt mark cs before after) : mark <:+: cs := ⟨before, after, h.eq.symm⟩

theorem length_lt (h : FirstAt mark cs before after) (hm : mark ≠ []) : after.length < cs.length := by
  have := List.length_pos_iff.2 hm
  rw [h.eq]
  simp only [List.length_append]
  omega

theorem length_le (h : FirstAt mark cs before after) : after.length ≤ cs.length := by
  rw [h.eq]
  simp only [List.length_append]
  omega

end FirstAt

theorem firstAt_of_cut {mark cs before after : List Char} (h : cut mark cs = some (before, after)) :
    FirstAt mark cs before after := by
  refine ⟨cut_eq_append h, ?_⟩
  induction cs generalizing before with
  | nil =>
      have hb := congrArg List.length (cut_eq_append h)
      simp only [List.length_nil, List.length_append] at hb
      intro b a _
      omega
  | cons c rest ih =>
      intro b a hba
      simp only [cut] at h
      split at h
      · cases h
        exact Nat.zero_le _
      · next hp =>
          obtain ⟨⟨before₁, after₁⟩, hcut, hpair⟩ := Option.map_eq_some_iff.1 h
          cases hpair
          cases b with
          | nil =>
              -- the mark would stand at the very start, where it was not found
              rw [isPrefixOf?_eq_some.2 (by simpa using hba)] at hp
              cases hp
          | cons x b =>
              have hrest : rest = b ++ mark ++ a := by simpa using (List.cons.inj hba).2
              simpa using ih hcut b a hrest

theorem cut_ne_none_of_occurs {mark cs : List Char} (h : mark <:+: cs) : cut mark cs ≠ none := by
  obtain ⟨b, a, hba⟩ := h
  induction cs generalizing b with
  | nil =>
      have hm : mark = [] := by simp_all
      simp [cut, hm]
  | cons c rest ih =>
      simp only [cut]
      split
      · simp
      · next hp =>
          cases b with
          | nil =>
              rw [isPrefixOf?_eq_some.2 (by simpa using hba.symm)] at hp
              cases hp
          | cons x b =>
              have hrest : b ++ mark ++ a = rest := by simpa using (List.cons.inj hba).2
              simpa using ih b hrest

theorem cut_eq_none_iff {mark cs : List Char} : cut mark cs = none ↔ ¬ mark <:+: cs := by
  constructor
  · exact fun hn hi => cut_ne_none_of_occurs hi hn
  · intro hi
    cases hc : cut mark cs with
    | none => rfl
    | some p => exact absurd (firstAt_of_cut hc).occurs hi

theorem cut_eq_some_iff {mark cs before after : List Char} :
    cut mark cs = some (before, after) ↔ FirstAt mark cs before after := by
  refine ⟨firstAt_of_cut, fun h => ?_⟩
  obtain ⟨⟨before', after'⟩, hc⟩ := Option.ne_none_iff_exists'.1 (cut_ne_none_of_occurs h.occurs)
  obtain ⟨rfl, rfl⟩ := h.unique (firstAt_of_cut hc)
  exact hc

theorem occurs_iff {mark cs : List Char} : occurs mark cs = true ↔ mark <:+: cs := by
  rw [occurs, Option.isSome_iff_ne_none, ne_eq, cut_eq_none_iff, Classical.not_not]

end ScriptedText.Text
