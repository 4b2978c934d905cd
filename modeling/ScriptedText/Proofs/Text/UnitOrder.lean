import ScriptedText.Text.Unit16

/-!
Texts in the order of their 16-bit units. The order is total, and only a text itself comes both before and after it: its units
say what its characters are.
-/

namespace ScriptedText.Text

theorem listLe_total (as bs : List Nat) : (listLe as bs || listLe bs as) = true := by
  induction as generalizing bs with
  | nil => simp [listLe]
  | cons a as ih =>
      cases bs with
      | nil => simp [listLe]
      | cons b bs =>
          simp only [listLe, Bool.or_eq_true, Bool.and_eq_true, decide_eq_true_eq, beq_iff_eq] at ih ⊢
          rcases Nat.lt_trichotomy a b with h | rfl | h
          · exact .inl (.inl h)
          · rcases ih bs with hle | hle
            · exact .inl (.inr ⟨rfl, hle⟩)
            · exact .inr (.inr ⟨rfl, hle⟩)
          · exact .inr (.inl h)

theorem listLe_trans {as bs cs : List Nat} (hab : listLe as bs = true) (hbc : listLe bs cs = true) :
    listLe as cs = true := by
  induction as generalizing bs cs with
  | nil => rfl
  | cons a as ih =>
      cases bs with
      | nil => cases hab
      | cons b bs =>
          cases cs with
          | nil => cases hbc
          | cons c cs =>
              simp only [listLe, Bool.or_eq_true, Bool.and_eq_true, decide_eq_true_eq, beq_iff_eq] at hab hbc ⊢
              rcases hab with hab | ⟨rfl, hab⟩
              · rcases hbc with hbc | ⟨rfl, -⟩
                · exact .inl (Nat.lt_trans hab hbc)
                · exact .inl hab
              · rcases hbc with hbc | ⟨rfl, hbc⟩
                · exact .inl hbc
                · exact .inr ⟨rfl, ih hab hbc⟩

theorem listLe_antisymm {as bs : List Nat} (hab : listLe as bs = true) (hba : listLe bs as = true) : as = bs := by
  induction as generalizing bs with
  | nil =>
      cases bs with
      | nil => rfl
      | cons b bs => cases hba
  | cons a as ih =>
      cases bs with
      | nil => cases hab
      | cons b bs =>
          simp only [listLe, Bool.or_eq_true, Bool.and_eq_true, decide_eq_true_eq, beq_iff_eq] at hab hba
          rcases hab with hab | ⟨rfl, hab⟩
          · rcases hba with hba | ⟨rfl, -⟩
            · exact absurd hab (Nat.lt_asymm hba)
            · exact absurd hab (Nat.lt_irrefl _)
          · rcases hba with hba | ⟨-, hba⟩
            · exact absurd hba (Nat.lt_irrefl _)
            · rw [ih hab hba]

/-- The units of a first character end where those of the next one begin: surrogates are no characters. -/
theorem unitsOf_append_inj {c d : Char} {us vs : List Nat} (h : unitsOf c ++ us = unitsOf d ++ vs) : c = d ∧ us = vs := by
  have hsame (hc : c.toNat = d.toNat) : c = d := Char.toNat_inj.1 hc
  have hcvalid : c.toNat < 0xD800 ∨ 0xDFFF < c.toNat ∧ c.toNat < 0x110000 := c.valid
  have hdvalid : d.toNat < 0xD800 ∨ 0xDFFF < d.toNat ∧ d.toNat < 0x110000 := d.valid
  simp only [unitsOf] at h
  by_cases hc : c.toNat < 0x10000
  · by_cases hd : d.toNat < 0x10000
    · rw [if_pos hc, if_pos hd] at h
      obtain ⟨hunit, hrest⟩ := List.cons.inj h
      exact ⟨hsame hunit, hrest⟩
    · rw [if_pos hc, if_neg hd] at h
      have hunit := (List.cons.inj h).1
      omega
  · by_cases hd : d.toNat < 0x10000
    · rw [if_neg hc, if_pos hd] at h
      have hunit := (List.cons.inj h).1
      omega
    · rw [if_neg hc, if_neg hd] at h
      obtain ⟨hfirst, hunits⟩ := List.cons.inj h
      obtain ⟨hsecond, hrest⟩ := List.cons.inj hunits
      exact ⟨hsame (by omega), hrest⟩

theorem codeUnits_inj {a b : String} (h : codeUnits a = codeUnits b) : a = b := by
  have hne (c : Char) : unitsOf c ≠ [] := by
    have hlength := length_unitsOf c
    intro hnil
    rw [hnil] at hlength
    unfold width at hlength
    split at hlength <;> cases hlength
  have hchars (cs ds : List Char) (h : cs.flatMap unitsOf = ds.flatMap unitsOf) : cs = ds := by
    induction cs generalizing ds with
    | nil =>
        cases ds with
        | nil => rfl
        | cons d ds => simp [hne] at h
    | cons c cs ih =>
        cases ds with
        | nil => simp [hne] at h
        | cons d ds =>
            rw [List.flatMap_cons, List.flatMap_cons] at h
            obtain ⟨rfl, hrest⟩ := unitsOf_append_inj h
            rw [ih ds hrest]
  exact String.toList_inj.1 (hchars _ _ h)

theorem unitsLe_total (a b : String) : (unitsLe a b || unitsLe b a) = true := listLe_total _ _

theorem unitsLe_trans (a b c : String) (hab : unitsLe a b = true) (hbc : unitsLe b c = true) : unitsLe a c = true :=
  listLe_trans hab hbc

theorem unitsLe_antisymm {a b : String} (hab : unitsLe a b = true) (hba : unitsLe b a = true) : a = b :=
  codeUnits_inj (listLe_antisymm hab hba)

end ScriptedText.Text
