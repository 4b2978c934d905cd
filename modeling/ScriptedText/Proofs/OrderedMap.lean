import ScriptedText.OrderedMap

/-!
What is found in a map after it was changed, and changes that cancel out.
-/

namespace ScriptedText.OrderedMap

variable {κ α : Type}

theorem ext {m m' : OrderedMap κ α} (h : m.entries = m'.entries) : m = m' := by
  cases m
  cases m'
  cases h
  rfl

theorem filter_true (m : OrderedMap κ α) : (m.filter fun _ _ => true) = m :=
  ext (List.filter_eq_self.2 fun _ _ => rfl)

theorem filter_filter (m : OrderedMap κ α) (p q : κ → Bool) :
    ((m.filter fun k _ => p k).filter fun k _ => q k) = m.filter fun k _ => q k && p k :=
  ext (List.filter_filter ..)

theorem filter_congr {m : OrderedMap κ α} {p q : κ → Bool} (h : ∀ e ∈ m.entries, p e.1 = q e.1) :
    (m.filter fun k _ => p k) = m.filter fun k _ => q k :=
  ext (List.filter_congr h)

variable [DecidableEq κ]

theorem lookup_cons_of_ne {k k' : κ} (h : k' ≠ k) (a : α) (es : List (κ × α)) :
    ((k, a) :: es).lookup k' = es.lookup k' := by
  rw [List.lookup_cons, beq_eq_false_iff_ne.2 h]

theorem lookup_replace (k : κ) (a : α) (k' : κ) {es : List (κ × α)} (h : k ∈ es.map Prod.fst) :
    (replace k a es).lookup k' = if k' = k then some a else es.lookup k' := by
  induction es with
  | nil => simp at h
  | cons e es ih =>
      obtain ⟨x, b⟩ := e
      by_cases hx : x = k
      · subst hx
        by_cases hk : k' = x
        · subst hk
          simp [replace]
        · simp [replace, lookup_cons_of_ne hk, hk]
      · have hmem : k ∈ es.map Prod.fst := by simpa [Ne.symm hx] using h
        by_cases hk : k' = x
        · subst hk
          simp [replace, hx]
        · simp [replace, hx, lookup_cons_of_ne hk, ih hmem]

theorem lookup_eq_none_of_not_mem {k : κ} {es : List (κ × α)} (h : k ∉ es.map Prod.fst) : es.lookup k = none := by
  rw [List.lookup_eq_none_iff]
  intro e he
  simpa using fun hk => h (List.mem_map.2 ⟨e, he, hk.symm⟩)

theorem get?_insert (m : OrderedMap κ α) (k : κ) (a : α) (k' : κ) :
    (m.insert k a).get? k' = if k' = k then some a else m.get? k' := by
  unfold insert get?
  split
  · next h => exact lookup_replace k a k' h
  · next h =>
      rw [List.lookup_append]
      by_cases hk : k' = k
      · subst hk
        simp [lookup_eq_none_of_not_mem h]
      · simp [lookup_cons_of_ne hk, hk]

/-- A new key comes last, an old one stays where it is. -/
theorem keys_insert (m : OrderedMap κ α) (k : κ) (a : α) :
    (m.insert k a).keys = if k ∈ m.keys then m.keys else m.keys ++ [k] := by
  unfold insert keys
  split
  · exact keys_replace k a m.entries
  · exact List.map_append

theorem insertIfAbsent_snd (m : OrderedMap κ α) (k : κ) (a : α) : (m.insertIfAbsent k a).2 = (m.get? k).getD a := by
  unfold insertIfAbsent
  cases m.get? k <;> rfl

theorem get?_insertIfAbsent (m : OrderedMap κ α) (k : κ) (a : α) (k' : κ) :
    (m.insertIfAbsent k a).1.get? k' = if k' = k then some (m.insertIfAbsent k a).2 else m.get? k' := by
  unfold insertIfAbsent
  cases hk : m.get? k with
  | none => exact get?_insert m k a k'
  | some b =>
      by_cases heq : k' = k
      · subst heq
        simp [hk]
      · simp [heq]

theorem of_get?_insert {m : OrderedMap κ α} {k k' : κ} {a b : α} (h : (m.insert k a).get? k' = some b) :
    m.get? k' = some b ∨ k' = k ∧ b = a := by
  rw [get?_insert] at h
  split at h
  · next heq => exact .inr ⟨heq, (Option.some.inj h).symm⟩
  · exact .inl h

theorem of_get?_insertIfAbsent {m : OrderedMap κ α} {k k' : κ} {a b : α} (h : (m.insertIfAbsent k a).1.get? k' = some b) :
    m.get? k' = some b ∨ k' = k ∧ b = a := by
  unfold insertIfAbsent at h
  cases hk : m.get? k with
  | none =>
      rw [hk] at h
      exact of_get?_insert h
  | some c =>
      rw [hk] at h
      exact .inl h

theorem get?_foldl_insert (m : OrderedMap κ α) (ks : List κ) (a : α) (k : κ) :
    (ks.foldl (fun m k => m.insert k a) m).get? k = if k ∈ ks then some a else m.get? k := by
  induction ks generalizing m with
  | nil => rfl
  | cons k' ks ih =>
      rw [List.foldl_cons, ih, get?_insert]
      by_cases hk : k = k'
      · simp [hk]
      · simp [hk]

theorem get?_filter (m : OrderedMap κ α) (p : κ → Bool) (k : κ) :
    (m.filter fun k' _ => p k').get? k = if p k then m.get? k else none := by
  simp only [filter, get?]
  induction m.entries with
  | nil => simp
  | cons e es ih =>
      obtain ⟨x, b⟩ := e
      by_cases hk : k = x
      · subst hk
        by_cases hp : p k = true
        · simp [hp]
        · simpa [hp] using ih
      · by_cases hp : p x = true
        · simpa [hp, lookup_cons_of_ne hk] using ih
        · simpa [hp, lookup_cons_of_ne hk] using ih

theorem get?_erase (m : OrderedMap κ α) (k k' : κ) :
    (m.erase k).get? k' = if k' = k then none else m.get? k' := by
  rw [erase, get?_filter m (fun x => x ≠ k)]
  by_cases hk : k' = k <;> simp [hk]

theorem replace_replace (k : κ) (a b : α) (es : List (κ × α)) : replace k b (replace k a es) = replace k b es := by
  induction es with
  | nil => rfl
  | cons e es ih =>
      obtain ⟨x, c⟩ := e
      by_cases hx : x = k
      · simp [replace, hx]
      · simp [replace, hx, ih]

theorem replace_append_of_not_mem {k : κ} (a b : α) {es : List (κ × α)} (h : k ∉ es.map Prod.fst) :
    replace k b (es ++ [(k, a)]) = es ++ [(k, b)] := by
  induction es with
  | nil => simp [replace]
  | cons e es ih =>
      obtain ⟨x, c⟩ := e
      simp only [List.map_cons, List.mem_cons, not_or] at h
      simp [replace, Ne.symm h.1, ih h.2]

theorem replace_self {k : κ} {a : α} {es : List (κ × α)} (h : es.lookup k = some a) : replace k a es = es := by
  induction es with
  | nil => rfl
  | cons e es ih =>
      obtain ⟨x, c⟩ := e
      by_cases hx : x = k
      · subst hx
        simp only [List.lookup_cons, BEq.rfl] at h
        cases h
        simp [replace]
      · rw [lookup_cons_of_ne (Ne.symm hx)] at h
        simp [replace, hx, ih h]

theorem mem_keys_of_get? {m : OrderedMap κ α} {k : κ} {a : α} (h : m.get? k = some a) :
    k ∈ m.entries.map Prod.fst := by
  apply Classical.byContradiction
  intro hk
  rw [get?, lookup_eq_none_of_not_mem hk] at h
  cases h

theorem insert_insert (m : OrderedMap κ α) (k : κ) (a b : α) : (m.insert k a).insert k b = m.insert k b := by
  apply ext
  by_cases h : k ∈ m.entries.map Prod.fst
  · have ha : k ∈ (m.insert k a).entries.map Prod.fst := by
      unfold insert
      rw [dif_pos h, keys_replace]
      exact h
    rw [insert, dif_pos ha, insert, dif_pos h, insert, dif_pos h]
    exact replace_replace k a b m.entries
  · have ha : k ∈ (m.insert k a).entries.map Prod.fst := by
      unfold insert
      rw [dif_neg h]
      simp
    rw [insert, dif_pos ha, insert, dif_neg h, insert, dif_neg h]
    exact replace_append_of_not_mem a b h

theorem insert_self {m : OrderedMap κ α} {k : κ} {a : α} (h : m.get? k = some a) : m.insert k a = m := by
  apply ext
  rw [insert, dif_pos (mem_keys_of_get? h)]
  exact replace_self h

theorem not_mem_keys_of_get? {m : OrderedMap κ α} {k : κ} (h : m.get? k = none) :
    k ∉ m.entries.map Prod.fst := by
  intro hk
  obtain ⟨e, he, rfl⟩ := List.mem_map.1 hk
  have hne := List.lookup_eq_none_iff.1 h e he
  simp at hne

theorem erase_of_none {m : OrderedMap κ α} {k : κ} (h : m.get? k = none) : m.erase k = m := by
  apply ext
  refine List.filter_eq_self.2 fun e he => ?_
  have hne : e.1 ≠ k := by
    rintro rfl
    exact not_mem_keys_of_get? h (List.mem_map.2 ⟨e, he, rfl⟩)
  simpa using hne

/-- One entry goes. -/
theorem size_erase_add_one {m : OrderedMap κ α} {k : κ} {a : α} (h : m.get? k = some a) :
    (m.erase k).size + 1 = m.size := by
  have hkeys : (m.erase k).entries.map Prod.fst = (m.entries.map Prod.fst).erase k := by
    rw [m.nodup.erase_eq_filter, erase, filter, List.filter_map]
    congr 1
    refine List.filter_congr fun e _ => ?_
    by_cases he : e.1 = k <;> simp [he]
  have hlength := congrArg List.length hkeys
  rw [List.length_erase_of_mem (mem_keys_of_get? h), List.length_map, List.length_map] at hlength
  have hpos := List.length_pos_of_mem (mem_keys_of_get? h)
  rw [List.length_map] at hpos
  unfold size
  omega

theorem erase_insert {m : OrderedMap κ α} {k : κ} (h : m.get? k = none) (a : α) : (m.insert k a).erase k = m := by
  have hk := not_mem_keys_of_get? h
  apply ext
  rw [insert, dif_neg hk]
  have hother (x : κ) (b : α) (hmem : (x, b) ∈ m.entries) : ¬ x = k := by
    rintro rfl
    exact hk (List.mem_map.2 ⟨_, hmem, rfl⟩)
  simpa [erase, filter, List.filter_append] using hother

/-- Puts a value under a key, or takes away what is there. -/
def put (m : OrderedMap κ α) (k : κ) : Option α → OrderedMap κ α
  | some a => m.insert k a
  | none => m.erase k

/-- What was there before is put back. -/
theorem put_insert (m : OrderedMap κ α) (k : κ) (a : α) : (m.insert k a).put k (m.get? k) = m := by
  cases h : m.get? k with
  | none => exact erase_insert h a
  | some b => exact (insert_insert m k a b).trans (insert_self h)

theorem mem_replace {k : κ} {a : α} {e : κ × α} {es : List (κ × α)} (h : e ∈ replace k a es) :
    e = (k, a) ∨ e ∈ es := by
  induction es with
  | nil => cases h
  | cons x es ih =>
      obtain ⟨k', a'⟩ := x
      by_cases hk : k' = k
      · rw [replace, if_pos hk] at h
        exact (List.mem_cons.1 h).imp_right (List.mem_cons_of_mem _)
      · rw [replace, if_neg hk] at h
        rcases List.mem_cons.1 h with rfl | h
        · exact .inr (List.mem_cons_self ..)
        · exact (ih h).imp_right (List.mem_cons_of_mem _)

theorem mem_entries_insert {m : OrderedMap κ α} {k : κ} {a : α} {e : κ × α} (h : e ∈ (m.insert k a).entries) :
    e = (k, a) ∨ e ∈ m.entries := by
  unfold insert at h
  split at h
  · exact mem_replace h
  · exact (List.mem_append.1 h).symm.imp_left List.mem_singleton.1

theorem mem_entries_erase {m : OrderedMap κ α} {k : κ} {e : κ × α} (h : e ∈ (m.erase k).entries) : e ∈ m.entries :=
  (List.mem_filter.1 h).1

theorem mem_of_lookup {k : κ} {a : α} {es : List (κ × α)} (h : es.lookup k = some a) : (k, a) ∈ es := by
  induction es with
  | nil => cases h
  | cons e es ih =>
      obtain ⟨x, b⟩ := e
      by_cases hx : k = x
      · subst hx
        rw [List.lookup_cons, BEq.rfl] at h
        cases h
        exact List.mem_cons_self ..
      · rw [lookup_cons_of_ne hx] at h
        exact List.mem_cons_of_mem _ (ih h)

theorem mem_entries_of_get? {m : OrderedMap κ α} {k : κ} {a : α} (h : m.get? k = some a) : (k, a) ∈ m.entries :=
  mem_of_lookup h

theorem lookup_of_mem {k : κ} {a : α} {es : List (κ × α)} (hnodup : (es.map Prod.fst).Nodup) (h : (k, a) ∈ es) :
    es.lookup k = some a := by
  induction es with
  | nil => cases h
  | cons e es ih =>
      obtain ⟨x, b⟩ := e
      rw [List.map_cons, List.nodup_cons] at hnodup
      rcases List.mem_cons.1 h with heq | hmem
      · cases heq
        simp
      · have hne : k ≠ x := by
          rintro rfl
          exact hnodup.1 (List.mem_map.2 ⟨_, hmem, rfl⟩)
        rw [lookup_cons_of_ne hne]
        exact ih hnodup.2 hmem

theorem get?_of_mem {m : OrderedMap κ α} {k : κ} {a : α} (h : (k, a) ∈ m.entries) : m.get? k = some a :=
  lookup_of_mem m.nodup h

theorem get?_eraseValue [DecidableEq α] (m : OrderedMap κ α) (a : α) (k : κ) :
    (m.eraseValue a).1.get? k = if m.get? k = some a then none else m.get? k := by
  have hmem {b : α} : (k, b) ∈ (m.eraseValue a).1.entries ↔ (k, b) ∈ m.entries ∧ b ≠ a := by
    simp [eraseValue, filter]
  cases h : (m.eraseValue a).1.get? k with
  | some b =>
      obtain ⟨hb, hne⟩ := hmem.1 (mem_entries_of_get? h)
      rw [get?_of_mem hb, if_neg (by simpa using hne)]
  | none =>
      split
      · rfl
      · next hne =>
          cases hk : m.get? k with
          | none => rfl
          | some b =>
              have hb := get?_of_mem (hmem.2 ⟨mem_entries_of_get? hk, fun heq => hne (heq ▸ hk)⟩)
              cases h.symm.trans hb

end ScriptedText.OrderedMap
