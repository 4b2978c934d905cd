import Mathlib.Data.List.Basic
import ScriptedText.Files.Path

/-!
What names and written paths are made of. A written path that is resolved from a directory either comes to something below
it, along names, or has gone up out of it.
-/

namespace ScriptedText.Text

variable {c x : Char} {cs rest part e : List Char} {parts : List (List Char)}

theorem splitAt_cons_self (c : Char) (rest : List Char) : splitAt c (c :: rest) = [] :: splitAt c rest := by
  rw [splitAt, if_pos rfl]

theorem splitAt_cons_of_ne (h : x ≠ c) (hrest : splitAt c rest = part :: parts) :
    splitAt c (x :: rest) = (x :: part) :: parts := by
  rw [splitAt, if_neg h, hrest]

theorem exists_splitAt_eq_cons (c : Char) (cs : List Char) : ∃ part parts, splitAt c cs = part :: parts := by
  induction cs with
  | nil => exact ⟨[], [], rfl⟩
  | cons x rest ih =>
      obtain ⟨part, parts, hrest⟩ := ih
      by_cases hx : x = c
      · subst hx
        exact ⟨[], _, splitAt_cons_self x rest⟩
      · exact ⟨x :: part, parts, splitAt_cons_of_ne hx hrest⟩

theorem not_mem_of_mem_splitAt (h : part ∈ splitAt c cs) : c ∉ part := by
  induction cs generalizing part with
  | nil => simp_all [splitAt]
  | cons x rest ih =>
      by_cases hx : x = c
      · subst hx
        rw [splitAt_cons_self, List.mem_cons] at h
        rcases h with rfl | h
        · exact List.not_mem_nil
        · exact ih h
      · obtain ⟨first, parts, hrest⟩ := exists_splitAt_eq_cons c rest
        rw [splitAt_cons_of_ne hx hrest, List.mem_cons] at h
        rcases h with rfl | h
        · simp [Ne.symm hx, ih (hrest ▸ List.mem_cons_self ..)]
        · exact ih (hrest ▸ List.mem_cons_of_mem _ h)

theorem splitAt_of_not_mem (h : c ∉ cs) : splitAt c cs = [cs] := by
  induction cs with
  | nil => rfl
  | cons x rest ih =>
      simp only [List.mem_cons, not_or] at h
      exact splitAt_cons_of_ne (Ne.symm h.1) (ih h.2)

theorem splitAt_append_cons (h : c ∉ part) (rest : List Char) :
    splitAt c (part ++ c :: rest) = part :: splitAt c rest := by
  induction part with
  | nil => exact splitAt_cons_self c rest
  | cons x part ih =>
      simp only [List.mem_cons, not_or] at h
      exact splitAt_cons_of_ne (Ne.symm h.1) (ih h.2)

/-- What is added without a mark goes to the last part. -/
theorem exists_splitAt_append (h : c ∉ e) (cs : List Char) :
    ∃ before last, splitAt c cs = before ++ [last] ∧ splitAt c (cs ++ e) = before ++ [last ++ e] := by
  induction cs with
  | nil => exact ⟨[], [], rfl, splitAt_of_not_mem h⟩
  | cons x rest ih =>
      obtain ⟨before, last, hrest, hadded⟩ := ih
      by_cases hx : x = c
      · subst hx
        refine ⟨[] :: before, last, ?_, ?_⟩
        · rw [splitAt_cons_self, hrest, List.cons_append]
        · rw [List.cons_append, splitAt_cons_self, hadded, List.cons_append]
      · cases before with
        | nil => exact ⟨[], x :: last, splitAt_cons_of_ne hx hrest, splitAt_cons_of_ne hx hadded⟩
        | cons first before =>
            exact ⟨(x :: first) :: before, last, splitAt_cons_of_ne hx hrest, splitAt_cons_of_ne hx hadded⟩

theorem startsWith_eq_false_of_append {s more start : String} (h : startsWith (s ++ more) start = false) :
    startsWith s start = false := by
  cases hstarts : startsWith s start with
  | false => rfl
  | true =>
      have hprefix := (List.isPrefixOf_iff_prefix.1 hstarts).trans (List.prefix_append s.toList more.toList)
      rw [← String.toList_append] at hprefix
      exact (List.isPrefixOf_iff_prefix.2 hprefix).symm.trans h

end ScriptedText.Text

namespace ScriptedText.Files

/-- What a file or a directory can be called. -/
structure IsName (c : String) : Prop where
  ne_empty : c ≠ ""
  ne_dot : c ≠ "."
  ne_dots : c ≠ ".."
  no_slash : '/' ∉ c.toList

theorem isName_iff (c : String) : IsName c ↔ c ≠ "" ∧ c ≠ "." ∧ c ≠ ".." ∧ '/' ∉ c.toList :=
  ⟨fun h => ⟨h.ne_empty, h.ne_dot, h.ne_dots, h.no_slash⟩, fun h => ⟨h.1, h.2.1, h.2.2.1, h.2.2.2⟩⟩

instance (c : String) : Decidable (IsName c) := decidable_of_iff' _ (isName_iff c)

theorem no_slash_of_mem_components {s c : String} (h : c ∈ components s) : '/' ∉ c.toList := by
  obtain ⟨part, hpart, rfl⟩ := List.mem_map.1 h
  rw [String.toList_ofList]
  exact Text.not_mem_of_mem_splitAt hpart

namespace Path

variable {base p q : Path} {c s : String}

theorem step_of_name (h : IsName c) (p : Path) : p.step c = p ++ [c] := by
  unfold step
  rw [if_neg (by simp [h.ne_empty, h.ne_dot]), if_neg h.ne_dots]

theorem step_of_skip (h : c = "" ∨ c = ".") (p : Path) : p.step c = p := by
  rcases h with rfl | rfl <;> rfl

/-- What a step along a written path can do: stay, go up by a name or out of the tree, or go on to a name. -/
inductive Steps : Path → String → Path → Prop
  | stay {p : Path} {c : String} (h : c = "" ∨ c = ".") : Steps p c p
  | up {q : Path} {x : String} (h : x ≠ "..") : Steps (q ++ [x]) ".." q
  | out {p : Path} (h : p = [] ∨ ∃ q, p = q ++ [".."]) : Steps p ".." (p ++ [".."])
  | on {p : Path} {c : String} (h : IsName c) : Steps p c (p ++ [c])

theorem steps_step (hc : '/' ∉ c.toList) (p : Path) : Steps p c (p.step c) := by
  by_cases hskip : c = "" ∨ c = "."
  · rw [step_of_skip hskip]
    exact .stay hskip
  obtain ⟨hempty, hdot⟩ := not_or.1 hskip
  by_cases hup : c = ".."
  · subst hup
    rcases List.eq_nil_or_concat p with rfl | ⟨q, x, rfl⟩
    · exact .out (.inl rfl)
    · rw [List.concat_eq_append]
      unfold step
      rw [if_neg (by decide), if_pos rfl, List.getLast?_concat, List.dropLast_concat]
      split
      · next h => cases h
      · next h =>
          cases h
          exact .out (.inr ⟨q, rfl⟩)
      · next y hne h =>
          cases h
          exact .up hne
  · have hname : IsName c := ⟨hempty, hdot, hup, hc⟩
    rw [step_of_name hname]
    exact .on hname

/-- `p` keeps a part of `base`, goes up some steps from there that leave the tree, and then down along names. What of the
base is not kept was gone up through. -/
def Roams (base p : Path) : Prop :=
  ∃ kept left ups downs, base = kept ++ left ∧ p = kept ++ ups ++ downs ∧
    (∀ c ∈ left, c ≠ "..") ∧ (∀ c ∈ ups, c = "..") ∧ ∀ c ∈ downs, IsName c

theorem Roams.step (h : Roams base p) (hc : '/' ∉ c.toList) : Roams base (p.step c) := by
  have hstep := steps_step hc p
  obtain ⟨kept, left, ups, downs, rfl, hp, hleft, hups, hdowns⟩ := h
  generalize p.step c = q at hstep ⊢
  cases hstep with
  | stay => exact ⟨kept, left, ups, downs, rfl, hp, hleft, hups, hdowns⟩
  | @up _ x hx =>
      -- the last name goes: one of those gone down, or else one of the base
      rcases List.eq_nil_or_concat downs with rfl | ⟨downs, y, rfl⟩
      · rw [List.append_nil] at hp
        rcases List.eq_nil_or_concat ups with rfl | ⟨ups, y, rfl⟩
        · rw [List.append_nil] at hp
          subst hp
          exact ⟨q, x :: left, [], [], by simp, by simp, List.forall_mem_cons.2 ⟨hx, hleft⟩, hups, hdowns⟩
        · rw [List.concat_eq_append, ← List.append_assoc] at hp
          obtain ⟨-, heq⟩ := List.append_inj' hp rfl
          cases heq
          exact absurd (hups x (by simp)) hx
      · rw [List.concat_eq_append, ← List.append_assoc] at hp
        obtain ⟨rfl, -⟩ := List.append_inj' hp rfl
        exact ⟨kept, left, ups, downs, rfl, rfl, hleft, hups, fun c hc => hdowns c (by simp [hc])⟩
  | out hend =>
      rcases List.eq_nil_or_concat downs with rfl | ⟨downs, y, rfl⟩
      · refine ⟨kept, left, ups ++ [".."], [], rfl, by simp [hp], hleft, ?_, hdowns⟩
        exact List.forall_mem_append.2 ⟨hups, List.forall_mem_singleton.2 rfl⟩
      · -- a path that ends in a name is not at the end of the tree
        have hy : IsName y := hdowns y (by simp)
        rcases hend with rfl | ⟨q, rfl⟩
        · simp at hp
        · rw [List.concat_eq_append, ← List.append_assoc] at hp
          obtain ⟨-, heq⟩ := List.append_inj' hp rfl
          cases heq
          exact absurd rfl hy.ne_dots
  | on hname =>
      refine ⟨kept, left, ups, downs ++ [c], rfl, by simp [hp], hleft, hups, ?_⟩
      exact List.forall_mem_append.2 ⟨hdowns, List.forall_mem_singleton.2 hname⟩

theorem roams_foldl {cs : List String} (hcs : ∀ c ∈ cs, '/' ∉ c.toList) (h : Roams base p) :
    Roams base (cs.foldl step p) := by
  induction cs generalizing p with
  | nil => exact h
  | cons c cs ih =>
      obtain ⟨hc, hcs⟩ := List.forall_mem_cons.1 hcs
      exact ih hcs (h.step hc)

theorem roams_resolve (base : Path) (written : String) : Roams base (base.resolve written) :=
  roams_foldl (fun _ => no_slash_of_mem_components)
    ⟨base, [], [], [], by simp, by simp, fun _ h => absurd h List.not_mem_nil, fun _ h => absurd h List.not_mem_nil,
      fun _ h => absurd h List.not_mem_nil⟩

/-- What goes on from the base goes on along names, or up. -/
theorem Roams.below (h : Roams base p) {below : Path} (hp : p = base ++ below) :
    (∀ c ∈ below, IsName c) ∨ below.head? = some ".." := by
  obtain ⟨kept, left, ups, downs, rfl, rfl, hleft, hups, hdowns⟩ := h
  have hsplit : ups ++ downs = left ++ below := by simpa [List.append_assoc] using hp
  cases ups with
  | nil =>
      refine .inl fun c hc => hdowns c ?_
      rw [List.nil_append] at hsplit
      exact hsplit ▸ List.mem_append_right _ hc
  | cons u ups =>
      have hu : u = ".." := hups u (List.mem_cons_self ..)
      subst hu
      cases left with
      | nil =>
          rw [List.nil_append] at hsplit
          exact .inr (hsplit ▸ rfl)
      | cons c left =>
          have hc : ".." = c := (List.cons.inj hsplit).1
          exact absurd hc.symm (hleft c (List.mem_cons_self ..))

/-- From names a written path leads along names, unless it leaves the tree. -/
theorem names_or_head_of_foldl {cs : List String} (hcs : ∀ c ∈ cs, '/' ∉ c.toList)
    (h : (∀ c ∈ p, IsName c) ∨ p.head? = some "..") :
    (∀ c ∈ cs.foldl step p, IsName c) ∨ (cs.foldl step p).head? = some ".." := by
  induction cs generalizing p with
  | nil => exact h
  | cons c cs ih =>
      obtain ⟨hc, hcs⟩ := List.forall_mem_cons.1 hcs
      refine ih hcs ?_
      have hadded (x : String) (hhead : p.head? = some "..") : (p ++ [x]).head? = some ".." := by
        rw [List.head?_append, hhead]
        rfl
      have hstep := steps_step hc p
      generalize p.step c = q at hstep ⊢
      cases hstep with
      | stay => exact h
      | @up _ x hx =>
          refine h.imp (fun hnames c hc => hnames c (List.mem_append_left _ hc)) fun hhead => ?_
          cases q with
          | nil => exact absurd (Option.some.inj hhead) hx
          | cons y q => exact hhead
      | out hend =>
          refine .inr ?_
          rcases hend with rfl | ⟨q, rfl⟩
          · rfl
          · refine hadded _ (h.resolve_left fun hnames => ?_)
            exact (hnames ".." (by simp)).ne_dots rfl
      | on hname =>
          refine h.imp (fun hnames => ?_) (hadded c)
          exact List.forall_mem_append.2 ⟨hnames, List.forall_mem_singleton.2 hname⟩

theorem below?_eq_some {below : Path} :
    below? base p = some below ↔ p = base ++ below ∧ ∀ c ∈ below.head?, Text.startsWith c ".." = false := by
  have hafter {after : Path} : base.isPrefixOf? p = some after ↔ p = base ++ after := by
    rw [List.isPrefixOf?_eq_some_iff_append_eq, eq_comm]
  unfold below?
  cases hprefix : base.isPrefixOf? p with
  | none =>
      refine iff_of_false nofun ?_
      rintro ⟨rfl, -⟩
      cases hprefix.symm.trans (hafter.2 rfl)
  | some after =>
      have hp := hafter.1 hprefix
      cases after with
      | nil =>
          constructor
          · rintro ⟨⟩
            exact ⟨hp, nofun⟩
          · rintro ⟨hbelow, -⟩
            cases List.append_cancel_left (hp.symm.trans hbelow)
            rfl
      | cons c rest =>
          dsimp only
          split
          · next hc =>
              refine iff_of_false nofun ?_
              rintro ⟨hbelow, hhead⟩
              cases List.append_cancel_left (hp.symm.trans hbelow)
              cases hc.symm.trans (hhead c rfl)
          · next hc =>
              constructor
              · rintro ⟨⟩
                refine ⟨hp, ?_⟩
                rintro _ ⟨⟩
                exact Bool.eq_false_iff.2 hc
              · rintro ⟨hbelow, -⟩
                rw [List.append_cancel_left (hp.symm.trans hbelow)]

/-- A document name that stays below the base goes along names. -/
theorem names_of_below? {written : String} {below : Path} (h : below? base (base.resolve written) = some below) :
    base.resolve written = base ++ below ∧ ∀ c ∈ below, IsName c := by
  obtain ⟨hp, hhead⟩ := below?_eq_some.1 h
  refine ⟨hp, ((roams_resolve base written).below hp).resolve_right fun hup => ?_⟩
  have hdots := hhead ".." hup
  revert hdots
  decide

/-- The path as it is written. -/
def written (p : Path) : String := "/".intercalate p

theorem components_written (hne : p ≠ []) (h : ∀ c ∈ p, '/' ∉ c.toList) : components p.written = p := by
  have hslash : "/".toList = ['/'] := rfl
  unfold components written
  rw [String.toList_intercalate, hslash]
  induction p with
  | nil => exact absurd rfl hne
  | cons c rest ih =>
      obtain ⟨hc, hrest⟩ := List.forall_mem_cons.1 h
      cases rest with
      | nil => simp [Text.splitAt_of_not_mem hc]
      | cons d rest =>
          have hjoin : ['/'].intercalate ((c :: d :: rest).map String.toList) =
              c.toList ++ '/' :: ['/'].intercalate ((d :: rest).map String.toList) := by simp [List.intercalate]
          rw [hjoin, Text.splitAt_append_cons hc, List.map_cons, String.ofList_toList, ih (by simp) hrest]

theorem foldl_step_of_names {cs : Path} (h : ∀ c ∈ cs, IsName c) (p : Path) : cs.foldl step p = p ++ cs := by
  induction cs generalizing p with
  | nil => simp
  | cons c cs ih =>
      obtain ⟨hc, hcs⟩ := List.forall_mem_cons.1 h
      rw [List.foldl_cons, step_of_name hc, ih hcs, List.append_assoc, List.singleton_append]

theorem resolve_written (base : Path) (hne : p ≠ []) (h : ∀ c ∈ p, IsName c) : base.resolve p.written = base ++ p := by
  unfold resolve
  rw [components_written hne fun c hc => (h c hc).no_slash, foldl_step_of_names h]

end Path

/-- Slashes at the beginning of a name make no difference, but others do. -/
theorem relativeName_append {e : String} (he : ∀ c ∈ e.toList.head?, isSlash c = false) (p : String) :
    relativeName (p ++ e) = relativeName p ++ e := by
  apply String.toList_inj.1
  have hkept : e.toList.dropWhile isSlash = e.toList := by
    cases hcs : e.toList with
    | nil => rfl
    | cons c cs =>
        rw [List.dropWhile_cons_of_neg]
        rw [he c (by rw [hcs]; rfl)]
        decide
  simp only [relativeName, String.toList_ofList, String.toList_append, List.dropWhile_append, hkept]
  split
  · next hnil => rw [List.isEmpty_iff.1 hnil, List.nil_append]
  · rfl

/-! The name of a file falls apart in its stem and its extension. -/

/-- What is found from behind is the last dot. -/
theorem exists_split_of_findIdx?_reverse {name : List Char} {k : Nat} (h : name.reverse.findIdx? (· = '.') = some k) :
    ∃ before after, name = before ++ '.' :: after ∧ after.length = k ∧ '.' ∉ after := by
  obtain ⟨hk, hdot, hleast⟩ := List.findIdx?_eq_some_iff_getElem.1 h
  have hlength : k < name.length := by simpa using hk
  refine ⟨name.take (name.length - 1 - k), name.drop (name.length - k), ?_, ?_, ?_⟩
  · have hat : name[name.length - 1 - k] = '.' := by simpa [List.getElem_reverse] using hdot
    have hnext : name.length - k = name.length - 1 - k + 1 := by omega
    rw [hnext, ← hat, List.getElem_cons_drop, List.take_append_drop]
  · rw [List.length_drop]
    omega
  · intro hmem
    obtain ⟨j, hj, hdot⟩ := List.mem_iff_getElem.1 hmem
    rw [List.getElem_drop] at hdot
    rw [List.length_drop] at hj
    refine hleast (k - 1 - j) (by omega) ?_
    rw [List.getElem_reverse, decide_eq_true_iff, ← hdot]
    congr 1
    omega

/-- There is one last dot. -/
theorem eq_of_split_eq_split {before after before' after' : List Char} (h : before ++ '.' :: after = before' ++ '.' :: after')
    (hafter : '.' ∉ after) (hafter' : '.' ∉ after') : before = before' ∧ after = after' := by
  rcases List.append_eq_append_iff.1 h with ⟨between, rfl, hrest⟩ | ⟨between, rfl, hrest⟩
  · cases between with
    | nil =>
        cases hrest
        simp
    | cons c between =>
        cases hrest
        exact absurd (by simp) hafter
  · cases between with
    | nil =>
        cases hrest
        simp
    | cons c between =>
        cases hrest
        exact absurd (by simp) hafter'

theorem extensionDot?_eq_some {name : List Char} {i : Nat} : extensionDot? name = some i ↔
    ∃ before after, name = before ++ '.' :: after ∧ before.length = i ∧ before ≠ [] ∧ '.' ∉ after ∧ name ≠ ['.', '.'] := by
  unfold extensionDot?
  split
  · next hdots => simp [hdots]
  · next hdots =>
      cases hfind : name.reverse.findIdx? (· = '.') with
      | none =>
          refine iff_of_false nofun ?_
          rintro ⟨before, after, rfl, -⟩
          simp at hfind
      | some k =>
          obtain ⟨before, after, rfl, rfl, hafter⟩ := exists_split_of_findIdx?_reverse hfind
          have hsum : (before ++ '.' :: after).length = before.length + after.length + 1 := by
            simp [Nat.add_assoc]
          have hplace : before.length + after.length + 1 - 1 - after.length = before.length := by omega
          dsimp only
          rw [hsum, hplace]
          constructor
          · intro hi
            split at hi
            · cases hi
            · next hfirst =>
                refine ⟨before, after, rfl, Option.some.inj hi, ?_, hafter, hdots⟩
                rintro rfl
                simp at hfirst
          · rintro ⟨before', after', heq, rfl, hne, hafter', -⟩
            obtain ⟨rfl, rfl⟩ := eq_of_split_eq_split heq hafter hafter'
            rw [if_neg]
            have hpos := List.length_pos_iff.2 hne
            omega

theorem stem_append_extension (name : String) : stem name ++ extension name = name := by
  unfold stem extension
  split
  · simp
  · rw [← String.ofList_append, List.take_append_drop, String.ofList_toList]

/-- The extension begins with the last dot, and something stands before it. -/
theorem extension_cases (name : String) :
    extension name = "" ∧ stem name = name ∨
      ∃ e, '.' ∉ e.toList ∧ extension name = "." ++ e ∧ stem name ≠ "" := by
  unfold stem extension
  cases hdot : extensionDot? name.toList with
  | none => exact .inl ⟨rfl, rfl⟩
  | some i =>
      obtain ⟨before, after, hname, rfl, hne, hafter, -⟩ := extensionDot?_eq_some.1 hdot
      refine .inr ⟨String.ofList after, by rwa [String.toList_ofList], ?_, ?_⟩
      · apply String.toList_inj.1
        simp [hname]
      · simpa [hname] using hne

/-- A file with the stem has the extension just if it is called so. -/
theorem extension_eq_iff {name wanted e : String} (hstem : stem name = wanted) :
    extension name = "." ++ e ↔ name = wanted ++ "." ++ e := by
  subst hstem
  constructor
  · intro hext
    rw [String.append_assoc, ← hext, stem_append_extension]
  · intro hname
    have hsplit := stem_append_extension name
    rw [String.append_assoc] at hname
    exact (String.append_right_inj _).1 (hsplit.trans hname)

end ScriptedText.Files
