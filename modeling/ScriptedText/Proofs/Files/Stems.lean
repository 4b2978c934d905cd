import ScriptedText.Proofs.Files.Variants

/-!
Documents that are found by their file name, and by its stem. A file may be found by its name through a link; only a file
that is no link is found by its stem.
-/

namespace ScriptedText.Files

/-- What a written path ends in. -/
def lastName (written : String) : String := ((components written).getLast?).getD ""

/-- An extension is that of the last name only. -/
theorem components_append_extension {s e : String} (he : e ≠ "") (hext : extension (lastName (s ++ e)) = e) :
    ∃ before l, components s = before ++ [l] ∧ components (s ++ e) = before ++ [l ++ e] ∧ stem (l ++ e) = l ∧
      IsName (l ++ e) := by
  have hslash : '/' ∉ (lastName (s ++ e)).toList := by
    have hne : components (s ++ e) ≠ [] := by
      obtain ⟨part, parts, hparts⟩ := Text.exists_splitAt_eq_cons '/' (s ++ e).toList
      rw [components, hparts]
      exact List.cons_ne_nil _ _
    rw [lastName, List.getLast?_eq_some_getLast hne]
    exact no_slash_of_mem_components (List.getLast_mem hne)
  have hsplit := stem_append_extension (lastName (s ++ e))
  rw [hext] at hsplit
  have hkept : '/' ∉ e.toList := by
    intro hmem
    rw [← hsplit, String.toList_append] at hslash
    exact hslash (List.mem_append_right _ hmem)
  obtain ⟨before, l, hs, hadded⟩ := Text.exists_splitAt_append hkept s.toList
  have hcomponents : components (s ++ e) = before.map String.ofList ++ [String.ofList l ++ e] := by
    simp [components, hadded]
  have hname : lastName (s ++ e) = String.ofList l ++ e := by simp [lastName, hcomponents]
  rw [hname] at hext hsplit hslash
  refine ⟨before.map String.ofList, String.ofList l, by simp [components, hs], hcomponents,
    (String.append_left_inj e).1 hsplit, ?_⟩
  have hnone {name : String} (hextension : extension name = "") : String.ofList l ++ e ≠ name := by
    intro heq
    rw [heq, hextension] at hext
    exact he hext.symm
  exact ⟨hnone (by decide +kernel), hnone (by decide +kernel), hnone (by decide +kernel), hslash⟩

/-- An extension begins with a dot, so it is none of the slashes that a name may begin with. -/
theorem relativeName_append_extension {s e : String} (he : e ≠ "") (hext : extension s = e) (p : String) :
    relativeName (p ++ e) = relativeName p ++ e := by
  refine relativeName_append (fun c hc => ?_) p
  rcases extension_cases s with ⟨hnone, -⟩ | ⟨after, -, hdot, -⟩
  · exact absurd (hext.symm.trans hnone) he
  · rw [hext] at hdot
    rw [hdot, String.toList_append] at hc
    cases Option.some.inj hc
    decide

namespace Naming

variable {n : Naming} {t : Tree} {p e : String}

/-- A document that is found at its own path is a file there. -/
theorem Finds.status_of_self {path q : Path} (h : Finds n t path q) (hsound : t.Sound) (hself : q = path) :
    ∃ real bytes mtime, t.status path = .file real bytes mtime := by
  cases h with
  | file hstatus => exact ⟨_, _, _, hstatus⟩
  | default => simp at hself
  | variant hstatus hlists =>
      have hfile := Tree.status_of_lists hsound hlists fun reason => by
        rw [hself, hstatus]
        exact nofun
      rwa [hself] at hfile

/-- Where nothing is, a document is found just if a file of the directory has its stem. -/
theorem fileOf_of_absent {name : String} {below : Path}
    (hbelow : Path.below? n.base (n.base.resolve (relativeName name)) = some below) {directory : Path} {l : String}
    (hpath : n.base.resolve (relativeName name) = directory ++ [l]) (habsent : t.status (directory ++ [l]) = .absent) :
    n.fileOf t name = n.findVariant t directory l name := by
  rw [hpath] at hbelow
  simp [fileOf, hpath, hbelow, habsent]

/-- A name beside a file below the base is below the base, if the file's name goes on from it. -/
theorem below?_of_append {base directory below : Path} {l : String}
    (hbelow : Path.below? base (directory ++ [l ++ e]) = some below) (hne : directory ++ [l ++ e] ≠ base) :
    ∃ after, Path.below? base (directory ++ [l]) = some after := by
  obtain ⟨hpath, hfirst⟩ := Path.below?_eq_some.1 hbelow
  rcases List.eq_nil_or_concat below with rfl | ⟨above, last, rfl⟩
  · rw [List.append_nil] at hpath
    exact absurd hpath hne
  · rw [List.concat_eq_append, ← List.append_assoc] at hpath
    obtain ⟨rfl, hlast⟩ := List.append_inj' hpath rfl
    cases hlast
    refine ⟨above ++ [l], Path.below?_eq_some.2 ⟨List.append_assoc _ _ _, fun c hc => ?_⟩⟩
    cases above with
    | cons d above => exact hfirst c hc
    | nil =>
        cases Option.some.inj hc
        exact Text.startsWith_eq_false_of_append (hfirst (l ++ e) rfl)

/-- The name of the base without an extension leads to beside the base, where no document is. -/
theorem fileOf_ne_ok_of_beside {directory : Path} {l name : String} (he : e ≠ "") (hself : n.base = directory ++ [l ++ e])
    (hpath : n.base.resolve (relativeName name) = directory ++ [l]) (q : Path) : n.fileOf t name ≠ .ok q := by
  intro hq
  obtain ⟨after, hafter, -⟩ := finds_of_fileOf hq
  have hout := (Path.below?_eq_some.1 hafter).1
  rw [hpath, hself, List.append_assoc, List.singleton_append] at hout
  have hsame : l = l ++ e := (List.cons.inj (List.append_cancel_left hout)).1
  have hchars := congrArg String.toList hsame
  rw [String.toList_append, List.self_eq_append_right] at hchars
  exact he (String.toList_inj.1 hchars)

/-- From a directory, a step that is no name leads to a directory, or out of the tree. -/
theorem not_absent_of_step {directory real : Path} {mtime : Option Int} {l : String}
    (hdirectory : t.status directory = .directory real mtime)
    (hnames : (∀ c ∈ directory, IsName c) ∨ directory.head? = some "..") (hslash : '/' ∉ l.toList) (hl : ¬ IsName l)
    (hinside : (directory.step l).head? ≠ some "..") : t.status (directory.step l) ≠ .absent := by
  intro habsent
  have hhead : directory.head? ≠ some ".." := by
    intro hhead
    rw [Tree.status, if_pos hhead] at hdirectory
    cases hdirectory
  have hstep := Path.steps_step hslash directory
  generalize directory.step l = path at hstep hinside habsent
  cases hstep with
  | stay => cases habsent.symm.trans hdirectory
  | @up _ x hx =>
      have hgoes := Tree.goesOn_of_read (List.cons_ne_nil x []) hhead fun reason hfailed => by
        cases hdirectory.symm.trans hfailed
      rw [habsent, hdirectory] at hgoes
      cases hgoes
  | out hend =>
      rcases hend with rfl | ⟨q, rfl⟩
      · exact hinside rfl
      · exact (hnames.resolve_right hhead ".." (by simp)).ne_dots rfl
  | on hname => exact hl hname

/-- A link to a file, and a file. -/
def linked : Tree where
  origin := "/work"
  nodes := .ofList [(["base"], .directory none), (["base", "real"], .directory none), (["base", "real", "y.md"], .file [] 1),
    (["base", "x.md"], .link "real/y.md"), (["base", "z.md"], .file [] 1)]

end Naming

end ScriptedText.Files
