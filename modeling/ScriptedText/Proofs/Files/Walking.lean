import Mathlib.Data.List.Induction
import ScriptedText.Proofs.Files.Following
import ScriptedText.Proofs.Files.Path

/-!
Trees as file systems keep them, and where paths lead in them. A path that goes on is followed from where its first part has
led; along names, without links, it leads to what the tree has under it.
-/

namespace ScriptedText.Files

/-- What a status says of a path, against what is said of the path when it goes on. -/
inductive Status.GoesOn (t : Tree) (rest : Path) : Status → Status → Prop
  | directory {real : Path} {mtime : Option Int} (links : Nat) : GoesOn t rest (.directory real mtime) (t.walk links real rest)
  | file {real : Path} {bytes : List UInt8} {mtime : Int} : GoesOn t rest (.file real bytes mtime) .absent
  | absent : GoesOn t rest .absent .absent
  | failed {reason : String} : GoesOn t rest (.failed reason) (.failed reason)

/-- What is found at a path where the node is, unless it is a link. -/
def Node.status? (real : Path) : Node → Option Status
  | .file bytes mtime => some (.file real bytes mtime)
  | .directory mtime => some (.directory real mtime)
  | .link _ => none

namespace Tree

/-- A file that is no link. -/
def IsFile (t : Tree) (p : Path) : Prop := ∃ bytes mtime, t.nodes.get? p = some (.file bytes mtime)

/-- A directory that is no link. The origin is one. -/
def IsDirectory (t : Tree) (p : Path) : Prop := p = [] ∨ ∃ mtime, t.nodes.get? p = some (.directory mtime)

instance (t : Tree) (p : Path) : Decidable (t.IsFile p) :=
  decidable_of_iff (∃ n ∈ t.nodes.get? p, n matches .file _ _)
    ⟨fun ⟨n, hn, hf⟩ => by cases n <;> simp_all [IsFile], fun ⟨bytes, mtime, hn⟩ => ⟨_, hn, rfl⟩⟩

instance (t : Tree) (p : Path) : Decidable (t.IsDirectory p) :=
  decidable_of_iff (p = [] ∨ ∃ n ∈ t.nodes.get? p, n matches .directory _) (or_congr_right
    ⟨fun ⟨n, hn, hd⟩ => by cases n <;> simp_all, fun ⟨mtime, hn⟩ => ⟨_, hn, rfl⟩⟩)

/-- The directory at a path has the file, which is no link. Links may lead to the directory. -/
def Lists (t : Tree) (directory : Path) (c : String) : Prop :=
  ∃ real mtime, t.status directory = .directory real mtime ∧ t.IsFile (real ++ [c])

/-- As file systems keep a tree: all that is there has a name that is not too long, and stands in a directory. -/
structure Sound (t : Tree) : Prop where
  name : ∀ e ∈ t.nodes.entries, ∀ c ∈ e.1, IsName c ∧ byteLength c ≤ nameLimit
  place : ∀ e ∈ t.nodes.entries, e.1 ≠ [] ∧ t.IsDirectory e.1.dropLast

variable {t : Tree} {here p rest real : Path} {c : String} {n : Node} {onLink : Path → List String → Status}

/-! A path that goes on. -/

theorem goesOn_walkWith (hne : rest ≠ []) (hstart : ∀ here, ∃ links, t.walkWith onLink here rest = t.walk links here rest)
    (hlink : ∀ here p, Status.GoesOn t rest (onLink here p) (onLink here (p ++ rest))) (here p : Path) :
    Status.GoesOn t rest (t.walkWith onLink here p) (t.walkWith onLink here (p ++ rest)) := by
  have hlast (p : Path) : (p ++ rest).isEmpty = false := by simp [hne]
  induction p generalizing here with
  | nil =>
      obtain ⟨links, hrest⟩ := hstart here
      rw [List.nil_append, hrest, walkWith]
      split
      · exact .directory links
      · exact .directory links
  | cons c p ih =>
      rw [List.cons_append, walkWith, walkWith]
      split
      · exact ih here
      · split
        · split
          · exact .absent
          · exact ih _
        · split
          · exact .failed
          · split
            · exact .absent
            · exact ih _
            · rw [hlast]
              cases p with
              | nil => exact .file
              | cons _ _ => exact .absent
            · split
              · rw [← List.append_assoc]
                exact hlink _ _
              · split
                · exact .absent
                · rw [← List.append_assoc]
                  exact hlink _ _

theorem goesOn_walk (hne : rest ≠ []) (links : Nat) (here p : Path) :
    Status.GoesOn t rest (t.walk links here p) (t.walk links here (p ++ rest)) := by
  induction links generalizing here p with
  | zero => exact goesOn_walkWith hne (fun _ => ⟨0, rfl⟩) (fun _ _ => .failed) here p
  | succ links ih => exact goesOn_walkWith hne (fun _ => ⟨links + 1, rfl⟩) ih here p

theorem byteLength_spell_le (t : Tree) (p rest : Path) : byteLength (t.spell p) ≤ byteLength (t.spell (p ++ rest)) := by
  have hgrows (parts : List (List Char)) (part : List Char) :
      ['/'].intercalate (part :: parts) <+: ['/'].intercalate (part :: parts ++ rest.map String.toList) := by
    induction parts generalizing part with
    | nil =>
        cases rest with
        | nil => simp
        | cons c rest => exact ⟨'/' :: ['/'].intercalate ((c :: rest).map String.toList), by simp [List.intercalate]⟩
    | cons next parts ih =>
        obtain ⟨more, hmore⟩ := ih next
        refine ⟨more, ?_⟩
        have hjoin (parts : List (List Char)) : ['/'].intercalate (part :: next :: parts) =
            part ++ '/' :: ['/'].intercalate (next :: parts) := by simp [List.intercalate]
        rw [List.cons_append, List.cons_append, hjoin, hjoin, ← List.cons_append, ← hmore]
        simp
  obtain ⟨more, hmore⟩ := hgrows (p.map String.toList) t.origin.toList
  have hspell : (t.spell (p ++ rest)).toList = (t.spell p).toList ++ more := by
    have hslash : "/".toList = ['/'] := rfl
    simpa [spell, String.toList_intercalate, hslash] using hmore.symm
  simp only [byteLength, Text.encodeUtf8, hspell, List.flatMap_append, List.length_append]
  exact Nat.le_add_right _ _

theorem goesOn_status (hne : rest ≠ []) (hinside : p ≠ [] ∨ rest.head? ≠ some "..")
    (hshort : byteLength (t.spell (p ++ rest)) ≤ pathLimit) :
    Status.GoesOn t rest (t.status p) (t.status (p ++ rest)) := by
  have hfirst : (p ++ rest).head? = some ".." ↔ p.head? = some ".." := by
    cases p with
    | nil => simpa using hinside
    | cons c p => simp
  have hshort' := Nat.le_trans (byteLength_spell_le t p rest) hshort
  unfold status
  simp only [hfirst, if_neg (Nat.not_lt_of_le hshort), if_neg (Nat.not_lt_of_le hshort')]
  split
  · exact .absent
  · exact goesOn_walk hne linkLimit [] p

/-- A path that can be read goes on from where its first part leads. -/
theorem goesOn_of_read (hne : rest ≠ []) (hhead : (p ++ rest).head? ≠ some "..")
    (hread : ∀ reason, t.status (p ++ rest) ≠ .failed reason) :
    Status.GoesOn t rest (t.status p) (t.status (p ++ rest)) := by
  have hinside : p ≠ [] ∨ rest.head? ≠ some ".." := by
    cases p with
    | nil => exact .inr hhead
    | cons c p => exact .inl (List.cons_ne_nil c p)
  refine goesOn_status hne hinside (Nat.le_of_not_lt fun hlong => hread tooLong ?_)
  rw [status, if_neg hhead, if_pos hlong]

/-- Where a file is at the end of a path, the path before it leads to a directory. -/
theorem exists_directory_of_status {bytes : List UInt8} {mtime : Int}
    (h : t.status (p ++ [c]) = .file real bytes mtime) :
    ∃ parent time links, t.status p = .directory parent time ∧ t.walk links parent [c] = .file real bytes mtime := by
  have hhead : (p ++ [c]).head? ≠ some ".." := by
    intro hhead
    rw [status, if_pos hhead] at h
    cases h
  have hgoes := goesOn_of_read (List.cons_ne_nil c []) hhead fun reason => by
    rw [h]
    exact nofun
  generalize t.status (p ++ [c]) = s' at h hgoes
  generalize t.status p = s at hgoes
  cases hgoes with
  | directory links => exact ⟨_, _, links, rfl, h⟩
  | file => cases h
  | absent => cases h
  | failed => cases h

/-- If a path can be read, so can what it goes on from. -/
theorem read_of_append (hne : rest ≠ []) (hhead : (p ++ rest).head? ≠ some "..")
    (hread : ∀ reason, t.status (p ++ rest) ≠ .failed reason) (reason : String) : t.status p ≠ .failed reason := by
  intro hfailed
  have hgoes := goesOn_of_read hne hhead hread
  rw [hfailed] at hgoes
  generalize t.status (p ++ rest) = s' at hread hgoes
  cases hgoes
  exact hread reason rfl

/-! What a sound tree has under a path. -/

theorem Sound.names (h : t.Sound) (hn : t.nodes.get? p = some n) : ∀ c ∈ p, IsName c ∧ byteLength c ≤ nameLimit :=
  h.name (p, n) (OrderedMap.mem_entries_of_get? hn)

theorem Sound.ne_nil (h : t.Sound) (hn : t.nodes.get? p = some n) : p ≠ [] :=
  (h.place (p, n) (OrderedMap.mem_entries_of_get? hn)).1

/-- Whatever is somewhere below stands in a directory. -/
theorem Sound.isDirectory (h : t.Sound) (hn : t.nodes.get? (p ++ rest) = some n) (hne : rest ≠ []) : t.IsDirectory p := by
  induction rest using List.reverseRecOn generalizing n with
  | nil => exact absurd rfl hne
  | append_singleton rest c ih =>
      have hplace := (h.place _ (OrderedMap.mem_entries_of_get? hn)).2
      dsimp only at hplace
      rw [← List.append_assoc, List.dropLast_concat] at hplace
      cases rest with
      | nil => simpa using hplace
      | cons d rest =>
          obtain hnil | ⟨mtime, hparent⟩ := hplace
          · simp at hnil
          · exact ih hparent (by simp)

theorem IsFile.not_isDirectory (h : t.IsFile p) (hsound : t.Sound) : ¬ t.IsDirectory p := by
  obtain ⟨bytes, mtime, hn⟩ := h
  rintro (hnil | ⟨time, hdirectory⟩)
  · exact hsound.ne_nil hn hnil
  · cases hn.symm.trans hdirectory

theorem not_isDirectory_of_none (hn : t.nodes.get? p = none) (hne : p ≠ []) : ¬ t.IsDirectory p := by
  rintro (hnil | ⟨time, hdirectory⟩)
  · exact hne hnil
  · cases hn.symm.trans hdirectory

theorem walkWith_nil (onLink : Path → List String → Status) (here : Path) :
    ∃ mtime, t.walkWith onLink here [] = .directory here mtime := by
  unfold walkWith
  split
  · exact ⟨_, rfl⟩
  · exact ⟨_, rfl⟩

/-- What is behind a name is behind a directory. -/
theorem Sound.exists_directory (h : t.Sound) (hn : t.nodes.get? (p ++ c :: rest) = some n) (hne : rest ≠ []) :
    ∃ mtime, t.nodes.get? (p ++ [c]) = some (.directory mtime) := by
  rw [← List.singleton_append, ← List.append_assoc] at hn
  refine (h.isDirectory hn hne).resolve_left fun hnil => ?_
  simp at hnil

/-- The origin is always there. -/
theorem ne_nil_of_absent (h : t.status p = .absent) : p ≠ [] := by
  rintro rfl
  obtain ⟨mtime, hhere⟩ := walkWith_nil (t := t) (t.walk (linkLimit - 1)) []
  unfold status at h
  split at h
  · next hhead => cases hhead
  · split at h
    · cases h
    · cases hhere.symm.trans h

theorem walkWith_of_name (hc : IsName c) (hshort : byteLength c ≤ nameLimit) (onLink : Path → List String → Status)
    (here rest : Path) : t.walkWith onLink here (c :: rest) = t.enter onLink here c rest := by
  rw [walkWith, if_neg (by simp [hc.ne_empty, hc.ne_dot]), if_neg hc.ne_dots, if_neg (Nat.not_lt_of_le hshort)]
  rfl

/-- Below a directory, what the tree has is found. By induction on the way, along which there are directories only. -/
theorem walkWith_of_node {s : Status} (h : t.Sound) (hn : t.nodes.get? (here ++ rest) = some n) (hne : rest ≠ [])
    (hs : n.status? (here ++ rest) = some s) : t.walkWith onLink here rest = s := by
  induction rest generalizing here with
  | nil => exact absurd rfl hne
  | cons c rest ih =>
      obtain ⟨hc, hshort⟩ := h.names hn c (by simp)
      rw [walkWith_of_name hc hshort, enter]
      cases rest with
      | nil =>
          rw [hn]
          cases n with
          | file bytes mtime => exact Option.some.inj hs
          | directory mtime =>
              dsimp only
              rw [walkWith, hn]
              exact Option.some.inj hs
          | link target => cases hs
      | cons d rest =>
          obtain ⟨mtime, hdirectory⟩ := h.exists_directory hn (List.cons_ne_nil d rest)
          have happend : here ++ c :: d :: rest = (here ++ [c]) ++ d :: rest := by simp
          rw [happend] at hn hs
          rw [hdirectory]
          exact ih hn (List.cons_ne_nil d rest) hs

theorem walk_of_node {s : Status} (h : t.Sound) (links : Nat) (hn : t.nodes.get? (here ++ rest) = some n)
    (hne : rest ≠ []) (hs : n.status? (here ++ rest) = some s) : t.walk links here rest = s := by
  cases links with
  | zero => exact walkWith_of_node h hn hne hs
  | succ links => exact walkWith_of_node h hn hne hs

/-- Without links, nothing is found along names where the tree has nothing. -/
theorem walkWith_of_none (h : t.Plain) (hnames : ∀ c ∈ rest, IsName c) (hne : rest ≠ [])
    (hn : t.nodes.get? (here ++ rest) = none) :
    t.walkWith onLink here rest = .absent ∨ t.walkWith onLink here rest = .failed tooLong := by
  induction rest generalizing here with
  | nil => exact absurd rfl hne
  | cons c rest ih =>
      obtain ⟨hc, hrest⟩ := List.forall_mem_cons.1 hnames
      by_cases hlong : nameLimit < byteLength c
      · refine .inr ?_
        rw [walkWith, if_neg (by simp [hc.ne_empty, hc.ne_dot]), if_neg hc.ne_dots, if_pos hlong]
      · rw [walkWith_of_name hc (Nat.le_of_not_lt hlong), enter]
        cases rest with
        | nil =>
            rw [hn]
            exact .inl rfl
        | cons d rest =>
            have happend : here ++ c :: d :: rest = (here ++ [c]) ++ d :: rest := by simp
            rw [happend] at hn
            split
            · exact .inl rfl
            · exact ih hrest (by simp) hn
            · exact .inl rfl
            · next target hlink => exact absurd hlink (h _ target)

/-- What can be at a path of names in a tree without links: a file, a directory, or nothing. -/
theorem status_cases (h : t.Sound) (hplain : t.Plain) (hnames : ∀ c ∈ p, IsName c)
    (hread : ∀ reason, t.status p ≠ .failed reason) :
    (∃ bytes mtime, t.nodes.get? p = some (.file bytes mtime) ∧ t.status p = .file p bytes mtime) ∨
      (t.IsDirectory p ∧ ∃ mtime, t.status p = .directory p mtime) ∨
      (t.nodes.get? p = none ∧ p ≠ [] ∧ t.status p = .absent) := by
  have hhead : p.head? ≠ some ".." := by
    cases p with
    | nil => exact nofun
    | cons c p =>
        intro hhead
        exact (hnames c (List.mem_cons_self ..)).ne_dots (Option.some.inj hhead)
  have hshort : ¬ pathLimit < byteLength (t.spell p) := by
    intro hlong
    refine hread tooLong ?_
    rw [status, if_neg hhead, if_pos hlong]
  have hstatus : t.status p = t.walk linkLimit [] p := by rw [status, if_neg hhead, if_neg hshort]
  by_cases hnil : p = []
  · subst hnil
    obtain ⟨mtime, hhere⟩ := walkWith_nil (t := t) (t.walk (linkLimit - 1)) []
    exact .inr (.inl ⟨.inl rfl, mtime, hstatus.trans hhere⟩)
  · cases hn : t.nodes.get? p with
    | none =>
        refine .inr (.inr ⟨rfl, hnil, ?_⟩)
        rcases walkWith_of_none hplain hnames hnil (show t.nodes.get? ([] ++ p) = none from hn) with habsent | hfailed
        · exact hstatus.trans habsent
        · exact absurd (hstatus.trans hfailed) (hread _)
    | some n =>
        have hfound {s : Status} (hs : n.status? p = some s) : t.status p = s :=
          hstatus.trans (walk_of_node h linkLimit (show t.nodes.get? ([] ++ p) = some n from hn) hnil hs)
        cases n with
        | file bytes mtime => exact .inl ⟨bytes, mtime, rfl, hfound rfl⟩
        | directory mtime => exact .inr (.inl ⟨.inr ⟨mtime, hn⟩, mtime, hfound rfl⟩)
        | link target => exact absurd hn (hplain p target)

/-! What a directory lists. -/

/-- An entry of a directory is a node one name below it. -/
theorem exists_entries_eq (t : Tree) (real : Path) : ∃ entry : Path × Node → Option (String × Node),
    t.entries real = t.nodes.entries.filterMap entry ∧ ∀ e c n, entry e = some (c, n) ↔ e = (real ++ [c], n) := by
  refine ⟨_, rfl, fun e c n => ⟨fun hentry => ?_, ?_⟩⟩
  · obtain ⟨p, n'⟩ := e
    dsimp only at hentry
    split at hentry
    · next name hlast =>
        split at hentry
        · next hparent =>
            cases hentry
            rw [← hparent, List.dropLast_append_getLast? c hlast]
        · cases hentry
    · cases hentry
  · rintro rfl
    simp

theorem mem_entries_iff : (c, n) ∈ t.entries real ↔ t.nodes.get? (real ++ [c]) = some n := by
  obtain ⟨entry, hentries, hentry⟩ := exists_entries_eq t real
  simp only [hentries, List.mem_filterMap, hentry, exists_eq_right]
  exact ⟨OrderedMap.get?_of_mem, OrderedMap.mem_entries_of_get?⟩

theorem nodup_entries (t : Tree) (real : Path) : (t.entries real).Pairwise fun e e' => e.1 ≠ e'.1 := by
  obtain ⟨entry, hentries, hentry⟩ := exists_entries_eq t real
  rw [hentries]
  refine List.Pairwise.filterMap _ ?_ (List.pairwise_map.1 t.nodes.nodup)
  intro e₁ e₂ hne e₁' he₁ e₂' he₂ hsame
  rw [(hentry e₁ e₁'.1 e₁'.2).1 he₁, (hentry e₂ e₂'.1 e₂'.2).1 he₂, hsame] at hne
  exact hne rfl

/-- A file that a directory lists is found there, if its path can be read. -/
theorem status_of_lists {directory : Path} (h : t.Sound) (hlists : t.Lists directory c)
    (hread : ∀ reason, t.status (directory ++ [c]) ≠ .failed reason) :
    ∃ file bytes mtime, t.status (directory ++ [c]) = .file file bytes mtime := by
  obtain ⟨real, mtime, hdirectory, bytes, time, hfile⟩ := hlists
  have hhead : (directory ++ [c]).head? ≠ some ".." := by
    cases directory with
    | nil =>
        intro hhead
        exact (h.names hfile c (by simp)).1.ne_dots (Option.some.inj hhead)
    | cons d directory =>
        intro hhead
        rw [status, if_pos (by exact hhead)] at hdirectory
        cases hdirectory
  have hgoes := goesOn_of_read (List.cons_ne_nil c []) hhead hread
  rw [hdirectory] at hgoes
  generalize t.status (directory ++ [c]) = s at hgoes
  cases hgoes with
  | directory links => exact ⟨_, _, _, walk_of_node h links hfile (List.cons_ne_nil c []) rfl⟩

theorem list_of_directory {mtime : Option Int} (h : t.status p = .directory real mtime) :
    t.list p = .ok (some (t.entries real)) := by
  rw [list, h]

end Tree

end ScriptedText.Files
