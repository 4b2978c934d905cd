import Mathlib.Data.List.Basic
import ScriptedText.Files.Lookup
import ScriptedText.Proofs.Files.Walking
import ScriptedText.Proofs.Text.UnitOrder

/-!
Which file stands for a stem in a directory. Of the files that have the stem, it is the one with the preferred extension, and
else the first in the order of 16-bit units; in what order the directory is listed has no say in it.
-/

namespace ScriptedText.Files

namespace Tree

variable {t t' : Tree}

theorem plain_iff : t.Plain ↔ ∀ e ∈ t.nodes.entries, ¬ (e.2 matches .link _) := by
  constructor
  · rintro h ⟨q, n⟩ he
    cases n with
    | link target => exact absurd (OrderedMap.get?_of_mem he) (h q target)
    | file _ _ => exact nofun
    | directory _ => exact nofun
  · intro h q target hlink
    exact h _ (OrderedMap.mem_entries_of_get? hlink) rfl

instance (t : Tree) : Decidable t.Plain := decidable_of_iff' _ plain_iff

theorem sound_iff : t.Sound ↔ (∀ e ∈ t.nodes.entries, ∀ c ∈ e.1, IsName c ∧ byteLength c ≤ nameLimit) ∧
    ∀ e ∈ t.nodes.entries, e.1 ≠ [] ∧ t.IsDirectory e.1.dropLast :=
  ⟨fun h => ⟨h.name, h.place⟩, fun h => ⟨h.1, h.2⟩⟩

instance (t : Tree) : Decidable t.Sound := decidable_of_iff' _ sound_iff

/-- The same things are there, told in another order. -/
structure Reorders (t t' : Tree) : Prop where
  origin : t'.origin = t.origin
  perm : t'.nodes.entries.Perm t.nodes.entries

namespace Reorders

variable (h : t.Reorders t')

include h

theorem get? (p : Path) : t'.nodes.get? p = t.nodes.get? p := by
  apply Option.ext
  intro n
  constructor
  · intro hn
    exact OrderedMap.get?_of_mem (h.perm.mem_iff.1 (OrderedMap.mem_entries_of_get? hn))
  · intro hn
    exact OrderedMap.get?_of_mem (h.perm.mem_iff.2 (OrderedMap.mem_entries_of_get? hn))

theorem walkWith (onLink : Path → List String → Status) (rest : List String) (here : Path) :
    t'.walkWith onLink here rest = t.walkWith onLink here rest := by
  induction rest generalizing here with
  | nil => rw [Tree.walkWith, Tree.walkWith, h.get?]
  | cons c rest ih =>
      rcases walkWith_cons_cases here c rest with hstep | ⟨s, -, hstep⟩ | ⟨-, hstep⟩
      · rw [hstep, hstep, ih]
      · rw [hstep, hstep]
      · rw [hstep, hstep, enter, enter, h.get?, h.origin, ih]

theorem walk (links : Nat) (here rest : Path) : t'.walk links here rest = t.walk links here rest := by
  induction links generalizing here rest with
  | zero => exact h.walkWith _ rest here
  | succ links ih =>
      have honLink : t'.walk links = t.walk links := funext fun here => funext fun rest => ih here rest
      rw [Tree.walk, Tree.walk, honLink, h.walkWith]

theorem status (p : Path) : t'.status p = t.status p := by
  rw [Tree.status, Tree.status, h.walk, Tree.spell, Tree.spell, h.origin]

end Reorders

end Tree

namespace Naming

variable {n : Naming} {t t' : Tree} {listing : List (String × Node)} {directory p : Path} {wanted name f : String}

theorem mem_candidates :
    f ∈ candidates listing wanted ↔ (∃ bytes mtime, (f, .file bytes mtime) ∈ listing) ∧ stem f = wanted := by
  rw [candidates, List.mem_mergeSort, List.mem_map]
  constructor
  · rintro ⟨⟨f, node⟩, hmem, rfl⟩
    obtain ⟨hlisted, hfile⟩ := List.mem_filter.1 hmem
    cases node with
    | file bytes mtime => exact ⟨⟨bytes, mtime, hlisted⟩, of_decide_eq_true hfile⟩
    | directory _ => cases hfile
    | link _ => cases hfile
  · rintro ⟨⟨bytes, mtime, hlisted⟩, hstem⟩
    exact ⟨_, List.mem_filter.2 ⟨hlisted, decide_eq_true hstem⟩, rfl⟩

theorem pairwise_candidates (listing : List (String × Node)) (wanted : String) :
    (candidates listing wanted).Pairwise fun a b => Text.unitsLe a b = true :=
  List.pairwise_mergeSort Text.unitsLe_trans Text.unitsLe_total _

theorem candidates_eq_of_perm {listing' : List (String × Node)} (h : listing'.Perm listing) (wanted : String) :
    candidates listing' wanted = candidates listing wanted := by
  have hfiles : (candidates listing' wanted).Perm (candidates listing wanted) :=
    ((List.mergeSort_perm _ _).trans ((h.filter _).map _)).trans (List.mergeSort_perm _ _).symm
  exact hfiles.eq_of_pairwise (fun _ _ _ _ => Text.unitsLe_antisymm) (pairwise_candidates _ _) (pairwise_candidates _ _)

/-- One candidate is chosen: the one with the preferred extension, and the first if none has it. -/
theorem choose_eq_some {cs : List String} (h : n.choose cs = some f) :
    f ∈ cs ∧ ((∃ e ∈ n.preferredExtension, extension f = "." ++ e) ∨
      (∀ e ∈ n.preferredExtension, ∀ c ∈ cs, extension c ≠ "." ++ e) ∧ cs.head? = some f) := by
  unfold choose at h
  cases hpreferred : n.preferredExtension with
  | none =>
      rw [hpreferred] at h
      exact ⟨List.mem_of_head? h, .inr ⟨nofun, h⟩⟩
  | some e =>
      rw [hpreferred, Option.bind_some] at h
      cases hfind : cs.find? fun c => decide (extension c = "." ++ e) with
      | none =>
          rw [hfind] at h
          refine ⟨List.mem_of_head? h, .inr ⟨?_, h⟩⟩
          rintro _ ⟨⟩ c hc
          exact of_decide_eq_false (Bool.eq_false_iff.2 (List.find?_eq_none.1 hfind c hc))
      | some c =>
          rw [hfind] at h
          cases h
          have hext := List.find?_some hfind
          exact ⟨List.mem_of_find?_eq_some hfind, .inl ⟨e, rfl, of_decide_eq_true hext⟩⟩

theorem choose_eq_none {cs : List String} : n.choose cs = none ↔ cs = [] := by
  unfold choose
  cases cs with
  | nil => cases n.preferredExtension <;> simp
  | cons c cs => simp

/-- A variant is found in a directory, and one of those that it chooses from. -/
theorem findVariant_eq_ok : n.findVariant t directory wanted name = .ok p ↔
    ∃ real mtime f, t.status directory = .directory real mtime ∧ n.choose (candidates (t.entries real) wanted) = some f ∧
      p = directory ++ [f] := by
  unfold findVariant Tree.list
  cases t.status directory with
  | directory real mtime =>
      dsimp only
      cases hchosen : n.choose (candidates (t.entries real) wanted) with
      | none => simp [hchosen]
      | some f => simp [hchosen, eq_comm]
  | file _ _ _ => simp
  | absent => simp
  | failed _ => simp

theorem lists_of_choose {real : Path} {mtime : Option Int} (hdirectory : t.status directory = .directory real mtime)
    (h : n.choose (candidates (t.entries real) wanted) = some f) : t.Lists directory f ∧ stem f = wanted := by
  obtain ⟨⟨bytes, time, hlisted⟩, hstem⟩ := mem_candidates.1 (choose_eq_some h).1
  exact ⟨⟨real, mtime, hdirectory, bytes, time, Tree.mem_entries_iff.1 hlisted⟩, hstem⟩

/-- A variant is found just if a file of the directory has the stem, and then it is such a file. -/
theorem findVariant_ok (n : Naming) (t : Tree) (directory : Path) (wanted name : String) :
    ((∃ p, n.findVariant t directory wanted name = .ok p) ↔ ∃ f, t.Lists directory f ∧ stem f = wanted) ∧
      ∀ p, n.findVariant t directory wanted name = .ok p →
        ∃ f, t.Lists directory f ∧ stem f = wanted ∧ p = directory ++ [f] := by
  have hfound (p : Path) (h : n.findVariant t directory wanted name = .ok p) :
      ∃ f, t.Lists directory f ∧ stem f = wanted ∧ p = directory ++ [f] := by
    obtain ⟨real, mtime, f, hdirectory, hchosen, hp⟩ := findVariant_eq_ok.1 h
    obtain ⟨hlists, hstem⟩ := lists_of_choose hdirectory hchosen
    exact ⟨f, hlists, hstem, hp⟩
  refine ⟨⟨fun ⟨p, h⟩ => ?_, ?_⟩, hfound⟩
  · obtain ⟨f, hlists, hstem, -⟩ := hfound p h
    exact ⟨f, hlists, hstem⟩
  · rintro ⟨f, ⟨real, mtime, hdirectory, bytes, time, hfile⟩, hstem⟩
    have hcandidate : f ∈ candidates (t.entries real) wanted :=
      mem_candidates.2 ⟨⟨bytes, time, Tree.mem_entries_iff.2 hfile⟩, hstem⟩
    cases hchosen : n.choose (candidates (t.entries real) wanted) with
    | none => exact absurd (choose_eq_none.1 hchosen) (List.ne_nil_of_mem hcandidate)
    | some g => exact ⟨_, findVariant_eq_ok.2 ⟨real, mtime, g, hdirectory, hchosen, rfl⟩⟩

/-- How a path comes to a file: it leads to one, or to a directory with a default document, or a file has its stem. -/
inductive Finds (n : Naming) (t : Tree) (path : Path) : Path → Prop
  | file {real : Path} {bytes : List UInt8} {mtime : Int} (h : t.status path = .file real bytes mtime) : Finds n t path path
  | default {real : Path} {mtime : Option Int} {f : String} (h : t.status path = .directory real mtime)
      (hlists : t.Lists path f) (hstem : stem f = n.defaultName) : Finds n t path (path ++ [f])
  | variant {f : String} (h : t.status path = .absent) (hlists : t.Lists path.dropLast f)
      (hstem : stem f = (path.getLast?).getD "") : Finds n t path (path.dropLast ++ [f])

/-- A document has its file below the base directory, or the base directory is what its name comes to. -/
theorem finds_of_fileOf (h : n.fileOf t name = .ok p) :
    ∃ below, Path.below? n.base (n.base.resolve (relativeName name)) = some below ∧ Finds n t (n.base ++ below) p := by
  unfold fileOf at h
  dsimp only at h
  cases hbelow : Path.below? n.base (n.base.resolve (relativeName name)) with
  | none =>
      rw [hbelow] at h
      cases h
  | some below =>
      rw [hbelow, (Path.below?_eq_some.1 hbelow).1] at h
      dsimp only at h
      refine ⟨below, rfl, ?_⟩
      cases hstatus : t.status (n.base ++ below) with
      | file real bytes mtime =>
          rw [hstatus] at h
          cases h
          exact .file hstatus
      | directory real mtime =>
          rw [hstatus] at h
          obtain ⟨f, hlists, hstem, rfl⟩ := (findVariant_ok n t _ _ _).2 p h
          exact .default hstatus hlists hstem
      | absent =>
          rw [hstatus] at h
          obtain ⟨f, hlists, hstem, rfl⟩ := (findVariant_ok n t _ _ _).2 p h
          exact .variant hstatus hlists hstem
      | failed reason =>
          rw [hstatus] at h
          cases h

theorem fileOf_eq_ok (h : (n.fileOf t name).toOption = some p) : n.fileOf t name = .ok p := by
  cases hfile : n.fileOf t name with
  | error e =>
      rw [hfile] at h
      cases h
  | ok q =>
      rw [hfile] at h
      rw [Option.some.inj h]

/-- Where a document has no file, it is missing or cannot be read. -/
theorem fault_of_fileOf {e : Failure} (h : n.fileOf t name = .error e) :
    e = missing name ∨ ∃ reason, e = unreadable name reason := by
  have hvariant (directory : Path) (wanted : String) (h : n.findVariant t directory wanted name = .error e) :
      e = missing name ∨ ∃ reason, e = unreadable name reason := by
    unfold findVariant at h
    split at h
    · cases h
      exact .inr ⟨_, rfl⟩
    · cases h
      exact .inl rfl
    · split at h
      · cases h
        exact .inl rfl
      · cases h
  unfold fileOf at h
  dsimp only at h
  split at h
  · cases h
    exact .inl rfl
  · split at h
    · cases h
      exact .inr ⟨_, rfl⟩
    · exact hvariant _ _ h
    · cases h
    · exact hvariant _ _ h

theorem entries_perm (h : t.Reorders t') (real : Path) : (t'.entries real).Perm (t.entries real) := h.perm.filterMap _

/-- In what order directories are listed makes no difference. -/
theorem fileOf_of_reorders (h : t.Reorders t') (name : String) : n.fileOf t' name = n.fileOf t name := by
  have hvariant (directory : Path) (wanted : String) :
      n.findVariant t' directory wanted name = n.findVariant t directory wanted name := by
    unfold findVariant Tree.list
    rw [h.status]
    cases t.status directory with
    | directory real mtime =>
        dsimp only
        rw [candidates_eq_of_perm (entries_perm h real)]
    | file _ _ _ => rfl
    | absent => rfl
    | failed reason =>
        dsimp only
        rw [Tree.spell, Tree.spell, h.origin]
  unfold fileOf
  simp only [h.status, hvariant, Tree.spell, h.origin]

/-! The file that stands for a stem. -/

/-- How names are resolved with options as they are given. -/
def ofOptions (base : Path) (defaultName : String) (given : Option String) : Naming where
  base := base
  defaultName := defaultName
  preferredExtension := given.map withoutDot

@[simp] theorem base_ofOptions (base : Path) (defaultName : String) (given : Option String) :
    (ofOptions base defaultName given).base = base := rfl

@[simp] theorem defaultName_ofOptions (base : Path) (defaultName : String) (given : Option String) :
    (ofOptions base defaultName given).defaultName = defaultName := rfl

/-- The name of the file with the preferred extension, which is given with its dot or without. -/
def preferredName (wanted given : String) : String :=
  wanted ++ if Text.startsWith given "." then given else "." ++ given

/-- The directory has the file, and the stem is its name without the last extension. -/
structure Variant (t : Tree) (directory : Path) (wanted f : String) : Prop where
  file : t.IsFile (directory ++ [f])
  stem : stem f = wanted

/-- The file stands for the stem: it has the preferred extension, or no file with the stem has it and this is the first. -/
structure Stands (t : Tree) (given : Option String) (directory : Path) (wanted f : String) : Prop where
  variant : Variant t directory wanted f
  first : (∃ e ∈ given, f = preferredName wanted e) ∨
    (∀ e ∈ given, ¬ Variant t directory wanted (preferredName wanted e)) ∧
      ∀ g, Variant t directory wanted g → Text.unitsLe f g = true

theorem Stands.unique {given : Option String} {g : String} (h : Stands t given directory wanted f)
    (h' : Stands t given directory wanted g) : f = g := by
  rcases h.first with ⟨e, he, rfl⟩ | ⟨hnone, hleast⟩
  · rcases h'.first with ⟨e', he', rfl⟩ | ⟨hnone', -⟩
    · cases Option.mem_unique he he'
      rfl
    · exact absurd h.variant (hnone' e he)
  · rcases h'.first with ⟨e', he', rfl⟩ | ⟨-, hleast'⟩
    · exact absurd h'.variant (hnone e' he')
    · exact Text.unitsLe_antisymm (hleast g h'.variant) (hleast' f h.variant)

theorem dot_withoutDot (given : String) :
    "." ++ withoutDot given = if Text.startsWith given "." then given else "." ++ given := by
  have hdot : ".".toList = ['.'] := rfl
  unfold withoutDot Text.startsWith
  rw [hdot]
  split
  · next rest hgiven =>
      rw [hgiven, if_pos (by rfl)]
      apply String.toList_inj.1
      rw [String.toList_append, hdot, String.toList_ofList, hgiven, List.singleton_append]
  · next hgiven =>
      cases hcs : given.toList with
      | nil => exact (if_neg nofun).symm
      | cons c cs =>
          refine (if_neg ?_).symm
          intro hstarts
          have hc : '.' = c := by simpa using hstarts
          subst hc
          exact hgiven cs hcs

theorem extension_eq_iff_preferredName (hstem : stem f = wanted) (given : String) :
    extension f = "." ++ withoutDot given ↔ f = preferredName wanted given := by
  rw [extension_eq_iff hstem, String.append_assoc, dot_withoutDot, preferredName]

/-- What is chosen in a directory is what stands for the stem. -/
theorem choose_iff_stands (given : Option String) (directory : Path) (wanted f : String) (base : Path) (defaultName : String) :
    (ofOptions base defaultName given).choose (candidates (t.entries directory) wanted) = some f ↔
      Stands t given directory wanted f := by
  have hmem (c : String) : c ∈ candidates (t.entries directory) wanted ↔ Variant t directory wanted c := by
    rw [mem_candidates]
    simp only [Tree.mem_entries_iff]
    exact ⟨fun ⟨hfile, hstem⟩ => ⟨hfile, hstem⟩, fun h => ⟨h.file, h.stem⟩⟩
  have hstands {c : String} (h : (ofOptions base defaultName given).choose
      (candidates (t.entries directory) wanted) = some c) : Stands t given directory wanted c := by
    obtain ⟨hc, hfirst⟩ := choose_eq_some h
    refine ⟨(hmem c).1 hc, ?_⟩
    rcases hfirst with ⟨e, he, hext⟩ | ⟨hnone, hhead⟩
    · obtain ⟨given, hgiven, rfl⟩ := Option.map_eq_some_iff.1 he
      exact .inl ⟨given, hgiven, (extension_eq_iff_preferredName ((hmem c).1 hc).stem given).1 hext⟩
    · refine .inr ⟨fun e he hpreferred => ?_, fun g hg => ?_⟩
      · refine hnone _ (Option.mem_map_of_mem _ he) _ ((hmem _).2 hpreferred) ?_
        exact (extension_eq_iff_preferredName hpreferred.stem e).2 rfl
      · have hsorted := pairwise_candidates (t.entries directory) wanted
        obtain ⟨rest, hlist⟩ := List.head?_eq_some_iff.1 hhead
        have hg' := (hmem g).2 hg
        rw [hlist] at hsorted hg'
        rcases List.mem_cons.1 hg' with rfl | hg'
        · simpa using Text.unitsLe_total g g
        · exact List.rel_of_pairwise_cons hsorted hg'
  refine ⟨hstands, fun h => ?_⟩
  cases hchosen : (ofOptions base defaultName given).choose (candidates (t.entries directory) wanted) with
  | none => exact absurd ((hmem f).2 h.variant) (by rw [choose_eq_none.1 hchosen]; exact List.not_mem_nil)
  | some c => rw [h.unique (hstands hchosen)]

/-- A directory has no file where there is no directory. -/
theorem Variant.isDirectory (hsound : t.Sound) (h : Variant t directory wanted f) : t.IsDirectory directory := by
  obtain ⟨bytes, mtime, hfile⟩ := h.file
  exact hsound.isDirectory hfile (List.cons_ne_nil f [])

/-- What a search for a stem comes to: the file that stands for it, and if there is none, that the document is missing. -/
structure Answers (t : Tree) (given : Option String) (directory : Path) (wanted name : String)
    (result : Except Failure Path) : Prop where
  found : ∀ p, result = .ok p ↔ ∃ f, Stands t given directory wanted f ∧ p = directory ++ [f]
  absent : result = .error (missing name) ↔ ¬ ∃ f, Variant t directory wanted f

section plain

variable {base below : Path} {defaultName : String} {given : Option String}

theorem answers_missing (h : ¬ ∃ f, Variant t directory wanted f) (name : String) :
    Answers t given directory wanted name (.error (missing name)) := by
  refine ⟨fun p => iff_of_false (by simp) ?_, iff_of_true rfl h⟩
  rintro ⟨f, hf, -⟩
  exact h ⟨f, hf.variant⟩

theorem answers_ok (h : Stands t given directory wanted f) (name : String) :
    Answers t given directory wanted name (.ok (directory ++ [f])) := by
  refine ⟨fun p => ⟨?_, ?_⟩, iff_of_false (by simp) fun hnone => hnone ⟨f, h.variant⟩⟩
  · rintro ⟨⟩
    exact ⟨f, h, rfl⟩
  · rintro ⟨g, hg, rfl⟩
    rw [h.unique hg]

/-- Where the tree has no links, the file that is found is the one that stands for the stem. -/
theorem findVariant_of_plain (base : Path) (defaultName : String) (given : Option String) (hsound : t.Sound) (hplain : t.Plain)
    (hnames : ∀ c ∈ directory, IsName c) (hread : ∀ reason, t.status directory ≠ .failed reason) (wanted name : String) :
    Answers t given directory wanted name ((ofOptions base defaultName given).findVariant t directory wanted name) := by
  have hempty (hdirectory : ¬ t.IsDirectory directory) : ¬ ∃ f, Variant t directory wanted f := by
    rintro ⟨f, hf⟩
    exact hdirectory (hf.isDirectory hsound)
  rcases Tree.status_cases hsound hplain hnames hread with
    ⟨bytes, mtime, hnode, hstatus⟩ | ⟨-, mtime, hstatus⟩ | ⟨hnode, hne, hstatus⟩
  · rw [findVariant, Tree.list, hstatus]
    exact answers_missing (hempty (Tree.IsFile.not_isDirectory ⟨bytes, mtime, hnode⟩ hsound)) name
  · rw [findVariant, Tree.list_of_directory hstatus]
    dsimp only
    cases hchosen : (ofOptions base defaultName given).choose (candidates (t.entries directory) wanted) with
    | none =>
        refine answers_missing ?_ name
        rintro ⟨f, ⟨bytes, time, hfile⟩, hstem⟩
        have hcandidate := mem_candidates.2 ⟨⟨bytes, time, Tree.mem_entries_iff.2 hfile⟩, hstem⟩
        rw [choose_eq_none.1 hchosen] at hcandidate
        cases hcandidate
    | some f => exact answers_ok ((choose_iff_stands given directory wanted f base defaultName).1 hchosen) name
  · rw [findVariant, Tree.list, hstatus]
    exact answers_missing (hempty (Tree.not_isDirectory_of_none hnode hne)) name

/-- The directory and the stem that stand for a path: a directory has its default document. -/
def sought (t : Tree) (defaultName : String) (p : Path) : Path × String :=
  if t.IsDirectory p then (p, defaultName) else (p.dropLast, (p.getLast?).getD "")

end plain

/-- The base directory has one file, with two dots in its name. -/
def archive : Tree where
  origin := "/work"
  nodes := .ofList [(["base"], .directory none), (["base", "x.tar.gz"], .file [] 1)]

theorem sound_archive : archive.Sound := by decide +kernel

theorem plain_archive : archive.Plain := by decide +kernel

end Naming

end ScriptedText.Files
