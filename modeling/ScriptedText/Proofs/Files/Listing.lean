import Mathlib.Data.List.Nodup
import Mathlib.Data.List.Perm.Subperm
import ScriptedText.Proofs.Files.Variants

/-!
What a listing of documents names: every file below the base directory whose path has no hidden part, once. The name of such
a file comes to the file, and what it may come to otherwise has a longer name.
-/

namespace ScriptedText.Files

/-- A file below a directory, and no name on the way to it that starts with a dot. -/
structure Tree.Visible (t : Tree) (real below : Path) : Prop where
  ne_nil : below ≠ []
  file : t.IsFile (real ++ below)
  shown : ∀ c ∈ below, Text.startsWith c "." = false

/-- Parts that are told one after the other, without failure, tell everything once if each does and no two tell the same. -/
theorem exists_mapM_eq_ok {α β ε : Type} {f : α → Except ε (List β)} {g : Path → β} {P : α → Path → Prop} {l : List α}
    (h : ∀ x ∈ l, ∃ bs : List Path, f x = .ok (bs.map g) ∧ bs.Nodup ∧ ∀ b, b ∈ bs ↔ P x b)
    (hapart : l.Pairwise fun x y => ∀ b, P x b → ¬ P y b) :
    ∃ (lists : List (List β)) (bs : List Path), l.mapM f = .ok lists ∧ lists.flatten = bs.map g ∧ bs.Nodup ∧
      ∀ b, b ∈ bs ↔ ∃ x ∈ l, P x b := by
  induction l with
  | nil => exact ⟨[], [], rfl, rfl, List.nodup_nil, fun b => by simp⟩
  | cons x l ih =>
      obtain ⟨hx, hl⟩ := List.forall_mem_cons.1 h
      obtain ⟨hapartx, hapart⟩ := List.pairwise_cons.1 hapart
      obtain ⟨first, hfirst, hnodup, hmem⟩ := hx
      obtain ⟨lists, rest, hlists, hflatten, hnodup', hmem'⟩ := ih hl hapart
      refine ⟨first.map g :: lists, first ++ rest, ?_, ?_, ?_, fun b => ?_⟩
      · rw [List.mapM_cons, hfirst, hlists]
        rfl
      · rw [List.flatten_cons, hflatten, List.map_append]
      · refine List.nodup_append.2 ⟨hnodup, hnodup', ?_⟩
        rintro b hb _ hb' rfl
        obtain ⟨y, hy, hyb⟩ := (hmem' b).1 hb'
        exact hapartx y hy b ((hmem b).1 hb) hyb
      · rw [List.mem_append, hmem, hmem']
        simp

namespace Tree

variable {t : Tree} {directory real below : Path} {mtime : Option Int} {n : Node} {c : String}

/-- A path is no longer than there are nodes on the way to it. -/
theorem Sound.length_le (h : t.Sound) {p : Path} (hn : t.nodes.get? p = some n) : p.length ≤ t.nodes.size := by
  have hnodup : ((List.range p.length).map fun i => p.take (i + 1)).Nodup := by
    refine List.Nodup.map_on ?_ List.nodup_range
    intro i hi j hj heq
    have hlength := congrArg List.length heq
    rw [List.mem_range] at hi hj
    rw [List.length_take, List.length_take] at hlength
    omega
  have hkeys : (List.range p.length).map (fun i => p.take (i + 1)) ⊆ t.nodes.entries.map Prod.fst := by
    intro q hq
    obtain ⟨i, hi, rfl⟩ := List.mem_map.1 hq
    rw [List.mem_range] at hi
    have hnode : ∃ n, t.nodes.get? (p.take (i + 1)) = some n := by
      by_cases hlast : p.length ≤ i + 1
      · exact ⟨n, by rwa [List.take_of_length_le hlast]⟩
      · have hsplit : t.nodes.get? (p.take (i + 1) ++ p.drop (i + 1)) = some n := by rwa [List.take_append_drop]
        rcases h.isDirectory hsplit (by simpa using Nat.lt_of_not_le hlast) with hnil | ⟨mtime, hdirectory⟩
        · have hlength := congrArg List.length hnil
          rw [List.length_take, List.length_nil] at hlength
          omega
        · exact ⟨_, hdirectory⟩
    obtain ⟨n, hnode⟩ := hnode
    exact List.mem_map.2 ⟨_, OrderedMap.mem_entries_of_get? hnode, rfl⟩
  have hlength := (hnodup.subperm hkeys).length_le
  simpa [OrderedMap.size] using hlength

/-- What is below a directory is found there, if its path is not too long. -/
theorem status_of_node {s : Status} (hsound : t.Sound) (hdirectory : t.status directory = .directory real mtime)
    (hn : t.nodes.get? (real ++ below) = some n) (hne : below ≠ [])
    (hshort : byteLength (t.spell (directory ++ below)) ≤ pathLimit) (hs : n.status? (real ++ below) = some s) :
    t.status (directory ++ below) = s := by
  have hinside : directory ≠ [] ∨ below.head? ≠ some ".." := by
    refine .inr fun hhead => ?_
    exact (hsound.names hn ".." (List.mem_append_right _ (List.mem_of_head? hhead))).1.ne_dots rfl
  have hgoes := goesOn_status hne hinside hshort
  rw [hdirectory] at hgoes
  generalize t.status (directory ++ below) = s' at hgoes
  cases hgoes with
  | directory links => exact walk_of_node hsound links hn hne hs

/-- The files that are visible behind one entry of a directory. -/
theorem Visible.head_cases (hsound : t.Sound) (h : t.Visible real below) :
    ∃ c n, (c, n) ∈ t.entries real ∧ Text.startsWith c "." = false ∧ below.head? = some c := by
  obtain ⟨hne, ⟨bytes, time, hfile⟩, hshown⟩ := h
  cases below with
  | nil => exact absurd rfl hne
  | cons c rest =>
      have hc := hshown c (List.mem_cons_self ..)
      cases rest with
      | nil => exact ⟨c, _, mem_entries_iff.2 hfile, hc, rfl⟩
      | cons d rest =>
          obtain ⟨mtime, hdirectory⟩ := hsound.exists_directory hfile (List.cons_ne_nil d rest)
          exact ⟨c, _, mem_entries_iff.2 hdirectory, hc, rfl⟩

theorem visible_of_file {bytes : List UInt8} {time : Int} (hsound : t.Sound)
    (hn : t.nodes.get? (real ++ [c]) = some (.file bytes time)) (hc : Text.startsWith c "." = false) :
    t.Visible real below ∧ below.head? = some c ↔ below = [c] := by
  constructor
  · rintro ⟨⟨-, ⟨bytes', time', hfile⟩, -⟩, hhead⟩
    obtain ⟨rest, rfl⟩ := List.head?_eq_some_iff.1 hhead
    cases rest with
    | nil => rfl
    | cons d rest =>
        obtain ⟨mtime, hdirectory⟩ := hsound.exists_directory hfile (List.cons_ne_nil d rest)
        cases hn.symm.trans hdirectory
  · rintro rfl
    exact ⟨⟨List.cons_ne_nil c [], ⟨bytes, time, hn⟩, List.forall_mem_singleton.2 hc⟩, rfl⟩

theorem visible_of_directory (hn : t.nodes.get? (real ++ [c]) = some (.directory mtime))
    (hc : Text.startsWith c "." = false) :
    t.Visible real below ∧ below.head? = some c ↔ ∃ rest, below = c :: rest ∧ t.Visible (real ++ [c]) rest := by
  constructor
  · rintro ⟨⟨-, ⟨bytes, time, hfile⟩, hshown⟩, hhead⟩
    obtain ⟨rest, rfl⟩ := List.head?_eq_some_iff.1 hhead
    refine ⟨rest, rfl, ?_, ⟨bytes, time, by simpa using hfile⟩, (List.forall_mem_cons.1 hshown).2⟩
    rintro rfl
    cases hn.symm.trans hfile
  · rintro ⟨rest, rfl, hne, ⟨bytes, time, hfile⟩, hshown⟩
    exact ⟨⟨List.cons_ne_nil c rest, ⟨bytes, time, by simpa using hfile⟩, List.forall_mem_cons.2 ⟨hc, hshown⟩⟩, rfl⟩

theorem not_visible_of_link {target : String} (hsound : t.Sound) (hn : t.nodes.get? (real ++ [c]) = some (.link target)) :
    ¬ (t.Visible real below ∧ below.head? = some c) := by
  rintro ⟨⟨-, ⟨bytes, time, hfile⟩, -⟩, hhead⟩
  obtain ⟨rest, rfl⟩ := List.head?_eq_some_iff.1 hhead
  cases rest with
  | nil => cases hn.symm.trans hfile
  | cons d rest =>
      obtain ⟨mtime, hdirectory⟩ := hsound.exists_directory hfile (List.cons_ne_nil d rest)
      cases hn.symm.trans hdirectory

end Tree

namespace Naming

open Files.Tree

variable {n : Naming} {t : Tree} {directory real : Path} {mtime : Option Int}

theorem written_cons {c : String} {p : Path} (hne : p ≠ []) : Path.written (c :: p) = c ++ "/" ++ p.written := by
  cases p with
  | nil => exact absurd rfl hne
  | cons d p =>
      apply String.toList_inj.1
      simp [Path.written, String.toList_intercalate, List.intercalate]

/-- A directory is listed entry by entry, each entry once and none that is hidden. -/
theorem exists_listNames_succ (depth : Nat) (above : String) (hdirectory : t.status directory = .directory real mtime) :
    ∃ (entries : List (String × Node)) (listEntry : String × Node → Except Failure (List String)),
      listNames t (depth + 1) directory above = entries.mapM listEntry >>= (fun lists => pure lists.flatten) ∧
      (∀ c node, (c, node) ∈ entries ↔ t.nodes.get? (real ++ [c]) = some node ∧ Text.startsWith c "." = false) ∧
      (entries.Pairwise fun e e' => e.1 ≠ e'.1) ∧
      (∀ c bytes time, listEntry (c, .file bytes time) = .ok [above ++ c]) ∧
      (∀ c target, listEntry (c, .link target) = .ok []) ∧
      ∀ c time, listEntry (c, .directory time) = listNames t depth (directory ++ [c]) (above ++ c ++ "/") := by
  rw [listNames, list_of_directory hdirectory]
  refine ⟨_, _, rfl, fun c node => ?_, ?_, fun _ _ _ => rfl, fun _ _ => rfl, fun _ _ => rfl⟩
  · rw [List.mem_mergeSort, List.mem_filter, mem_entries_iff, Bool.not_eq_true']
  · have hperm := List.mergeSort_perm ((t.entries real).filter fun e => !Text.startsWith e.1 ".")
      (fun a b => collatesLe a.1 b.1)
    exact hperm.symm.pairwise ((nodup_entries t real).filter _) Ne.symm

/-- A directory is listed to the end, if no path in it is too long. By induction on how deep it is. -/
theorem exists_listNames (hsound : t.Sound) (above : String) {depth : Nat}
    (hdirectory : t.status directory = .directory real mtime)
    (hdeep : ∀ below n, t.nodes.get? (real ++ below) = some n → below.length ≤ depth)
    (hshort : ∀ below n, t.nodes.get? (real ++ below) = some n → byteLength (t.spell (directory ++ below)) ≤ pathLimit) :
    ∃ bs : List Path, listNames t depth directory above = .ok (bs.map fun b => above ++ b.written) ∧ bs.Nodup ∧
      ∀ b, b ∈ bs ↔ t.Visible real b := by
  induction depth generalizing directory real mtime above with
  | zero =>
      refine ⟨[], rfl, List.nodup_nil, fun b => iff_of_false List.not_mem_nil ?_⟩
      rintro ⟨hne, ⟨bytes, time, hfile⟩, -⟩
      exact hne (List.length_eq_zero_iff.1 (Nat.le_zero.1 (hdeep b _ hfile)))
  | succ depth ih =>
      obtain ⟨entries, listEntry, hlisting, hmem, hpairwise, hfile, hlink, hinside⟩ :=
        exists_listNames_succ depth above hdirectory
      rw [hlisting]
      have hparts : ∀ e ∈ entries, ∃ bs : List Path, listEntry e = .ok (bs.map fun b => above ++ b.written) ∧ bs.Nodup ∧
          ∀ b, b ∈ bs ↔ t.Visible real b ∧ b.head? = some e.1 := by
        rintro ⟨c, node⟩ hentry
        obtain ⟨hn, hc⟩ := (hmem c node).1 hentry
        cases node with
        | file bytes time =>
            refine ⟨[[c]], ?_, List.nodup_singleton _, fun b => ?_⟩
            · rw [hfile, List.map_singleton, Path.written, String.intercalate_singleton]
            · rw [List.mem_singleton, visible_of_file hsound hn hc]
        | link target =>
            exact ⟨[], hlink c target, List.nodup_nil, fun b => iff_of_false List.not_mem_nil (not_visible_of_link hsound hn)⟩
        | directory time =>
            have hinner := status_of_node hsound hdirectory hn (List.cons_ne_nil c []) (hshort [c] _ hn) rfl
            obtain ⟨bs, hbs, hnodup, hmem⟩ := ih (above ++ c ++ "/") hinner
              (fun below n hn => Nat.le_of_succ_le_succ (hdeep (c :: below) n (by simpa using hn)))
              (fun below n hn => by simpa using hshort (c :: below) n (by simpa using hn))
            refine ⟨bs.map (c :: ·), ?_, hnodup.map fun _ _ h => (List.cons.inj h).2, fun b => ?_⟩
            · rw [hinside, hbs, List.map_map]
              refine congrArg Except.ok (List.map_congr_left fun b hb => ?_)
              rw [Function.comp_apply, written_cons ((hmem b).1 hb).ne_nil]
              simp only [String.append_assoc]
            · rw [visible_of_directory hn hc, List.mem_map]
              simp only [hmem, and_comm, eq_comm]
      have hapart : entries.Pairwise fun e e' => ∀ b : Path,
          t.Visible real b ∧ b.head? = some e.1 → ¬ (t.Visible real b ∧ b.head? = some e'.1) :=
        hpairwise.imp fun hne b hb hb' => hne (Option.some.inj (hb.2.symm.trans hb'.2))
      obtain ⟨lists, bs, hlists, hflatten, hnodup, hbs⟩ := exists_mapM_eq_ok hparts hapart
      refine ⟨bs, ?_, hnodup, fun b => (hbs b).trans ⟨?_, fun hb => ?_⟩⟩
      · exact (congrArg (fun x => x >>= fun lists => pure lists.flatten) hlists).trans (congrArg Except.ok hflatten)
      · rintro ⟨e, -, hb, -⟩
        exact hb
      · obtain ⟨c, node, hentry, hc, hhead⟩ := hb.head_cases hsound
        exact ⟨(c, node), (hmem c node).2 ⟨mem_entries_iff.1 hentry, hc⟩, hb, hhead⟩

/-- The names of documents are those of the files that are visible in the base directory. -/
theorem exists_allNames (hsound : t.Sound) (hbase : t.status n.base = .directory real mtime)
    (hshort : ∀ below n', t.nodes.get? (real ++ below) = some n' → byteLength (t.spell (n.base ++ below)) ≤ pathLimit) :
    ∃ bs : List Path, n.allNames t = .ok (bs.map Path.written) ∧ bs.Nodup ∧ ∀ b, b ∈ bs ↔ t.Visible real b := by
  have hdeep (below : Path) (n' : Node) (hn : t.nodes.get? (real ++ below) = some n') : below.length ≤ t.nodes.size + 1 := by
    have hlength := hsound.length_le hn
    rw [List.length_append] at hlength
    omega
  obtain ⟨bs, hbs, hnodup, hmem⟩ := exists_listNames hsound "" hbase hdeep hshort
  refine ⟨bs, hbs.trans (congrArg Except.ok (List.map_congr_left fun b _ => ?_)), hnodup, hmem⟩
  exact String.empty_append

/-! What the name of a file comes to. -/

variable {b p : Path}

theorem relativeName_written {c : String} {rest : Path} (hc : IsName c) (hslash : Text.startsWith c "\\" = false) :
    relativeName (Path.written (c :: rest)) = Path.written (c :: rest) := by
  obtain ⟨x, cs, hcs⟩ : ∃ x cs, c.toList = x :: cs := by
    cases hcs : c.toList with
    | nil => exact absurd (String.toList_inj.1 hcs) hc.ne_empty
    | cons x cs => exact ⟨x, cs, rfl⟩
  have hx : isSlash x = false := by
    have hfore : x ≠ '/' := by
      rintro rfl
      exact hc.no_slash (by simp [hcs])
    have hback : x ≠ '\\' := by
      rintro rfl
      have hstarts : Text.startsWith c "\\" = true := by
        unfold Text.startsWith
        rw [hcs]
        rfl
      cases hslash.symm.trans hstarts
    simp [isSlash, hfore, hback]
  have hwritten : ∃ more, (Path.written (c :: rest)).toList = x :: more := by
    cases rest with
    | nil => exact ⟨cs, by simpa [Path.written] using hcs⟩
    | cons d rest =>
        rw [written_cons (List.cons_ne_nil d rest), String.toList_append, String.toList_append, hcs]
        exact ⟨_, rfl⟩
  obtain ⟨more, hmore⟩ := hwritten
  unfold relativeName
  rw [hmore, List.dropWhile_cons_of_neg (by simp [hx]), ← hmore, String.ofList_toList]

theorem resolve_relativeName (hne : b ≠ []) (hnames : ∀ c ∈ b, IsName c)
    (hslash : ∀ c ∈ b.head?, Text.startsWith c "\\" = false) (base : Path) :
    base.resolve (relativeName b.written) = base ++ b := by
  cases b with
  | nil => exact absurd rfl hne
  | cons c rest =>
      rw [relativeName_written (hnames c (List.mem_cons_self ..)) (hslash c rfl), Path.resolve_written _ hne hnames]

theorem startsWith_dots {c : String} (h : Text.startsWith c "." = false) : Text.startsWith c ".." = false := by
  cases hdots : Text.startsWith c ".." with
  | false => rfl
  | true =>
      have hprefix := List.isPrefixOf_iff_prefix.1 hdots
      have hdot : ".".toList <+: c.toList := List.IsPrefix.trans ⟨['.'], rfl⟩ hprefix
      exact (List.isPrefixOf_iff_prefix.2 hdot).symm.trans h

/-- The name of a visible file comes to the file. -/
theorem fileOf_written (hsound : t.Sound) (hbase : t.status n.base = .directory real mtime) (hb : t.Visible real b)
    (hshort : byteLength (t.spell (n.base ++ b)) ≤ pathLimit) (hslash : ∀ c ∈ b.head?, Text.startsWith c "\\" = false) :
    n.fileOf t b.written = .ok (n.base ++ b) ∧ ∃ real bytes mtime, t.status (n.base ++ b) = .file real bytes mtime := by
  obtain ⟨hne, ⟨bytes, time, hfile⟩, hshown⟩ := hb
  have hnames : ∀ c ∈ b, IsName c := fun c hc => (hsound.names hfile c (List.mem_append_right _ hc)).1
  have hpath := resolve_relativeName hne hnames hslash n.base
  have hbelow : Path.below? n.base (n.base ++ b) = some b :=
    Path.below?_eq_some.2 ⟨rfl, fun c hc => startsWith_dots (hshown c (List.mem_of_head? hc))⟩
  have hstatus := status_of_node hsound hbase hfile hne hshort rfl
  refine ⟨?_, _, _, _, hstatus⟩
  simp [fileOf, hpath, hbelow, hstatus]

/-- How long a path is, by its names. -/
def weight : Path → Nat
  | [] => 0
  | c :: p => c.length + 1 + weight p

theorem weight_append (p q : Path) : weight (p ++ q) = weight p + weight q := by
  induction p with
  | nil => exact (Nat.zero_add _).symm
  | cons c p ih =>
      rw [List.cons_append, weight, weight, ih]
      omega

/-- What the name of a file comes to in whatever tree is that file, or something with a longer name. -/
theorem weight_lt_of_fileOf (hne : b ≠ []) (hnames : ∀ c ∈ b, IsName c)
    (hslash : ∀ c ∈ b.head?, Text.startsWith c "\\" = false) (h : n.fileOf t b.written = .ok p) :
    ∃ b', p = n.base ++ b' ∧ (b' = b ∨ weight b < weight b') := by
  obtain ⟨below, hbelow, hfinds⟩ := finds_of_fileOf h
  have hpath := (Path.below?_eq_some.1 hbelow).1
  rw [resolve_relativeName hne hnames hslash] at hpath
  cases List.append_cancel_left hpath
  cases hfinds with
  | file => exact ⟨b, rfl, .inl rfl⟩
  | @default _ _ f =>
      refine ⟨b ++ [f], List.append_assoc _ _ _, .inr ?_⟩
      rw [weight_append, weight]
      omega
  | @variant f _ _ hstem =>
      rcases List.eq_nil_or_concat b with rfl | ⟨above, c, rfl⟩
      · exact absurd rfl hne
      · rw [List.concat_eq_append] at hstem ⊢
        rw [← List.append_assoc, List.dropLast_concat]
        rw [← List.append_assoc, List.getLast?_concat, Option.getD_some] at hstem
        refine ⟨above ++ [f], List.append_assoc _ _ _, ?_⟩
        have hsplit := stem_append_extension f
        rw [hstem] at hsplit
        by_cases hnone : extension f = ""
        · rw [hnone, String.append_empty] at hsplit
          exact .inl (by rw [hsplit])
        · refine .inr ?_
          have hlength : f.length = c.length + (extension f).length := by rw [← hsplit, String.length_append, hsplit]
          have hpos : 0 < (extension f).length := Nat.pos_of_ne_zero fun h => hnone (String.length_eq_zero_iff.1 h)
          simp only [weight_append, weight]
          omega

end Naming

end ScriptedText.Files
