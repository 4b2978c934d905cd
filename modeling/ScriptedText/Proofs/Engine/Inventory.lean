import Mathlib.Tactic.Choose
import ScriptedText.Proofs.Engine.Serving
import ScriptedText.Proofs.Files.Listing

/-!
All documents of a source of files. They are looked up one after the other under the names of the files, and a name may still
be kept with a document of another file, from a time when it was only a stem. Then its own file is missing.
-/

namespace ScriptedText

open Relation

/-- The files are those that are visible in the base directory, each of them once. -/
def Files.Tree.Covers (t : Files.Tree) (base real : Files.Path) (files : List (Option Files.Path)) : Prop :=
  ∃ ps : List Files.Path, files = ps.map some ∧ ps.Nodup ∧ ∀ p, p ∈ ps ↔ ∃ b, t.Visible real b ∧ p = base ++ b

namespace World

variable {w w' : World} {s : SourceId} {naming : Files.Naming} {names : List String} {found : List DocumentId} {id : TaskId}
  {o : Outcome} {real : Files.Path} {mtime : Option Int}

/-- What has happened to a source of files that was empty: documents were looked up, one of them or all, anything was done to
the files, and time went by. -/
inductive Browsed (s : SourceId) (naming : Files.Naming) : World → Prop
  | start {w : World} {interval : Int} (hstorage : (w.source s).storage = .files naming interval) (hempty : w.Empty s) :
      Browsed s naming w
  | files {w : World} (h : Browsed s naming w) (t : Files.Tree) : Browsed s naming (w.serve (.files t))
  | tick {w : World} (h : Browsed s naming w) (now : Int) : Browsed s naming { w with clock := now }
  | lookup {w w' : World} (h : Browsed s naming w) {id : TaskId} {name : String} {o : Outcome}
      (hends : Task.Ends id w ⟨[], .call (.getDocument s name)⟩ w' o) : Browsed s naming w'
  | list {w w' : World} (h : Browsed s naming w) {id : TaskId} {o : Outcome}
      (hends : Task.Ends id w ⟨[], .call (.getDocuments s)⟩ w' o) : Browsed s naming w'

theorem Catalogued.collect (h : w.Catalogued s naming) (hends : (Move.collect w s names found).Ends id w' o) :
    w'.Catalogued s naming := by
  induction names generalizing w found with
  | nil =>
      obtain ⟨rfl, -⟩ := Move.ends_settle.1 hends
      exact h
  | cons name rest ih =>
      obtain ⟨w₁, o₁, hlookup, hrest⟩ := Move.ends_call.1 hends
      rcases (lookup_of_ends hlookup).outcome with ⟨f, rfl⟩ | ⟨d, rfl, -⟩
      · obtain ⟨rfl, -⟩ := Move.ends_settle.1 hrest
        exact h.lookup hlookup
      · exact ih (h.lookup hlookup) hrest

theorem Catalogued.list (h : w.Catalogued s naming) (hends : Task.Ends id w ⟨[], .call (.getDocuments s)⟩ w' o) :
    w'.Catalogued s naming := by
  obtain ⟨interval, hstorage⟩ := h.storage
  have hbegin : (Move.getDocuments w s).Ends id w' o := Task.ends_call.1 hends
  unfold Move.getDocuments at hbegin
  rw [hstorage] at hbegin
  have hlisting : (Move.afterListing w s).Ends id w' o := Task.ends_frame.1 hbegin
  unfold Move.afterListing at hlisting
  rw [hstorage] at hlisting
  dsimp only at hlisting
  split at hlisting
  · obtain ⟨rfl, -⟩ := Move.ends_settle.1 hlisting
    exact h
  · exact h.collect hlisting

theorem Browsed.catalogued (h : w.Browsed s naming) : w.Catalogued s naming := by
  induction h with
  | start hstorage hempty => exact .of_empty hstorage hempty
  | files _ t ih => exact ⟨ih.storage, ih.matched.serve (.files t), ih.alone, ih.named⟩
  | tick _ now ih => exact ⟨ih.storage, ih.matched.of_ages (.of_eq rfl rfl) rfl, ih.alone, ih.named⟩
  | lookup _ hends ih => exact ih.lookup hends
  | list _ hends ih => exact ih.list hends

/-- Documents are looked up one after the other: of the files that the source has for the names from the beginning. -/
theorem ends_collect (h : w.Catalogued s naming) (hnodup : names.Nodup) {file : String → Files.Path}
    (hprovides : ∀ name ∈ names, w.Provides s naming name (file name)) (found : List DocumentId) (id : TaskId) :
    ∃ w' ds, (Move.collect w s names found).Ends id w' (.ok (.documents (found ++ ds))) ∧
      (∀ d, d.index < w.documents.length → (w'.document d).file = (w.document d).file) ∧
      ds.map (fun d => (w'.document d).file) = names.map fun name => some (file name) := by
  induction names generalizing w found with
  | nil =>
      refine ⟨w, [], Move.ends_settle.2 ⟨rfl, ?_⟩, fun _ _ => rfl, rfl⟩
      rw [List.append_nil]
  | cons name rest ih =>
      obtain ⟨hname, hrest⟩ := List.forall_mem_cons.1 hprovides
      obtain ⟨hnew, hnodup⟩ := List.nodup_cons.1 hnodup
      obtain ⟨w₁, d, hbrings⟩ := brings_getDocument h hname id
      have hends : Task.Ends id w ⟨[], .call (.getDocument s name)⟩ w₁ (.ok (.document d)) := Task.ends_call.2 hbrings.ends
      obtain ⟨w', ds, hcollect, hfile, hfiles⟩ := ih (h.lookup hends) hnodup
        (fun other hother => (hrest other hother).of_sparesOthers hbrings.spares h.matched fun heq => hnew (heq ▸ hother))
        (found ++ [d])
      refine ⟨w', d :: ds, ?_, fun x hx => ?_, ?_⟩
      · rw [List.append_assoc, List.singleton_append] at hcollect
        exact (Move.ends_call_of_ends hends).2 hcollect
      · exact (hfile x (Nat.lt_of_lt_of_le hx hbrings.spares.documents)).trans (hbrings.spares.file x hx)
      · rw [List.map_cons, List.map_cons, hfiles, hfile d (lt_of_file (Option.isSome_of_eq_some hbrings.file)), hbrings.file]

/-- The file that the source has for a name is one that the name has come to in some tree. -/
theorem Catalogued.exists_fileOf {name : String} {p : Files.Path} (h : w.Catalogued s naming)
    (hprovides : w.Provides s naming name p) : ∃ t, naming.fileOf t name = .ok p := by
  cases hprovides with
  | @kept d _ hd _ hfile =>
      obtain ⟨t, file, hfile', hresolved⟩ := h.named name d hd
      cases hfile.symm.trans hfile'
      exact ⟨t, hresolved⟩
  | found _ hfile _ => exact ⟨w.tree, hfile⟩

section listing

variable (h : w.Catalogued s naming) (hsound : w.tree.Sound)
  (hbase : w.tree.status naming.base = .directory real mtime)
  (hshort : ∀ below n, w.tree.nodes.get? (real ++ below) = some n →
    Files.Tree.byteLength (w.tree.spell (naming.base ++ below)) ≤ Files.Tree.pathLimit)
  (hslash : ∀ b, w.tree.Visible real b → ∀ c ∈ b.head?, Text.startsWith c "\\" = false)

theorem nodup_written {bs : List Files.Path} (hsound : w.tree.Sound) (hnodup : bs.Nodup)
    (hmem : ∀ b ∈ bs, w.tree.Visible real b) : (bs.map Files.Path.written).Nodup := by
  have hback (b : Files.Path) (hb : b ∈ bs) : Files.components b.written = b := by
    obtain ⟨hne, ⟨bytes, time, hfile⟩, -⟩ := hmem b hb
    exact Files.Path.components_written hne fun c hc => (hsound.names hfile c (List.mem_append_right _ hc)).1.no_slash
  refine List.Nodup.map_on (fun b hb b' hb' heq => ?_) hnodup
  rw [← hback b hb, ← hback b' hb', heq]

include h hsound hbase hshort hslash

/-- The source has a file for the name of every visible file: its own, unless the name is kept with another document. -/
theorem provides_of_visible {b : Files.Path} (hb : w.tree.Visible real b) :
    (∃ p, w.Provides s naming b.written p) ∧
      (w.Provides s naming b.written (naming.base ++ b) ↔ ∀ d, w.cached? s b.written = some d → ¬ w.Fails d →
        (w.document d).file = some (naming.base ++ b)) := by
  obtain ⟨bytes, time, hfile⟩ := hb.file
  obtain ⟨hresolved, path, bytes, time, hstatus⟩ :=
    Files.Naming.fileOf_written (n := naming) hsound hbase hb (hshort b _ hfile) (hslash b hb)
  by_cases hkept : ∃ d, w.cached? s b.written = some d ∧ ¬ w.Fails d
  · obtain ⟨d, hd, hgood⟩ := hkept
    obtain ⟨t, file, hdfile, -⟩ := h.named b.written d hd
    have hprovides : w.Provides s naming b.written file := .kept hd hgood hdfile
    refine ⟨⟨file, hprovides⟩, fun hown d' hd' _ => ?_, fun hall => .kept hd hgood (hall d hd hgood)⟩
    cases hd.symm.trans hd'
    rw [hown.unique hprovides, hdfile]
  · have hfails (d : DocumentId) (hd : w.cached? s b.written = some d) : w.Fails d :=
      Classical.byContradiction fun hgood => hkept ⟨d, hd, hgood⟩
    have hown : w.Provides s naming b.written (naming.base ++ b) := .found hfails hresolved hstatus
    exact ⟨⟨_, hown⟩, iff_of_true hown fun d hd hgood => absurd (hfails d hd) hgood⟩

omit hbase hshort in
/-- If every visible file is given under some name, it is given under its own: under another one a file is given that has a
longer name, so the shortest that were not given would be missing. -/
theorem provides_own {file : String → Files.Path}
    (hfile : ∀ b, w.tree.Visible real b → w.Provides s naming b.written (file b.written))
    (hall : ∀ b, w.tree.Visible real b → ∃ b', w.tree.Visible real b' ∧ file b'.written = naming.base ++ b)
    {b : Files.Path} (hb : w.tree.Visible real b) : file b.written = naming.base ++ b := by
  generalize hweight : Files.Naming.weight b = weight
  induction weight using Nat.strongRecOn generalizing b with
  | ind weight ih =>
      obtain ⟨b', hb', hgiven⟩ := hall b hb
      obtain ⟨t, hresolved⟩ := h.exists_fileOf (hfile b' hb')
      obtain ⟨bytes, time, hnode⟩ := hb'.file
      have hnames : ∀ c ∈ b', Files.IsName c := fun c hc => (hsound.names hnode c (List.mem_append_right _ hc)).1
      obtain ⟨b'', hsame, hown⟩ := Files.Naming.weight_lt_of_fileOf hb'.ne_nil hnames (hslash b' hb') hresolved
      cases List.append_cancel_left (hgiven.symm.trans hsame)
      rcases hown with rfl | hlonger
      · exact hgiven
      · have hother := ih _ (hweight ▸ hlonger) hb' rfl
        cases List.append_cancel_left (hgiven.symm.trans hother)
        exact hgiven

end listing

theorem covers_iff {t : Files.Tree} {base : Files.Path} {bs : List Files.Path} (file : Files.Path → Files.Path)
    (hnodup : bs.Nodup) (hmem : ∀ b, b ∈ bs ↔ t.Visible real b)
    (hown : (∀ b, t.Visible real b → ∃ b', t.Visible real b' ∧ file b' = base ++ b) →
      ∀ b, t.Visible real b → file b = base ++ b) :
    t.Covers base real (bs.map fun b => some (file b)) ↔ ∀ b, t.Visible real b → file b = base ++ b := by
  constructor
  · rintro ⟨ps, hps, -, hcovers⟩
    refine hown fun b hb => ?_
    have hin : some (base ++ b) ∈ ps.map some := List.mem_map_of_mem ((hcovers (base ++ b)).2 ⟨b, hb, rfl⟩)
    rw [← hps] at hin
    obtain ⟨b', hb', hsame⟩ := List.mem_map.1 hin
    exact ⟨b', (hmem b').1 hb', Option.some.inj hsame⟩
  · intro hall
    refine ⟨bs.map (base ++ ·), ?_, hnodup.map fun _ _ => List.append_cancel_left, fun p => ?_⟩
    · rw [List.map_map]
      exact List.map_congr_left fun b hb => congrArg some (hall b ((hmem b).1 hb))
    · rw [List.mem_map]
      simp only [hmem, eq_comm]

/-- All documents of a source of files, after any history: they are those of the files that are visible, each of them once,
just if no name of such a file is still kept with a sound document of another one. -/
theorem listing_is_complete_iff (h : w.Browsed s naming) (hsound : w.tree.Sound)
    (hbase : w.tree.status naming.base = .directory real mtime)
    (hshort : ∀ below n, w.tree.nodes.get? (real ++ below) = some n →
      Files.Tree.byteLength (w.tree.spell (naming.base ++ below)) ≤ Files.Tree.pathLimit)
    (hslash : ∀ b, w.tree.Visible real b → ∀ c ∈ b.head?, Text.startsWith c "\\" = false) (id : TaskId) :
    ∃ w' ds, Task.Ends id w ⟨[], .call (.getDocuments s)⟩ w' (.ok (.documents ds)) ∧
      (w.tree.Covers naming.base real (ds.map fun d => (w'.document d).file) ↔
        ∀ b d, w.tree.Visible real b → w.cached? s b.written = some d → ¬ w.Fails d →
          (w.document d).file = some (naming.base ++ b)) := by
  have hcatalogued := h.catalogued
  obtain ⟨interval, hstorage⟩ := hcatalogued.storage
  obtain ⟨bs, hbs, hnodup, hmem⟩ := Files.Naming.exists_allNames hsound hbase hshort
  have hprovides {b : Files.Path} (hb : w.tree.Visible real b) := provides_of_visible hcatalogued hsound hbase hshort hslash hb
  have hsome : ∀ name ∈ bs.map Files.Path.written, ∃ p, w.Provides s naming name p := by
    intro name hname
    obtain ⟨b, hb, rfl⟩ := List.mem_map.1 hname
    exact (hprovides ((hmem b).1 hb)).1
  choose! file hfile using hsome
  have hgiven {b : Files.Path} (hb : w.tree.Visible real b) : w.Provides s naming b.written (file b.written) :=
    hfile _ (List.mem_map_of_mem ((hmem b).2 hb))
  obtain ⟨w', ds, hcollect, -, hfiles⟩ :=
    ends_collect hcatalogued (nodup_written hsound hnodup fun b hb => (hmem b).1 hb) hfile [] id
  refine ⟨w', ds, Task.ends_call.2 ?_, ?_⟩
  · rw [Move.begin, Move.getDocuments, hstorage]
    refine Task.ends_frame.2 ?_
    change (Move.afterListing w s).Ends id w' _
    rw [Move.afterListing, hstorage]
    dsimp only
    rw [hbs]
    exact hcollect
  rw [hfiles, List.map_map]
  have hcovers := covers_iff (fun b => file b.written) hnodup hmem
    fun hall b hb => provides_own hcatalogued hsound hslash (fun b hb => hgiven hb) hall hb
  refine hcovers.trans ⟨fun hown b d hb => ?_, fun hown b hb => ?_⟩
  · exact (hprovides hb).2.1 (hown b hb ▸ hgiven hb) d
  · exact (hgiven hb).unique ((hprovides hb).2.2 fun d => hown b d hb)

end World

/-- There is one file, which `a` is the stem of. -/
def stemWorld : World where
  tree := { origin := "/work", nodes := .ofList [(["base"], .directory none), (["base", "a.txt"], .file [] 1)] }
  sources := [{ storage := .files { base := ["base"] } 1000 }]

/-- A file has come that is called `a` itself. -/
def joinedTree : Files.Tree where
  origin := "/work"
  nodes := .ofList [(["base"], .directory none), (["base", "a.txt"], .file [] 1), (["base", "a"], .file [] 2)]

def World.joined (w : World) : World :=
  { w.serve (.files joinedTree) with clock := 2000 }

namespace World

/-- When `a` was looked up before its file came, the listing goes without that file. -/
theorem listing_goes_without_joined : ∃ (w w' : World) (ds : List DocumentId),
    Browsed ⟨0⟩ { base := ["base"] } w ∧ w.tree.Visible ["base"] ["a"] ∧
      Task.Ends ⟨0⟩ w ⟨[], .call (.getDocuments ⟨0⟩)⟩ w' (.ok (.documents ds)) ∧
      ¬ w.tree.Covers ["base"] ["base"] (ds.map fun d => (w'.document d).file) := by
  have hlook : (Task.drive ⟨0⟩ 20 stemWorld ⟨[], .call (.getDocument ⟨0⟩ "a")⟩).any (fun x =>
      x.1.joined.cached? ⟨0⟩ "a" = some ⟨0⟩ && (x.1.joined.document ⟨0⟩).validity ≠ .invalid &&
        x.1.joined.isUnchanged ⟨0⟩ && (x.1.joined.document ⟨0⟩).file = some ["base", "a.txt"]) = true := by
    decide +kernel
  obtain ⟨⟨w, o⟩, hdrive, hlook⟩ := (Option.any_eq_true _ _).1 hlook
  simp only [Bool.and_eq_true, decide_eq_true_eq] at hlook
  obtain ⟨⟨⟨hcached, hvalid⟩, hunchanged⟩, hfile⟩ := hlook
  have hstart : Browsed ⟨0⟩ { base := ["base"] } stemWorld := .start rfl ⟨fun _ => rfl, fun _ => rfl⟩
  have hbrowsed : Browsed ⟨0⟩ { base := ["base"] } w.joined :=
    ((hstart.lookup (Task.ends_of_drive hdrive)).files joinedTree).tick 2000
  have hvisible : joinedTree.Visible ["base"] ["a"] := ⟨by decide, by decide +kernel, by decide⟩
  have hsound : joinedTree.Sound := by decide +kernel
  have hbase : joinedTree.status ["base"] = .directory ["base"] none := by decide +kernel
  have hshort (below : Files.Path) (n : Files.Node) (hn : joinedTree.nodes.get? (["base"] ++ below) = some n) :
      Files.Tree.byteLength (joinedTree.spell (["base"] ++ below)) ≤ Files.Tree.pathLimit := by
    have hall : ∀ e ∈ joinedTree.nodes.entries, Files.Tree.byteLength (joinedTree.spell e.1) ≤ Files.Tree.pathLimit := by
      decide +kernel
    exact hall (["base"] ++ below, n) (OrderedMap.mem_entries_of_get? hn)
  have hslash (b : Files.Path) (hb : joinedTree.Visible ["base"] b) : ∀ c ∈ b.head?, Text.startsWith c "\\" = false := by
    obtain ⟨bytes, time, hnode⟩ := hb.file
    have hall : ∀ e ∈ joinedTree.nodes.entries, ∀ c ∈ (e.1.drop 1).head?, Text.startsWith c "\\" = false := by decide +kernel
    exact hall (["base"] ++ b, _) (OrderedMap.mem_entries_of_get? hnode)
  obtain ⟨w', ds, hends, hiff⟩ := listing_is_complete_iff hbrowsed hsound hbase hshort hslash ⟨0⟩
  refine ⟨w.joined, w', ds, hbrowsed, hvisible, hends, fun hcovers => ?_⟩
  have hown := hiff.1 hcovers ["a"] ⟨0⟩ hvisible hcached (not_fails hvalid (.inr (.inr (.inr hunchanged))))
  rw [hfile] at hown
  exact absurd hown (by decide)

end World

end ScriptedText
