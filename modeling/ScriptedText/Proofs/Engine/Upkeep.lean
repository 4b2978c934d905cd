import ScriptedText.Proofs.Engine.Sprouting
import ScriptedText.Proofs.Engine.Validity

/-!
Documents with which nothing is wrong, and which only lead to such: what a source does with its documents keeps them so,
except for checks that find something wrong.
-/

namespace ScriptedText

open Relation

theorem Document.isInFlow_inFlowName (k : Nat) : isInFlow (inFlowName k) = true := by
  simp [isInFlow, inFlowName, Text.startsWith]

theorem Document.ne_inFlowName {name : String} (h : isInFlow name = false) (k : Nat) : name ≠ inFlowName k := by
  rintro rfl
  cases (isInFlow_inFlowName k).symm.trans h

namespace World

def Housed (s : SourceId) (w : World) (d : DocumentId) : Prop :=
  d.index < w.documents.length ∧ (w.document d).source = s

/-- Nothing is wrong with the document itself, nor will be found wrong with its file. -/
structure Sound (s : SourceId) (w : World) (d : DocumentId) : Prop where
  housed : w.Housed s d
  valid : (w.document d).validity ≠ .invalid
  unchanged : (w.source s).interval = -1 ∨ w.isUnchanged d = true

/-- All that the source keeps is its own, and the documents of a kind are sound and lead to each other only. -/
structure Upholds (s : SourceId) (P : DocumentId → Prop) (w : World) : Prop where
  kept : ∀ name d, w.cached? s name = some d → w.Housed s d
  untaken : w.Untaken s
  sound : ∀ d, P d → w.Sound s d
  closed : ∀ d x, P d → w.Leads d x → P x

def IsFiled (s : SourceId) (w : World) (name : String) (file : Files.Path) : Prop :=
  ∃ naming interval, (w.source s).storage = .files naming interval ∧ naming.fileOf w.tree name = .ok file

/-- The document that is there for the name, so that no other one is made for it. -/
inductive Denotes (s : SourceId) (w : World) (name : String) (d : DocumentId) : Prop
  | memory {identifier : String} (hstorage : (w.source s).storage = .memory identifier) (h : w.cached? s name = some d)
  | files {file : Files.Path} (hfile : w.IsFiled s name file) (h : (w.source s).byFile.get? file = some d)

/-- The names denote the same document, whichever that is. -/
def Same (s : SourceId) (w : World) (name name' : String) : Prop :=
  name = name' ∨ ∃ file, w.IsFiled s name file ∧ w.IsFiled s name' file

variable {w w' : World} {s : SourceId} {name name' text tag : String} {d d' x : DocumentId} {P A : DocumentId → Prop}

theorem IsFiled.unique {file file' : Files.Path} (h : w.IsFiled s name file) (h' : w.IsFiled s name file') :
    file = file' := by
  obtain ⟨naming, interval, hstorage, hfile⟩ := h
  obtain ⟨naming', interval', hstorage', hfile'⟩ := h'
  cases hstorage.symm.trans hstorage'
  cases hfile.symm.trans hfile'
  rfl

theorem IsFiled.of_eq {file : Files.Path} (h : w.IsFiled s name file) (htree : w'.tree = w.tree)
    (hstorage : (w'.source s).storage = (w.source s).storage) : w'.IsFiled s name file := by
  obtain ⟨naming, interval, hfiles, hfile⟩ := h
  exact ⟨naming, interval, hstorage.trans hfiles, htree ▸ hfile⟩

theorem IsFiled.not_memory {file : Files.Path} {identifier : String} (h : w.IsFiled s name file) :
    (w.source s).storage ≠ .memory identifier := by
  obtain ⟨naming, interval, hfiles, -⟩ := h
  exact fun hmemory => nomatch hmemory.symm.trans hfiles

theorem IsFiled.lt {file : Files.Path} (h : w.IsFiled s name file) : s.index < w.sources.length := by
  obtain ⟨naming, interval, hfiles, -⟩ := h
  apply Nat.lt_of_not_le
  intro hle
  rw [source_of_le hle] at hfiles
  cases hfiles

theorem Denotes.lt (h : w.Denotes s name d) : s.index < w.sources.length := by
  cases h with
  | files hfile _ => exact hfile.lt
  | memory _ h => exact lt_of_cached? h

theorem Denotes.unique (h : w.Denotes s name d) (h' : w.Denotes s name d') : d = d' := by
  cases h with
  | memory hstorage h =>
      cases h' with
      | memory _ h' => exact Option.some.inj (h.symm.trans h')
      | files hfile _ => exact absurd hstorage hfile.not_memory
  | files hfile h =>
      cases h' with
      | memory hstorage _ => exact absurd hstorage hfile.not_memory
      | files hfile' h' =>
          cases hfile.unique hfile'
          exact Option.some.inj (h.symm.trans h')

theorem Denotes.of_same (h : w.Denotes s name d) (hsame : w.Same s name name') : w.Denotes s name' d := by
  rcases hsame with rfl | ⟨file, hfile, hfile'⟩
  · exact h
  · cases h with
    | memory hstorage h => exact absurd hstorage hfile.not_memory
    | files hfile₁ h =>
        cases hfile.unique hfile₁
        exact .files hfile' h

theorem Denotes.of_eq (h : w.Denotes s name d) (htree : w'.tree = w.tree)
    (hstorage : (w'.source s).storage = (w.source s).storage)
    (hbyFile : ∀ file d, (w.source s).byFile.get? file = some d → (w'.source s).byFile.get? file = some d)
    (hcached : w.cached? s name = some d → w'.cached? s name = some d) : w'.Denotes s name d := by
  cases h with
  | memory hmemory h => exact .memory (hstorage.trans hmemory) (hcached h)
  | files hfile h => exact .files (hfile.of_eq htree hstorage) (hbyFile _ _ h)

theorem Ages.housed (h : w.Ages w') (hd : w.Housed s d) : w'.Housed s d := by
  have hhome : (w'.document d).source = (w.document d).source := by
    rw [(h.document d hd.1).same]
  exact ⟨Nat.lt_of_lt_of_le hd.1 h.documents, hhome.trans hd.2⟩

theorem leads_iff (hd : w.Housed s d) :
    w.Leads d x ↔ ∃ name ∈ (w.document d).dependencies, w.cached? s name = some x := by
  unfold Leads
  rw [hd.2]

theorem isUnchanged_of_eq (htree : w'.tree = w.tree) (hfile : (w'.document d).file = (w.document d).file)
    (htime : (w'.document d).timestamp = (w.document d).timestamp) : w'.isUnchanged d = w.isUnchanged d := by
  simp only [isUnchanged, htree, hfile, htime]

theorem Sound.of_eq (h : w.Sound s d) (htree : w'.tree = w.tree)
    (hstorage : (w'.source s).storage = (w.source s).storage) (hdocuments : w.documents <+: w'.documents) :
    w'.Sound s d := by
  have hd := document_of_grown hdocuments h.housed.1
  have hinterval : (w'.source s).interval = (w.source s).interval := by
    unfold Source.interval
    rw [hstorage]
  refine ⟨⟨Nat.lt_of_lt_of_le h.housed.1 hdocuments.length_le, ?_⟩, ?_, ?_⟩
  · exact hd ▸ h.housed.2
  · exact hd ▸ h.valid
  · rw [hinterval, isUnchanged_of_eq htree (congrArg _ hd) (congrArg _ hd)]
    exact h.unchanged

theorem sources_attachExecutable (w : World) (d : DocumentId) (e : ExecutableId) :
    (w.attachExecutable d e).1.sources = w.sources := by
  unfold attachExecutable
  split <;> rfl

theorem tree_attachExecutable (w : World) (d : DocumentId) (e : ExecutableId) :
    (w.attachExecutable d e).1.tree = w.tree := by
  unfold attachExecutable
  split <;> rfl

theorem tree_createDocument (w : World) (s : SourceId) (name text tag : String) (e : Option ExecutableId) :
    (w.createDocument s name text tag e).1.tree = w.tree := by
  cases e with
  | none => rfl
  | some e => exact tree_attachExecutable _ _ e

theorem tree_setDocument (w : World) (s : SourceId) (name text tag : String) (e : Option ExecutableId) :
    (w.setDocument s name text tag e).1.tree = w.tree := by
  have hcreate := tree_createDocument w s name text tag e
  unfold setDocument
  cases w.cached? s name with
  | none => exact hcreate
  | some old =>
      unfold invalidateDependents
      refine List.foldlRecOn _ _ (motive := fun w' : World => w'.tree = w.tree) hcreate fun w' h d _ => ?_
      split
      · exact h
      · exact h

theorem document_attachExecutable (w : World) (d : DocumentId) (e : ExecutableId) (x : DocumentId) :
    ∃ names e', (w.attachExecutable d e).1.document x =
        { w.document x with dependencies := names, executable := e' } ∧
      ∀ name ∈ names, name ∈ (w.document x).dependencies ∨ name ∈ (w.executable e).dependencies := by
  unfold attachExecutable
  split
  · exact ⟨_, _, rfl, fun _ => .inl⟩
  · rcases document_modifyDocument_cases w (fun doc =>
      { doc.addDependencies (w.executable e).dependencies with executable := some e }) d x with heq | ⟨rfl, heq⟩
    · exact ⟨_, _, heq, fun _ => .inl⟩
    · have hsame := (w.document d).addDependencies_eq (w.executable e).dependencies
      refine ⟨((w.document d).addDependencies (w.executable e).dependencies).dependencies, some e, ?_,
        fun name hname => Document.mem_dependencies_of_addDependencies hname⟩
      refine heq.trans ?_
      exact congrArg (fun x : Document => { x with executable := some e }) hsame

theorem executable_attachExecutable (e : ExecutableId) (hd : d.index < w.documents.length) :
    ((w.attachExecutable d e).1.document d).executable = some (w.attachExecutable d e).2 := by
  unfold attachExecutable
  split
  · next winner hwinner => exact hwinner
  · rw [document_modifyDocument w _ d hd, if_pos rfl]

namespace Upholds

/-- Documents are added, and kept under names where there is none; others are kept no more. -/
theorem grow (h : w.Upholds s P) (htree : w'.tree = w.tree) (hstorage : (w'.source s).storage = (w.source s).storage)
    (hcounter : w.inFlowCount ≤ w'.inFlowCount) (hdocuments : w.documents <+: w'.documents)
    (hcached : ∀ name d, w'.cached? s name = some d →
      w.cached? s name = some d ∨ ((P d ∨ A d) ∧ ∀ k, w'.inFlowCount ≤ k → name ≠ Document.inFlowName k))
    (hnew : ∀ d, A d → w'.Sound s d ∧ ∀ x, w'.Leads d x → P x ∨ A x) :
    w'.Upholds s fun d => P d ∨ A d := by
  have hsound (d : DocumentId) (hd : P d ∨ A d) : w'.Sound s d := by
    rcases hd with hd | hd
    · exact (h.sound d hd).of_eq htree hstorage hdocuments
    · exact (hnew d hd).1
  refine ⟨fun name d hd => ?_, fun k hk => ?_, hsound, fun d x hd hleads => ?_⟩
  · rcases hcached name d hd with hold | ⟨hsome, -⟩
    · have hhoused := h.kept name d hold
      exact ⟨Nat.lt_of_lt_of_le hhoused.1 hdocuments.length_le, document_of_grown hdocuments hhoused.1 ▸ hhoused.2⟩
    · exact (hsound d hsome).housed
  · refine Option.eq_none_iff_forall_ne_some.2 fun d hd => ?_
    rcases hcached _ d hd with hold | ⟨-, hne⟩
    · cases (h.untaken k (Nat.le_trans hcounter hk)).symm.trans hold
    · exact hne k hk rfl
  · rcases hd with hd | hd
    · have hhoused := (h.sound d hd).housed
      obtain ⟨name, hname, hx⟩ := hleads
      rw [document_of_grown hdocuments hhoused.1] at hname hx
      rcases hcached name x (hhoused.2 ▸ hx) with hold | ⟨hsome, -⟩
      · exact .inl (h.closed d x hd ((leads_iff hhoused).2 ⟨name, hname, hold⟩))
      · exact hsome
    · exact (hnew d hd).2 x hleads

theorem of_rechecks {S : DocumentId → Prop} (h : w.Upholds s P) (hchecked : Rechecks S w w')
    (hvalid : ∀ d, P d → (w'.document d).validity ≠ .invalid) : w'.Upholds s P where
  kept name d hd := by
    have hhoused := h.kept name d (hchecked.cached?_eq s name ▸ hd)
    exact ⟨hchecked.length ▸ hhoused.1, (hchecked.home_eq d).trans hhoused.2⟩
  untaken k hk := by
    rw [hchecked.cached?_eq]
    refine h.untaken k ?_
    rwa [hchecked.world] at hk
  sound d hd := by
    have hsound := h.sound d hd
    refine ⟨⟨hchecked.length ▸ hsound.housed.1, (hchecked.home_eq d).trans hsound.housed.2⟩, hvalid d hd, ?_⟩
    rw [hchecked.source_eq, hchecked.isUnchanged_eq]
    exact hsound.unchanged
  closed d x hd hleads := h.closed d x hd (hchecked.leads_eq ▸ hleads)

theorem attachExecutable {e : ExecutableId} (h : w.Upholds s P) (d : DocumentId)
    (hdependencies : ∀ name ∈ (w.executable e).dependencies, ∀ x, w.cached? s name = some x → P x) :
    (w.attachExecutable d e).1.Upholds s P := by
  have hsources := sources_attachExecutable w d e
  have hcached (name : String) : (w.attachExecutable d e).1.cached? s name = w.cached? s name :=
    cached?_eq_of_sources hsources s name
  have hhoused {x : DocumentId} (hx : w.Housed s x) : (w.attachExecutable d e).1.Housed s x :=
    (ages_attachExecutable w d e).housed hx
  refine ⟨fun name x hx => hhoused (h.kept name x (hcached name ▸ hx)), fun k hk => ?_, fun x hx => ?_,
    fun x y hx hleads => ?_⟩
  · rw [hcached]
    exact h.untaken k ((tidies_attachExecutable s w d e).counter ▸ hk)
  · obtain ⟨names, e', hsame, -⟩ := document_attachExecutable w d e x
    have hsound := h.sound x hx
    refine ⟨hhoused hsound.housed, ?_, ?_⟩
    · rw [hsame]
      exact hsound.valid
    · unfold source
      rw [hsources, isUnchanged_of_eq (tree_attachExecutable w d e) (by rw [hsame]) (by rw [hsame])]
      exact hsound.unchanged
  · obtain ⟨names, e', hsame, hnames⟩ := document_attachExecutable w d e x
    obtain ⟨name, hname, hy⟩ := (leads_iff (hhoused (h.sound x hx).housed)).1 hleads
    rw [hcached] at hy
    rw [hsame] at hname
    rcases hnames name hname with hold | hadded
    · exact h.closed x y hx ((leads_iff (h.sound x hx).housed).2 ⟨name, hold, hy⟩)
    · exact hdependencies name hadded y hy

end Upholds

/-- A lookup that finds another document under the name gives that one. -/
theorem renew_of_ne (hname : Document.isInFlow name = false) (hd : w.cached? s name = some d) (hne : d ≠ x) :
    w.renew s name x = ((((w.emit (.evicted name .invalid)).dropInFlow s x).createDocument s name
      (w.document x).text (w.document x).tag none).1, d) := by
  have hcached : (((w.emit (.evicted name .invalid)).dropInFlow s x).createDocument s name
      (w.document x).text (w.document x).tag none).1.cached? s name = some d :=
    (cached?_dropInFlow_of_not hname (w.emit (.evicted name .invalid)) s x).trans hd
  unfold World.renew
  dsimp only
  rw [if_neg]
  · exact Prod.ext rfl (congrArg (Option.getD · _) hcached)
  · exact fun heq => hne (Option.some.inj (hcached.symm.trans heq))

/-- The source asks for documents by some names, none of them that of a scriptlet body. What such a name denotes is sound;
documents that were replaced in memory are invalid. -/
structure Decided (s : SourceId) (Q : String → Prop) (P N : DocumentId → Prop) (w : World) : Prop where
  upholds : w.Upholds s P
  asked : ∀ name, Q name → Document.isInFlow name = false
  cached : ∀ name d, Q name → w.cached? s name = some d → w.Denotes s name d
  denoted : ∀ name d, Q name → w.Denotes s name d → P d
  replaced : ∀ x, N x → (w.document x).validity = .invalid ∧ (∃ identifier, (w.source s).storage = .memory identifier) ∧
    ∀ name, Q name → ∃ d, w.Denotes s name d

/-- What lasts, from one step to the next, for all that is under way. -/
structure Carries (s : SourceId) (Q : String → Prop) (P P' : DocumentId → Prop) (w w' : World) : Prop where
  ages : w.Ages w'
  tree : w'.tree = w.tree
  denotes : ∀ name d, Q name → w.Denotes s name d → w'.Denotes s name d
  grows : ∀ d, P d → P' d
  old : ∀ d, w.Housed s d → P' d → P d

variable {Q : String → Prop} {P' N : DocumentId → Prop}

theorem Carries.refl (s : SourceId) (Q : String → Prop) (P : DocumentId → Prop) (w : World) : Carries s Q P P w w :=
  ⟨.refl w, rfl, fun _ _ _ => id, fun _ => id, fun _ _ => id⟩

theorem Carries.trans {w₁ : World} {P₁ : DocumentId → Prop} (h : Carries s Q P P₁ w w₁) (h' : Carries s Q P₁ P' w₁ w') :
    Carries s Q P P' w w' :=
  ⟨h.ages.trans h'.ages, h'.tree.trans h.tree, fun name d hname hd => h'.denotes name d hname (h.denotes name d hname hd),
    fun d hd => h'.grows d (h.grows d hd), fun d hd hd' => h.old d hd (h'.old d (h.ages.housed hd) hd')⟩

namespace Decided

theorem not_asked (h : w.Decided s Q P N) (k : Nat) : ¬ Q (Document.inFlowName k) := by
  intro hname
  exact Document.ne_inFlowName (h.asked _ hname) k rfl

theorem of_source (h : w.Decided s Q P N) (hages : w.Ages w') (htree : w'.tree = w.tree)
    (hsource : w'.source s = w.source s) (hupholds : w'.Upholds s P) : w'.Decided s Q P N ∧ Carries s Q P P w w' := by
  have hcached (name : String) : w'.cached? s name = w.cached? s name := congrArg (·.byName.get? name) hsource
  have hto {name : String} {d : DocumentId} (hd : w.Denotes s name d) : w'.Denotes s name d :=
    hd.of_eq htree (congrArg _ hsource) (fun file d hd => hsource ▸ hd) (hcached name).trans
  have hfrom {name : String} {d : DocumentId} (hd : w'.Denotes s name d) : w.Denotes s name d :=
    hd.of_eq htree.symm (congrArg _ hsource.symm) (fun file d hd => hsource ▸ hd) (hcached name).symm.trans
  refine ⟨⟨hupholds, h.asked, fun name d hname hd => ?_, fun name d hname hd => ?_, fun x hx => ?_⟩, hages, htree,
    fun name d _ => hto, fun _ => id, fun _ _ => id⟩
  · exact hto (h.cached name d hname ((hcached name).symm.trans hd))
  · exact h.denoted name d hname (hfrom hd)
  · obtain ⟨hinvalid, ⟨identifier, hmemory⟩, hdenotes⟩ := h.replaced x hx
    refine ⟨hages.invalid hinvalid, ⟨identifier, hsource ▸ hmemory⟩, fun name hname => ?_⟩
    exact (hdenotes name hname).imp fun d => hto

theorem of_rechecks {S : DocumentId → Prop} (h : w.Decided s Q P N) (hchecked : Rechecks S w w') (hages : w.Ages w')
    (hvalid : ∀ d, P d → (w'.document d).validity ≠ .invalid) : w'.Decided s Q P N ∧ Carries s Q P P w w' :=
  h.of_source hages (by rw [hchecked.world]) (hchecked.source_eq s) (h.upholds.of_rechecks hchecked hvalid)

theorem grow (h : w.Decided s Q P N) (hages : w.Ages w') (htree : w'.tree = w.tree)
    (hcounter : w.inFlowCount ≤ w'.inFlowCount) (hdocuments : w.documents <+: w'.documents)
    (hkeepsFile : ∀ file d, (w.source s).byFile.get? file = some d → (w'.source s).byFile.get? file = some d)
    (hbyFile : ∀ file d, (w'.source s).byFile.get? file = some d → (w.source s).byFile.get? file = some d ∨ P d ∨ A d)
    (hkeeps : ∀ name d, Q name → w.cached? s name = some d → w'.cached? s name = some d)
    (hcached : ∀ name d, w'.cached? s name = some d → w.cached? s name = some d ∨
      ((P d ∨ A d) ∧ (∀ k, w'.inFlowCount ≤ k → name ≠ Document.inFlowName k) ∧ (Q name → w'.Denotes s name d)))
    (hnew : ∀ d, A d →
      w'.Sound s d ∧ w.documents.length ≤ d.index ∧ ∀ x, w'.Leads d x → P x ∨ A x) :
    w'.Decided s Q (fun d => P d ∨ A d) N ∧ Carries s Q P (fun d => P d ∨ A d) w w' := by
  have hstorage := hages.storage s
  have hto (name : String) (d : DocumentId) (hname : Q name) (hd : w.Denotes s name d) : w'.Denotes s name d :=
    hd.of_eq htree hstorage hkeepsFile (hkeeps name d hname)
  have hupholds : w'.Upholds s fun d => P d ∨ A d := by
    refine h.upholds.grow htree hstorage hcounter hdocuments (fun name d hd => ?_) fun d hd => ?_
    · exact (hcached name d hd).imp_right fun hsome => ⟨hsome.1, hsome.2.1⟩
    · exact ⟨(hnew d hd).1, (hnew d hd).2.2⟩
  refine ⟨⟨hupholds, h.asked, fun name d hname hd => ?_, fun name d hname hd => ?_, fun x hx => ?_⟩, hages, htree, hto,
    fun _ => .inl, fun d hd hsome => ?_⟩
  · rcases hcached name d hd with hold | ⟨-, -, hdenotes⟩
    · exact hto name d hname (h.cached name d hname hold)
    · exact hdenotes hname
  · cases hd with
    | memory hmemory hd =>
        rcases hcached name d hd with hold | ⟨hsome, -⟩
        · exact .inl (h.denoted name d hname (.memory (hstorage ▸ hmemory) hold))
        · exact hsome
    | files hfile hd =>
        rcases hbyFile _ d hd with hold | hsome
        · exact .inl (h.denoted name d hname (.files (hfile.of_eq htree.symm hstorage.symm) hold))
        · exact hsome
  · obtain ⟨hinvalid, ⟨identifier, hmemory⟩, hdenotes⟩ := h.replaced x hx
    refine ⟨hages.invalid hinvalid, ⟨identifier, hstorage.trans hmemory⟩, fun name hname => ?_⟩
    exact (hdenotes name hname).imp fun d => hto name d hname
  · exact hsome.resolve_right fun hd' => Nat.not_lt_of_le (hnew d hd').2.1 hd.1

/-! What a lookup does with documents that are there for a name, and with new ones. -/

theorem renew (h : w.Decided s Q P N) (hname : Q name) (hx : N x) :
    ∃ d, w.Denotes s name d ∧ (w.renew s name x).2 = d ∧ (w.renew s name x).1.Decided s Q P N ∧
      Carries s Q P P w (w.renew s name x).1 := by
  obtain ⟨hinvalid, ⟨identifier, hmemory⟩, hdenotes⟩ := h.replaced x hx
  obtain ⟨d, hd⟩ := hdenotes name hname
  have hcached : w.cached? s name = some d := by
    cases hd with
    | memory _ hd => exact hd
    | files hfile _ => exact absurd hmemory hfile.not_memory
  have hne : d ≠ x := by
    rintro rfl
    exact (h.upholds.sound d (h.denoted name d hname hd)).valid hinvalid
  have hages := ages_renew w s name x
  rw [renew_of_ne (h.asked name hname) hcached hne] at hages ⊢
  refine ⟨d, hd, rfl, ?_⟩
  let w₁ := w.emit (.evicted name .invalid)
  have hbyFile (file : Files.Path) : ((w₁.dropInFlow s x).source s).byFile.get? file = (w.source s).byFile.get? file :=
    congrArg (·.get? file) (byFile_modifyByName w₁ s _)
  have hgrow := h.grow (A := fun _ => False) hages rfl (Nat.le_refl _) (List.prefix_append _ _)
    (fun file d hd => (hbyFile file).trans hd) (fun file d hd => .inl ((hbyFile file).symm.trans hd))
    (fun name d hname hd => (cached?_dropInFlow_of_not (h.asked name hname) w₁ s x).trans hd)
    (fun name d hd => ?_) nofun
  · simpa only [or_false] using hgrow
  · rcases (tidies_dropInFlow s w₁ x).cache name with hnone | hsame
    · cases hnone.symm.trans hd
    · exact .inl (hsame.symm.trans hd)

theorem keepByName (h : w.Decided s Q P N) (hname : Q name) (hd : w.Denotes s name d) :
    (w.keepByName s name d).2 = d ∧ (w.keepByName s name d).1.Decided s Q P N ∧
      Carries s Q P P w (w.keepByName s name d).1 := by
  have hwinner : (w.keepByName s name d).2 = d := by
    rw [keepByName_snd]
    cases he : w.cached? s name with
    | some e => exact (h.cached name e hname he).unique hd
    | none => rfl
  refine ⟨hwinner, ?_⟩
  have hages := ages_keepByName w s name d
  have hbyFile (file : Files.Path) :
      ((w.keepByName s name d).1.source s).byFile.get? file = (w.source s).byFile.get? file :=
    congrArg (·.get? file) (byFile_modifyByName w s _)
  have hcached (other : String) : (w.keepByName s name d).1.cached? s other =
      if other = name then some d else w.cached? s other := by
    rw [cached?_keepByName w s name d hd.lt, hwinner]
  have hgrow := h.grow (A := fun _ => False) hages rfl (Nat.le_refl _) (List.prefix_refl _)
    (fun file e he => (hbyFile file).trans he) (fun file e he => .inl ((hbyFile file).symm.trans he))
    (fun other e hother he => ?_) (fun other e he => ?_) nofun
  · simpa only [or_false] using hgrow
  · rw [hcached]
    split
    · next heq => exact congrArg some (hd.unique (heq ▸ h.cached other e hother he))
    · exact he
  · rw [hcached] at he
    split at he
    · next heq =>
        subst heq
        cases he
        refine .inr ⟨.inl (h.denoted other d hname hd), fun k _ heq => h.not_asked k (heq ▸ hname), fun _ => ?_⟩
        refine hd.of_eq rfl (hages.storage s) (fun file e he => (hbyFile file).trans he) fun _ => ?_
        rw [hcached, if_pos rfl]
    · exact .inl he

theorem addDocument {x : Document} (h : w.Decided s Q P N) (hhome : x.source = s) (hvalid : x.validity ≠ .invalid)
    (hdependencies : x.dependencies = []) (hunchanged : (w.addDocument x).1.isUnchanged ⟨w.documents.length⟩ = true) :
    ∃ P', P' ⟨w.documents.length⟩ ∧ (w.addDocument x).1.Decided s Q P' N ∧ Carries s Q P P' w (w.addDocument x).1 := by
  have hx : (w.addDocument x).1.document ⟨w.documents.length⟩ = x := document_addDocument w x
  have hgrow := h.grow (A := fun d => d = ⟨w.documents.length⟩) (.addDocument w x) rfl (Nat.le_refl _)
    (List.prefix_append _ _) (fun file d => id) (fun file d => .inl) (fun name d _ => id) (fun name d => .inl)
    fun d hd => ?_
  · exact ⟨_, .inr rfl, hgrow⟩
  · subst hd
    have hhoused : (w.addDocument x).1.Housed s ⟨w.documents.length⟩ :=
      ⟨by simp [World.addDocument], (congrArg _ hx).trans hhome⟩
    refine ⟨⟨hhoused, hx.symm ▸ hvalid, .inr hunchanged⟩, Nat.le_refl _, fun y hy => ?_⟩
    obtain ⟨name, hname, -⟩ := (leads_iff hhoused).1 hy
    rw [hx, hdependencies] at hname
    cases hname

/-- A document is kept for the file that the name stands for, unless there is one already. -/
theorem keepByFile {file : Files.Path} (h : w.Decided s Q P N) (hfile : w.IsFiled s name file) (hd : P d) :
    (w.keepByFile s file d).1.Denotes s name (w.keepByFile s file d).2 ∧
      (w.keepByFile s file d).1.Decided s Q P N ∧ Carries s Q P P w (w.keepByFile s file d).1 := by
  have hages := ages_keepByFile w s d file
  have hbyFile := byFile_keepByFile w s file d hfile.lt
  have hwinner := keepByFile_snd w s file d
  have hgrow := h.grow (A := fun _ => False) hages rfl (Nat.le_refl _) (List.prefix_refl _) (fun file' e he => ?_)
    (fun file' e he => ?_) (fun other e _ he => (cached?_keepByFile w s file d other).trans he)
    (fun other e he => .inl ((cached?_keepByFile w s file d other).symm.trans he)) nofun
  · refine ⟨.files (hfile.of_eq rfl (hages.storage s)) ?_, ?_⟩
    · rw [hbyFile, if_pos rfl]
    · simpa only [or_false] using hgrow
  · rw [hbyFile]
    split
    · next heq =>
        subst heq
        rw [hwinner, he, Option.getD_some]
    · exact he
  · rw [hbyFile] at he
    split at he
    · next heq =>
        subst heq
        rw [hwinner] at he
        cases hold : (w.source s).byFile.get? file' with
        | some e' =>
            rw [hold] at he
            exact .inl he
        | none =>
            rw [hold] at he
            cases he
            exact .inr (.inl hd)
    · exact .inl he

theorem compile {o : Draft} {r : Except Failure ExecutableId} (h : w.Decided s Q P N) (ho : o.source = some s)
    (hcompile : w.compile o = (w', r)) : ∃ P', w'.Decided s Q P' N ∧ Carries s Q P P' w w' ∧
      ∀ e, r = .ok e → ∀ name ∈ (w'.executable e).dependencies, ∀ d, w'.cached? s name = some d → P' d := by
  obtain ⟨hsprouts, hnames⟩ := sprouts_compile ho h.upholds.untaken hcompile
  have hages : w.Ages w' := by
    have hages := ages_compile w o
    rwa [hcompile] at hages
  have hasked (name : String) (hname : Q name) : ¬ Given w w' name := by
    rintro ⟨k, -, -, rfl⟩
    exact h.not_asked k hname
  have hgrow := h.grow (A := fun d => ∃ name, Given w w' name ∧ w'.cached? s name = some d) hages
    hsprouts.tree hsprouts.counter hsprouts.documents (fun file d hd => hsprouts.byFile ▸ hd)
    (fun file d hd => .inl (hsprouts.byFile ▸ hd)) (fun name d hname hd => ?_) (fun name d hd => ?_) fun d hd => ?_
  · exact ⟨_, hgrow.1, hgrow.2, fun e he name hname d hd => .inr ⟨name, hnames e he name hname, hd⟩⟩
  · exact (hsprouts.cached name (hasked name hname)).trans hd
  · by_cases hgiven : Given w w' name
    · refine .inr ⟨.inr ⟨name, hgiven, hd⟩, fun k hk heq => ?_, fun hname => absurd hgiven (hasked name hname)⟩
      obtain ⟨j, -, hj, hname⟩ := hgiven
      cases Document.inFlowName_inj.1 (hname.symm.trans heq)
      exact Nat.not_lt_of_le hk hj
    · exact .inl ((hsprouts.cached name hgiven).symm.trans hd)
  · obtain ⟨name, hgiven, hcached⟩ := hd
    have hsprout := hsprouts.sprout name d hgiven hcached
    have hhoused : w'.Housed s d := ⟨hsprout.lt, hsprout.home⟩
    refine ⟨⟨hhoused, ?_, .inr ?_⟩, hsprout.new, fun x hx => .inr ?_⟩
    · rw [hsprout.validity]
      nofun
    · unfold isUnchanged
      simp only [hsprout.file]
    · obtain ⟨other, hother, hx⟩ := (leads_iff hhoused).1 hx
      exact ⟨other, hsprout.dependencies other hother, hx⟩

theorem attachExecutable {e : ExecutableId} (h : w.Decided s Q P N) (d : DocumentId)
    (hdependencies : ∀ name ∈ (w.executable e).dependencies, ∀ x, w.cached? s name = some x → P x) :
    (w.attachExecutable d e).1.Decided s Q P N ∧ Carries s Q P P w (w.attachExecutable d e).1 := by
  refine h.of_source (ages_attachExecutable w d e) (tree_attachExecutable w d e) ?_
    (h.upholds.attachExecutable d hdependencies)
  unfold source
  rw [sources_attachExecutable]

end Decided

end World

end ScriptedText
