import ScriptedText.Proofs.Engine.Ageing
import ScriptedText.Proofs.Engine.FailedCompilation

/-!
What a compilation adds to a source that has no document yet under the names that scriptlet bodies are going to get: new
documents under such names, which depend on each other at most.
-/

namespace ScriptedText

namespace Document

theorem addDependencies_eq (x : Document) (names : List String) :
    x.addDependencies names = { x with dependencies := (x.addDependencies names).dependencies } := by
  unfold addDependencies
  induction names generalizing x with
  | nil => rfl
  | cons name names ih =>
      refine (ih (x.addDependency name)).trans ?_
      rw [List.foldl_cons]
      unfold addDependency
      split <;> rfl

theorem mem_dependencies_of_addDependencies {x : Document} {names : List String} {name : String}
    (h : name ∈ (x.addDependencies names).dependencies) : name ∈ x.dependencies ∨ name ∈ names := by
  unfold addDependencies at h
  induction names generalizing x with
  | nil => exact .inl h
  | cons other names ih =>
      rcases ih h with hmem | hmem
      · unfold addDependency at hmem
        split at hmem
        · exact .inl hmem
        · rcases List.mem_append.1 hmem with hold | hnew
          · exact .inl hold
          · exact .inr (List.mem_cons.2 (.inl (List.mem_singleton.1 hnew)))
      · exact .inr (List.mem_cons_of_mem _ hmem)

end Document

namespace World

/-- The source has no document under a name that a scriptlet body is going to get. -/
def Untaken (s : SourceId) (w : World) : Prop :=
  ∀ k, w.inFlowCount ≤ k → w.cached? s (Document.inFlowName k) = none

/-- A scriptlet body got the name in between. -/
def Given (w w' : World) (name : String) : Prop :=
  ∃ k, w.inFlowCount ≤ k ∧ k < w'.inFlowCount ∧ name = Document.inFlowName k

/-- A new document, which depends on other new ones at most. -/
structure Sprout (s : SourceId) (w w' : World) (d : DocumentId) : Prop where
  new : w.documents.length ≤ d.index
  lt : d.index < w'.documents.length
  home : (w'.document d).source = s
  file : (w'.document d).file = none
  validity : (w'.document d).validity = .unknown
  dependencies : ∀ name ∈ (w'.document d).dependencies, Given w w' name

/-- Nothing has changed in the source but that it keeps new documents under new names. -/
structure Sprouts (s : SourceId) (w w' : World) : Prop where
  tree : w'.tree = w.tree
  storage : (w'.source s).storage = (w.source s).storage
  byFile : (w'.source s).byFile = (w.source s).byFile
  counter : w.inFlowCount ≤ w'.inFlowCount
  documents : w.documents <+: w'.documents
  cached : ∀ name, ¬ Given w w' name → w'.cached? s name = w.cached? s name
  sprout : ∀ name d, Given w w' name → w'.cached? s name = some d → Sprout s w w' d

variable {w w' w₁ w₂ : World} {s : SourceId} {name text tag : String} {d : DocumentId} {x : Document}

theorem document_of_grown (h : w.documents <+: w'.documents) (hd : d.index < w.documents.length) :
    w'.document d = w.document d := by
  unfold document
  rw [List.getElem?_eq_getElem hd, List.getElem?_eq_getElem (Nat.lt_of_lt_of_le hd h.length_le), h.getElem hd]

theorem Given.left (h : Given w w₁ name) (hle : w₁.inFlowCount ≤ w'.inFlowCount) : Given w w' name := by
  obtain ⟨k, hlow, hhigh, hname⟩ := h
  exact ⟨k, hlow, Nat.lt_of_lt_of_le hhigh hle, hname⟩

theorem Given.right (h : Given w₁ w' name) (hle : w.inFlowCount ≤ w₁.inFlowCount) : Given w w' name := by
  obtain ⟨k, hlow, hhigh, hname⟩ := h
  exact ⟨k, Nat.le_trans hle hlow, hhigh, hname⟩

theorem Given.cases (h : Given w w' name) (w₁ : World) : Given w w₁ name ∨ Given w₁ w' name := by
  obtain ⟨k, hlow, hhigh, hname⟩ := h
  by_cases hk : k < w₁.inFlowCount
  · exact .inl ⟨k, hlow, hk, hname⟩
  · exact .inr ⟨k, Nat.le_of_not_lt hk, hhigh, hname⟩

theorem Given.not_given (h : Given w w₁ name) (w' : World) : ¬ Given w₁ w' name := by
  rintro ⟨j, hlow, -, hname⟩
  obtain ⟨k, -, hhigh, rfl⟩ := h
  cases Document.inFlowName_inj.1 hname
  exact Nat.not_lt_of_le hlow hhigh

theorem Sprout.left (h : Sprout s w w₁ d) (hdocuments : w₁.documents <+: w'.documents)
    (hle : w₁.inFlowCount ≤ w'.inFlowCount) : Sprout s w w' d := by
  have hsame := document_of_grown hdocuments h.lt
  exact ⟨h.new, Nat.lt_of_lt_of_le h.lt hdocuments.length_le, hsame ▸ h.home, hsame ▸ h.file, hsame ▸ h.validity,
    fun name hname => (h.dependencies name (hsame ▸ hname)).left hle⟩

theorem Sprout.right (h : Sprout s w₁ w' d) (hdocuments : w.documents <+: w₁.documents)
    (hle : w.inFlowCount ≤ w₁.inFlowCount) : Sprout s w w' d :=
  ⟨Nat.le_trans hdocuments.length_le h.new, h.lt, h.home, h.file, h.validity,
    fun name hname => (h.dependencies name hname).right hle⟩

namespace Sprouts

/-- Nothing is registered, and no name is given out under which there is a document already. -/
theorem of_eq (htree : w'.tree = w.tree) (hs : w'.sources = w.sources) (hd : w'.documents = w.documents)
    (hcounter : w.inFlowCount ≤ w'.inFlowCount) (huntaken : w.Untaken s) : Sprouts s w w' where
  tree := htree
  storage := by simp [source, hs]
  byFile := by simp [source, hs]
  counter := hcounter
  documents := hd.symm ▸ List.prefix_refl _
  cached name _ := cached?_eq_of_sources hs s name
  sprout name d hgiven hcached := by
    obtain ⟨k, hlow, -, rfl⟩ := hgiven
    rw [cached?_eq_of_sources hs, huntaken k hlow] at hcached
    cases hcached

theorem untaken (h : Sprouts s w w') (huntaken : w.Untaken s) : w'.Untaken s := by
  intro k hk
  rw [h.cached, huntaken k (Nat.le_trans h.counter hk)]
  rintro ⟨j, -, hhigh, hname⟩
  cases Document.inFlowName_inj.1 hname
  exact Nat.not_lt_of_le hk hhigh

theorem trans (h : Sprouts s w w₁) (h' : Sprouts s w₁ w₂) : Sprouts s w w₂ where
  tree := h'.tree.trans h.tree
  storage := h'.storage.trans h.storage
  byFile := h'.byFile.trans h.byFile
  counter := Nat.le_trans h.counter h'.counter
  documents := h.documents.trans h'.documents
  cached name hnot := by
    rw [h'.cached name fun hgiven => hnot (hgiven.right h.counter)]
    exact h.cached name fun hgiven => hnot (hgiven.left h'.counter)
  sprout name d hgiven hcached := by
    rcases hgiven.cases w₁ with hfirst | hsecond
    · rw [h'.cached name (hfirst.not_given w₂)] at hcached
      exact (h.sprout name d hfirst hcached).left h'.documents h'.counter
    · exact (h'.sprout name d hsecond hcached).right h.documents h.counter

theorem register (h : Sprouts s w w₁) (hname : Given w w₁ name) (hhome : x.source = s) (hfile : x.file = none)
    (hvalidity : x.validity = .unknown) (hdependencies : ∀ other ∈ x.dependencies, Given w w₁ other) :
    Sprouts s w ((w₁.addDocument x).1.modifySource s fun source =>
      { source with byName := source.byName.insert name ⟨w₁.documents.length⟩ }) := by
  let w₂ := (w₁.addDocument x).1
  let w₃ := w₂.modifySource s fun source =>
    { source with byName := source.byName.insert name ⟨w₁.documents.length⟩ }
  have hgrown : w₁.documents <+: w₃.documents := List.prefix_append _ _
  have hlength : w₃.documents.length = w₁.documents.length + 1 := List.length_append
  have hx : w₃.document ⟨w₁.documents.length⟩ = x := document_addDocument w₁ x
  have hothers (other : String) (hother : other ≠ name) : w₃.cached? s other = w₁.cached? s other :=
    cached?_insert_of_ne w₂ _ hother
  refine ⟨h.tree, ?_, ?_, h.counter, h.documents.trans hgrown, fun other hnot => ?_, fun other d hgiven hcached => ?_⟩
  · refine Eq.trans ?_ h.storage
    exact (Ages.modifySource (w := w₂) s (f := fun source =>
      { source with byName := source.byName.insert name ⟨w₁.documents.length⟩ }) fun _ => rfl).storage s
  · exact (byFile_modifyByName w₂ s fun source => source.byName.insert name ⟨w₁.documents.length⟩).trans h.byFile
  · refine (hothers other fun heq => hnot ?_).trans (h.cached other hnot)
    exact heq ▸ hname
  · change w₃.cached? s other = some d at hcached
    by_cases hother : other = name
    · subst hother
      by_cases hs : s.index < w₂.sources.length
      · have hown : w₃.cached? s other = some ⟨w₁.documents.length⟩ :=
          (cached?_insert w₂ _ hs other).trans (if_pos rfl)
        cases hcached.symm.trans hown
        exact ⟨h.documents.length_le, hlength ▸ Nat.lt_succ_self _, (congrArg _ hx).trans hhome,
          (congrArg _ hx).trans hfile, (congrArg _ hx).trans hvalidity,
          fun other hother => hdependencies other (congrArg Document.dependencies hx ▸ hother)⟩
      · unfold cached? at hcached
        rw [source_modifySource_of_le _ (Nat.le_of_not_lt hs)] at hcached
        exact (h.sprout other d hgiven hcached).left hgrown (Nat.le_refl _)
    · exact (h.sprout other d hgiven (hothers other hother ▸ hcached)).left hgrown (Nat.le_refl _)

end Sprouts

theorem modify_concat {α : Type} (l : List α) (a : α) (f : α → α) : (l ++ [a]).modify l.length f = l ++ [f a] := by
  induction l with
  | nil => rfl
  | cons b l ih => simpa using ih

theorem attachExecutable_addDocument (w : World) (hx : x.executable = none) (e : ExecutableId) :
    ((w.addDocument x).1.attachExecutable (w.addDocument x).2 e).1 =
      (w.addDocument { x.addDependencies (w.executable e).dependencies with executable := some e }).1 := by
  have hdocument := document_addDocument w x
  unfold attachExecutable
  rw [hdocument, hx]
  simp [addDocument, modifyDocument, modify_concat, executable]

theorem exists_createDocument (w : World) (s : SourceId) (name text tag : String) (e : Option ExecutableId) :
    ∃ x : Document, w.createDocument s name text tag e = w.addDocument x ∧ x.source = s ∧ x.file = none ∧
      x.validity = .unknown ∧ ∀ other ∈ x.dependencies, ∃ e', e = some e' ∧ other ∈ (w.executable e').dependencies := by
  let x : Document := { name, text, tag, timestamp := w.clock, source := s, lastCheck := w.clock }
  cases e with
  | none => exact ⟨x, rfl, rfl, rfl, rfl, nofun⟩
  | some e =>
      have hsame := x.addDependencies_eq (w.executable e).dependencies
      refine ⟨{ x.addDependencies (w.executable e).dependencies with executable := some e }, ?_,
        congrArg Document.source hsame, congrArg Document.file hsame, congrArg Document.validity hsame,
        fun other hother => ⟨e, rfl, ?_⟩⟩
      · exact Prod.ext (attachExecutable_addDocument w rfl e) rfl
      · exact (Document.mem_dependencies_of_addDependencies hother).resolve_left List.not_mem_nil

theorem Sprouts.setDocument {e : ExecutableId} (h : Sprouts s w w₁) (hname : Given w w₁ name)
    (hnone : w₁.cached? s name = none)
    (hdependencies : ∀ other ∈ (w₁.executable e).dependencies, Given w w₁ other) :
    Sprouts s w (w₁.setDocument s name text tag (some e)).1 := by
  obtain ⟨x, hcreate, hhome, hfile, hvalidity, hnames⟩ := exists_createDocument w₁ s name text tag (some e)
  unfold World.setDocument
  rw [hcreate, hnone]
  refine h.register hname hhome hfile hvalidity fun other hother => ?_
  obtain ⟨e', he', hmem⟩ := hnames other hother
  cases he'
  exact hdependencies other hmem

end World

open World Act

section compilation

variable {s : SourceId} {o : Draft}

theorem sprouts_refl (w : World) (h : w.Untaken s) : World.Sprouts s w w := .of_eq rfl rfl rfl (Nat.le_refl _) h

theorem sprouts_emit (w : World) (e : Event) (h : w.Untaken s) : World.Sprouts s w (w.emit e) :=
  .of_eq rfl rfl rfl (Nat.le_refl _) h

theorem sprouts_trans (w₁ w₂ w₃ : World) (h : w₁.Untaken s → World.Sprouts s w₁ w₂)
    (h' : w₂.Untaken s → World.Sprouts s w₂ w₃) (hw : w₁.Untaken s) : World.Sprouts s w₁ w₃ :=
  (h hw).trans (h' ((h hw).untaken hw))

/-- A body that has been compiled is registered under a name that is new. -/
theorem sprouts_register {w w₁ : World} {e : ExecutableId} (text : String) (hw : w.Untaken s)
    (hbody : World.Sprouts s { w with inFlowCount := w.inFlowCount + 1 } w₁)
    (hnames : ∀ name ∈ (w₁.executable e).dependencies, Given { w with inFlowCount := w.inFlowCount + 1 } w₁ name) :
    World.Sprouts s w (w₁.setDocument s (Document.inFlowName w.inFlowCount) text "" (some e)).1 ∧
      Given w (w₁.setDocument s (Document.inFlowName w.inFlowCount) text "" (some e)).1 (Document.inFlowName w.inFlowCount) := by
  have hstart : World.Sprouts s w { w with inFlowCount := w.inFlowCount + 1 } := .of_eq rfl rfl rfl (Nat.le_succ _) hw
  have hname : Given w { w with inFlowCount := w.inFlowCount + 1 } (Document.inFlowName w.inFlowCount) :=
    ⟨w.inFlowCount, Nat.le_refl _, Nat.lt_succ_self _, rfl⟩
  have hgiven := hname.left hbody.counter
  refine ⟨(hstart.trans hbody).setDocument hgiven ?_ fun other hother => (hnames other hother).right hstart.counter,
    hgiven.left (Nat.le_of_eq (registers_setDocument s w₁ _ _ _ _).counter.symm)⟩
  exact (hbody.cached _ (hname.not_given w₁)).trans (hw w.inFlowCount (Nat.le_refl _))

/-- What a compilation does to a source where no name is taken yet that scriptlet bodies get. -/
theorem sprouts_compile {w w' : World} {r : Except Failure ExecutableId} (ho : o.source = some s) (hw : w.Untaken s)
    (h : w.compile o = (w', r)) : World.Sprouts s w w' ∧
      ∀ e, r = .ok e → ∀ name ∈ (w'.executable e).dependencies, Given w w' name := by
  have hfounds : Founds (fun w w' => w.Untaken s → World.Sprouts s w w') (fun w w' name => w.Untaken s → Given w w' name)
      (compileWithin (o.text.length + 1) o) := by
    refine founds_compileWithin (Q := fun o => o.source = some s) sprouts_refl sprouts_trans ?_ ?_
      (fun w e _ => sprouts_emit w e) (fun w hw => .of_eq rfl rfl rfl (Nat.le_succ _) hw)
      (fun w x _ hw => .of_eq rfl rfl rfl (Nat.le_refl _) hw) (fun _ _ _ ho => ho) (fun o ho => by rw [ho]; rfl) ?_ _ ho
    · exact fun w₁ w₂ w₃ name hfirst hsecond hgiven hw => (hgiven hw).left (hsecond ((hfirst hw).untaken hw)).counter
    · exact fun w₁ w₂ w₃ name hfirst hsecond hgiven hw => (hgiven ((hfirst hw).untaken hw)).right (hfirst hw).counter
    · intro w w₁ o r depth e s' ho hs' hperform hbody hnames
      cases ho.symm.trans hs'
      have hstart (hw : w.Untaken s) : World.Untaken s { w with inFlowCount := w.inFlowCount + 1 } :=
        fun k hk => hw k (Nat.le_of_succ_le hk)
      have hregister (hw : w.Untaken s) := sprouts_register (String.ofList r.source) hw (hbody (hstart hw))
        fun name hname => hnames name hname (hstart hw)
      exact ⟨fun hw => (hregister hw).1, fun hw => (hregister hw).2⟩
  rw [World.compile_eq_perform] at h
  cases h
  obtain ⟨hsprouts, hnames⟩ := hfounds w
  exact ⟨hsprouts hw, fun e he name hname => hnames e he name hname hw⟩

end compilation

end ScriptedText
