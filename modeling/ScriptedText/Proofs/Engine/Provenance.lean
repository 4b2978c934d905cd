import ScriptedText.Proofs.Engine.Modes
import ScriptedText.Proofs.Engine.Tending

/-!
Where the executables of documents come from. As long as the host puts none on a document, each of them was compiled of the
document's text, for the source that has the document, in which the bodies were registered that it was made from.
-/

namespace ScriptedText

open Relation

namespace World

/-- The document may be kept under the name: if it comes from no file, the name is its own. -/
structure Fits (w : World) (s : SourceId) (name : String) (d : DocumentId) : Prop where
  housed : w.Housed s d
  own : (w.document d).file = none → (w.document d).name = name
  memory : w.IsMemory s → (w.document d).file = none

/-- A document was registered under the name, with an executable. -/
def Planted (s : SourceId) (w : World) (name : String) : Prop :=
  ∃ d e, w.Housed s d ∧ (w.document d).name = name ∧ (w.document d).executable = some e

/-- The executable was compiled of the document's text, for its source, and its bodies were registered there. -/
structure Made (w : World) (y : Document) (e : ExecutableId) : Prop where
  lt : e.index < w.executables.length
  partition : (w.executable e).partition = w.identifier y.source
  registered : y.file = none → (w.executable e).registered = y.name
  compiled : ∃ registry o raw, (w.executable e).IsCompiled registry o raw ∧ o.text = y.text ∧ o.source = some y.source
  bodies : ∀ name ∈ (w.executable e).dependencies, w.Planted y.source name

/-- What sources keep is their own, and the executables of documents were made of them. -/
structure Homegrown (w : World) : Prop where
  name : ∀ s name d, w.cached? s name = some d → w.Fits s name d
  file : ∀ s file d, (w.source s).byFile.get? file = some d → w.FitsFile s file d
  made : ∀ d e, (w.document d).executable = some e → w.Made (w.document d) e

/-- Nothing has changed in what the provenance of an executable rests on. -/
structure Minds (w w' : World) : Prop extends w.Ages w' where
  makes : w.Makes w'
  origin : w'.tree.origin = w.tree.origin

/-- The host puts no executable on a document, and what it compiles for a source belongs to that source. -/
def Supplies (w : World) : Errand → Prop
  | .attach _ _ => False
  | .set _ _ _ _ e | .setIfAbsent _ _ _ _ e => e = none
  | .compile o => ∀ s, o.source = some s → o.partition = w.identifier s
  | .files tree => tree.origin = w.tree.origin
  | .invalidate _ | .depend _ _ => True

variable {w w' w₁ w₂ : World} {s : SourceId} {name text tag : String} {d x : DocumentId} {e : ExecutableId}
  {file : Files.Path} {y : Document} {id : TaskId} {o : Outcome}

namespace Minds

theorem of_eq (hs : w'.sources = w.sources) (hd : w'.documents = w.documents) (he : w'.executables = w.executables)
    (ht : w'.tree.origin = w.tree.origin) : w.Minds w' := ⟨.of_eq hs hd, makes_of_eq he, ht⟩

theorem trans (h : w.Minds w₁) (h' : w₁.Minds w₂) : w.Minds w₂ :=
  ⟨h.toAges.trans h'.toAges, h.makes.trans h'.makes, h'.origin.trans h.origin⟩

theorem of_stock (h : w'.stock = w.stock) : w.Minds w' :=
  ⟨.of_eq (congrArg Stock.sources h) (congrArg Stock.documents h), makes_of_stock h, congrArg (·.tree.origin) h⟩

theorem chore (h : Chore s w w') : w.Minds w' :=
  ⟨ages_chore h, makes_of_eq (executables_chore h), congrArg Files.Tree.origin (frame_of_chore h).1⟩

theorem setDocument (w : World) (s : SourceId) (name text tag : String) (e : Option ExecutableId) :
    w.Minds (w.setDocument s name text tag e).1 :=
  ⟨ages_setDocument w s name text tag e, makes_of_eq (executables_setDocument w s name text tag e),
    congrArg Files.Tree.origin (tree_setDocument w s name text tag e)⟩

theorem identifier_eq (h : w.Minds w') (s : SourceId) : w'.identifier s = w.identifier s := by
  unfold identifier
  rw [h.storage]
  split
  · rfl
  · rw [Files.Tree.spell, h.origin, ← Files.Tree.spell]

end Minds

theorem Planted.of_ages (h : w.Planted s name) (hages : w.Ages w') : w'.Planted s name := by
  obtain ⟨d, e, hhoused, hname, he⟩ := h
  refine ⟨d, e, hages.housed hhoused, ?_, hages.executable he⟩
  rw [(hages.document d hhoused.1).same]
  exact hname

theorem Fits.of_ages (h : w.Fits s name d) (hages : w.Ages w') : w'.Fits s name d := by
  have hsame := (hages.document d h.housed.1).same
  refine ⟨hages.housed h.housed, ?_, ?_⟩
  · rw [hsame]
    exact h.own
  · rw [hsame, IsMemory, hages.storage]
    exact h.memory

theorem FitsFile.of_ages (h : w.FitsFile s file d) (hages : w.Ages w') : w'.FitsFile s file d := by
  refine ⟨hages.housed h.housed, ?_⟩
  rw [(hages.document d h.housed.1).same]
  exact h.file

theorem Made.of_minds (h : w.Made y e) (hminds : w.Minds w') : w'.Made y e := by
  have hmade := hminds.makes.executable_eq h.lt
  have hpartition : (w'.executable e).asMade.partition = (w.executable e).asMade.partition := congrArg Executable.partition hmade
  have hregistered : (w'.executable e).asMade.registered = (w.executable e).asMade.registered :=
    congrArg Executable.registered hmade
  have hdependencies : (w'.executable e).asMade.dependencies = (w.executable e).asMade.dependencies :=
    congrArg Executable.dependencies hmade
  obtain ⟨registry, o, raw, hcompiled, ho⟩ := h.compiled
  refine ⟨Nat.lt_of_lt_of_le h.lt ?_, ?_, fun hfile => hregistered.trans (h.registered hfile),
    ⟨registry, o, raw, isCompiled_of_asMade hmade hcompiled, ho⟩, fun name hname => ?_⟩
  · simpa using hminds.makes.length_le
  · rw [hminds.identifier_eq]
    exact hpartition.trans h.partition
  · exact (h.bodies name (hdependencies ▸ hname)).of_ages hminds.toAges

/-- It is all about the document's name, text, file and source. -/
theorem Made.of_document {z : Document} (h : w.Made y e) (hages : y.Ages z) : w.Made z e := by
  rw [hages.same]
  exact ⟨h.lt, h.partition, h.registered, h.compiled, h.bodies⟩

namespace Homegrown

/-- What is kept anew fits, and executables that documents get were made of them. -/
theorem step (h : w.Homegrown) (hminds : w.Minds w')
    (hname : ∀ s name d, w'.cached? s name = some d → w.cached? s name = some d ∨ w'.Fits s name d)
    (hfile : ∀ s file d, (w'.source s).byFile.get? file = some d →
      (w.source s).byFile.get? file = some d ∨ w'.FitsFile s file d)
    (hmade : ∀ d e, (w'.document d).executable = some e →
      (w.document d).executable = some e ∨ w'.Made (w'.document d) e) : w'.Homegrown where
  name s name d hd := (hname s name d hd).elim (fun hold => (h.name s name d hold).of_ages hminds.toAges) id
  file s file d hd := (hfile s file d hd).elim (fun hold => (h.file s file d hold).of_ages hminds.toAges) id
  made d e he := by
    rcases hmade d e he with hold | hnew
    · exact ((h.made d e hold).of_minds hminds).of_document (hminds.document d (lt_of_executable hold))
    · exact hnew

theorem of_same (h : w.Homegrown) (hminds : w.Minds w') (hs : w'.sources = w.sources) (hd : w'.documents = w.documents) :
    w'.Homegrown := by
  refine h.step hminds (fun s name d hkept => .inl ?_) (fun s file d hkept => .inl ?_) fun d e he => .inl ?_
  · rwa [cached?_eq_of_sources hs] at hkept
  · rwa [source, hs] at hkept
  · rwa [document_eq_of_documents hd] at he

theorem of_stock (h : w.Homegrown) (hstock : w'.stock = w.stock) : w'.Homegrown :=
  h.of_same (.of_stock hstock) (congrArg Stock.sources hstock) (congrArg Stock.documents hstock)

theorem emit (h : w.Homegrown) (event : Event) : (w.emit event).Homegrown := h.of_stock rfl

/-- Documents change, but keep their executables. -/
theorem of_documents (h : w.Homegrown) (hminds : w.Minds w') (hs : w'.sources = w.sources)
    (he : ∀ d, (w'.document d).executable = (w.document d).executable) : w'.Homegrown := by
  refine h.step hminds (fun s name d hkept => .inl ?_) (fun s file d hkept => .inl ?_) fun d e hd => .inl ((he d).symm.trans hd)
  · rwa [cached?_eq_of_sources hs] at hkept
  · rwa [source, hs] at hkept

theorem modifyDocument (h : w.Homegrown) (d : DocumentId) {f : Document → Document}
    (hages : ∀ x : Document, x.Ages (f x)) (hf : ∀ x, (f x).executable = x.executable) : (w.modifyDocument d f).Homegrown := by
  refine h.of_documents ⟨.modifyDocument d (hages _), makes_of_eq rfl, rfl⟩ rfl fun x => ?_
  rcases document_modifyDocument_cases w f d x with hsame | ⟨-, hsame⟩
  · rw [hsame]
  · rw [hsame, hf]

theorem invalidateDependents (h : w.Homegrown) (s : SourceId) (name : String) : (w.invalidateDependents s name).Homegrown := by
  unfold World.invalidateDependents
  refine List.foldlRecOn _ _ (motive := World.Homegrown) h fun w' h d _ => ?_
  split
  · exact h.modifyDocument d Document.ages_invalidate fun _ => rfl
  · exact h

/-- A source comes to keep what fits. -/
theorem modifySource (h : w.Homegrown) (s : SourceId) {f : Source → Source} (hstorage : ∀ x, (f x).storage = x.storage)
    (hname : ∀ name d, (f (w.source s)).byName.get? name = some d → w.cached? s name = some d ∨ w.Fits s name d)
    (hfile : ∀ file d, (f (w.source s)).byFile.get? file = some d →
      (w.source s).byFile.get? file = some d ∨ w.FitsFile s file d) : (w.modifySource s f).Homegrown := by
  have hminds : w.Minds (w.modifySource s f) := ⟨.modifySource s hstorage, makes_of_eq rfl, rfl⟩
  refine h.step hminds (fun s' name d hd => ?_) (fun s' file d hd => ?_) fun d e he => .inl he
  · rcases source_modifySource_cases w s s' f with hsame | ⟨rfl, hsame⟩
    · rw [cached?, hsame] at hd
      exact .inl hd
    · rw [cached?, hsame] at hd
      exact (hname name d hd).imp_right fun hfits => hfits.of_ages hminds.toAges
  · rcases source_modifySource_cases w s s' f with hsame | ⟨rfl, hsame⟩
    · rw [hsame] at hd
      exact .inl hd
    · rw [hsame] at hd
      exact (hfile file d hd).imp_right fun hfits => hfits.of_ages hminds.toAges

theorem dropInFlow (h : w.Homegrown) (s : SourceId) (d : DocumentId) : (w.dropInFlow s d).Homegrown := by
  refine h.modifySource s (fun _ => rfl) (fun name x hx => ?_) fun file x hx => .inl hx
  rcases get?_dropReachable (fun d => (w.document d).inFlowDependencies) (w.document d).inFlowDependencies
      (w.source s).byName name with hnone | hsame
  · cases hnone.symm.trans hx
  · exact .inl (hsame.symm.trans hx)

theorem forget (h : w.Homegrown) (s : SourceId) (d : DocumentId) :
    (w.modifySource s fun source => source.forget d).Homegrown := by
  refine h.modifySource s (fun _ => rfl) (fun name x hx => .inl ?_) fun file x hx => .inl ?_
  · rcases (w.source s).byName.get?_eraseValue_cases d name with ⟨hnone, -⟩ | hsame
    · cases hnone.symm.trans hx
    · exact hsame.symm.trans hx
  · rcases (w.source s).byFile.get?_eraseValue_cases d file with ⟨hnone, -⟩ | hsame
    · cases hnone.symm.trans hx
    · exact hsame.symm.trans hx

theorem evict (h : w.Homegrown) (s : SourceId) (d : DocumentId) : (w.evict s d).Homegrown :=
  ((h.forget s d).dropInFlow s d).emit _

theorem insert (h : w.Homegrown) (hfits : w.Fits s name d) :
    (w.modifySource s fun source => { source with byName := source.byName.insert name d }).Homegrown := by
  refine h.modifySource s (fun _ => rfl) (fun other x hx => ?_) fun file x hx => .inl hx
  rcases OrderedMap.of_get?_insert hx with hold | ⟨rfl, rfl⟩
  · exact .inl hold
  · exact .inr hfits

theorem keepByName (h : w.Homegrown) (hfits : w.Fits s name d) : (w.keepByName s name d).1.Homegrown := by
  refine h.modifySource s (fun _ => rfl) (fun other x hx => ?_) fun file x hx => .inl hx
  rcases OrderedMap.of_get?_insertIfAbsent hx with hold | ⟨rfl, rfl⟩
  · exact .inl hold
  · exact .inr hfits

theorem keepByFile (h : w.Homegrown) (hfits : w.FitsFile s file d) : (w.keepByFile s file d).1.Homegrown := by
  refine h.modifySource s (fun _ => rfl) (fun name x hx => .inl hx) fun other x hx => ?_
  rcases OrderedMap.of_get?_insertIfAbsent hx with hold | ⟨rfl, rfl⟩
  · exact .inl hold
  · exact .inr hfits

theorem addDocument (h : w.Homegrown) (hy : ∀ e, y.executable = some e → w.Made y e) : (w.addDocument y).1.Homegrown := by
  have hminds : w.Minds (w.addDocument y).1 := ⟨.addDocument w y, makes_of_eq rfl, rfl⟩
  refine h.step hminds (fun s name d hd => .inl hd) (fun s file d hd => .inl hd) fun d e he => ?_
  rcases document_addDocument_cases w y d with hsame | ⟨-, hnew⟩
  · exact .inl (hsame ▸ he)
  · rw [hnew] at he ⊢
    exact .inr ((hy e he).of_minds hminds)

/-- A document is created, and not kept yet. -/
theorem createDocument (h : w.Homegrown) (s : SourceId) (name text tag : String) (e : Option ExecutableId)
    (he : ∀ x, e = some x → ∀ y : Document, y.source = s → y.name = name → y.text = text → w.Made y x) :
    (w.createDocument s name text tag e).1.Homegrown ∧ (w.createDocument s name text tag e).1.Fits s name ⟨w.documents.length⟩ ∧
      ((w.createDocument s name text tag e).1.document ⟨w.documents.length⟩).executable = e := by
  have hfits (y : Document) (hsource : y.source = s) (hname : y.name = name) (hfile : y.file = none) :
      (w.addDocument y).1.Fits s name ⟨w.documents.length⟩ := by
    have hnew : (w.addDocument y).1.document ⟨w.documents.length⟩ = y := document_addDocument w y
    refine ⟨⟨?_, ?_⟩, ?_, ?_⟩
    · simp [World.addDocument]
    · rw [hnew, hsource]
    · rw [hnew]
      exact fun _ => hname
    · rw [hnew]
      exact fun _ => hfile
  cases e with
  | none =>
      have hnew : (w.addDocument (w.written s name text tag)).1.document ⟨w.documents.length⟩ = w.written s name text tag :=
        document_addDocument w _
      have hnone (x : ExecutableId) (hx : (w.written s name text tag).executable = some x) :
          w.Made (w.written s name text tag) x := by cases hx
      exact ⟨h.addDocument hnone, hfits (w.written s name text tag) rfl rfl rfl, congrArg Document.executable hnew⟩
  | some x =>
      have hsame := (w.written s name text tag).addDependencies_eq (w.executable x).dependencies
      let y : Document :=
        { (w.written s name text tag).addDependencies (w.executable x).dependencies with executable := some x }
      have hcreate : (w.createDocument s name text tag (some x)).1 = (w.addDocument y).1 :=
        attachExecutable_addDocument w (x := w.written s name text tag) rfl x
      have hsource : y.source = s := congrArg Document.source hsame
      have hname : y.name = name := congrArg Document.name hsame
      have hnew : (w.addDocument y).1.document ⟨w.documents.length⟩ = y := document_addDocument w y
      rw [hcreate]
      refine ⟨h.addDocument fun e' he' => ?_, hfits y hsource hname (congrArg Document.file hsame), ?_⟩
      · cases he'
        exact he x rfl y hsource hname (congrArg Document.text hsame)
      · rw [hnew]

/-- A document is registered, without an executable or with one that was made of it. -/
theorem setDocument (h : w.Homegrown) (s : SourceId) (name text tag : String) (e : Option ExecutableId)
    (he : ∀ x, e = some x → ∀ y : Document, y.source = s → y.name = name → y.text = text → w.Made y x) :
    (w.setDocument s name text tag e).1.Homegrown := by
  obtain ⟨hcreated, hfits, -⟩ := h.createDocument s name text tag e he
  have hnew : (w.createDocument s name text tag e).2 = ⟨w.documents.length⟩ := by
    obtain ⟨y, hcreate, -⟩ := exists_createDocument w s name text tag e
    rw [hcreate]
    rfl
  unfold World.setDocument
  generalize hcreate : w.createDocument s name text tag e = created at hcreated hfits hnew
  obtain ⟨w₁, d⟩ := created
  dsimp only at hcreated hfits hnew
  subst hnew
  have hinserted := hcreated.insert hfits
  cases w.cached? s name with
  | none => exact hinserted
  | some old =>
      refine invalidateDependents (emit (dropInFlow ?_ s old) _) s name
      refine (hinserted.modifyDocument old Document.ages_invalidate fun _ => rfl).modifySource s (fun _ => rfl)
        (fun _ _ hx => .inl hx) fun file x hx => .inl ?_
      rcases OrderedMap.get?_eraseValue_cases _ old file with ⟨hnone, -⟩ | hsame
      · cases hnone.symm.trans hx
      · exact hsame.symm.trans hx

theorem renew (h : w.Homegrown) (s : SourceId) (name : String) (d : DocumentId) : (w.renew s name d).1.Homegrown := by
  have hdropped := (h.emit (.evicted name .invalid)).dropInFlow s d
  obtain ⟨hcreated, hfits, -⟩ := hdropped.createDocument s name
    (((w.emit (.evicted name .invalid)).dropInFlow s d).document d).text
    (((w.emit (.evicted name .invalid)).dropInFlow s d).document d).tag none nofun
  unfold World.renew
  dsimp only
  split
  · exact hcreated.insert hfits
  · exact hcreated

theorem reenter (h : w.Homegrown) (s : SourceId) (name : String) (d : DocumentId) : (w.reenter s name d).Homegrown := by
  obtain ⟨hcreated, hfits, -⟩ := (h.evict s d).createDocument s name (w.document d).text (w.document d).tag none nofun
  exact hcreated.keepByName hfits

/-- A document from a file may be kept under any name. -/
theorem fits_of_file (h : w.FitsFile s file d) (hfiles : w.HasFiles s) (name : String) : w.Fits s name d := by
  refine ⟨h.housed, fun hnone => absurd (hnone.symm.trans h.file) nofun, ?_⟩
  rintro ⟨identifier, hmemory⟩
  obtain ⟨naming, interval, hstorage⟩ := hfiles
  cases hmemory.symm.trans hstorage

theorem keepFile (h : w.Homegrown) (hfiled : w.IsFiled s name file) (text : String) (mtime : Int) :
    (w.keepFile s name text file mtime).Homegrown := by
  let y := w.fromFile s name text file mtime
  have hadded : (w.addDocument y).1.Homegrown := h.addDocument nofun
  have hnew : (w.addDocument y).1.document ⟨w.documents.length⟩ = y := document_addDocument w y
  have hfits : (w.addDocument y).1.FitsFile s file ⟨w.documents.length⟩ := by
    refine ⟨⟨by simp [World.addDocument], ?_⟩, ?_⟩
    · rw [hnew]
      rfl
    · rw [hnew]
      rfl
  have hkept := hfits.of_ages (ages_keepByFile _ s ⟨w.documents.length⟩ file)
  refine (hadded.keepByFile hfits).keepByName (fits_of_file hkept ?_ name)
  exact hfiled.hasFiles.of_eq ((ages_keepByFile _ s ⟨w.documents.length⟩ file).storage s)

theorem chore (h : w.Homegrown) (hchore : Chore s w w') : w'.Homegrown := by
  cases hchore with
  | check hchecks =>
      refine h.of_documents (.chore (s := s) (.check hchecks)) (by rw [hchecks.rechecks.world]) fun d => ?_
      rw [hchecks.rechecks.document d]
  | @renew name d _ _ _ => exact h.renew s name d
  | @evict d _ _ _ => exact h.evict s d
  | @reenter name d _ _ _ _ => exact h.reenter s name d
  | @keep name file d _ hfiled hd _ => exact h.keepByName (fits_of_file (h.file s file d hd) hfiled.hasFiles name)
  | @read name text file mtime _ hfiled _ _ => exact h.keepFile hfiled text mtime

theorem chores (h : w.Homegrown) (hchores : ReflTransGen (Chore s) w w') : w'.Homegrown := by
  induction hchores with
  | refl => exact h
  | tail _ hchore ih => exact ih.chore hchore

/-- What a lookup gives fits the name. -/
theorem fits_of_lookup (h : w.Homegrown) (hlookup : Lookup s name w w' (.ok (.document d))) : w'.Fits s name d := by
  rcases hlookup.outcome with ⟨f, hf⟩ | ⟨d', hd', -, hkept⟩
  · cases hf
  · cases hd'
    rcases hkept with hkept | ⟨-, w₁, old, hchores, -, rfl, rfl⟩
    · exact (h.chores hlookup.chores).name s name d hkept
    · have hnew := document_renew w₁ s name old
      have hlt : w₁.documents.length < (w₁.renew s name old).1.documents.length := by
        unfold World.renew
        dsimp only
        split <;> simp [World.createDocument, World.addDocument, World.modifySource, World.dropInFlow, World.emit]
      refine ⟨⟨hlt, ?_⟩, ?_, ?_⟩
      · rw [hnew]
        rfl
      · rw [hnew]
        exact fun _ => rfl
      · rw [hnew]
        exact fun _ => rfl

end Homegrown

theorem planted_setDocument (w : World) (s : SourceId) (name text tag : String) (e : ExecutableId) :
    (w.setDocument s name text tag (some e)).1.Planted s name := by
  have hsame := (w.written s name text tag).addDependencies_eq (w.executable e).dependencies
  let y : Document := { (w.written s name text tag).addDependencies (w.executable e).dependencies with executable := some e }
  have hcreate : (w.createDocument s name text tag (some e)).1 = (w.addDocument y).1 :=
    attachExecutable_addDocument w (x := w.written s name text tag) rfl e
  have hnew : (w.addDocument y).1.document ⟨w.documents.length⟩ = y := document_addDocument w y
  have hplanted : (w.addDocument y).1.Planted s name := by
    refine ⟨⟨w.documents.length⟩, e, ⟨by simp [World.addDocument], ?_⟩, ?_, ?_⟩
    · exact (congrArg Document.source hnew).trans (congrArg Document.source hsame)
    · exact (congrArg Document.name hnew).trans (congrArg Document.name hsame)
    · exact congrArg Document.executable hnew
  rw [← hcreate] at hplanted
  exact hplanted.of_ages (ages_registered w s name text tag (some e))

end World

open World Act

section compilation

/-- What is compiled is for the source, and belongs to the partition. -/
def Draft.IsFor (s : SourceId) (partition : String) (o : Draft) : Prop := o.source = some s ∧ o.partition = partition

/-- What sources keep stays homegrown, if the partition is that of the source. -/
def World.Fosters (s : SourceId) (partition : String) (w w' : World) : Prop :=
  w.Minds w' ∧ (w.identifier s = partition → w.Homegrown → w'.Homegrown)

variable {s : SourceId} {partition : String} {w w' w₁ w₂ : World} {o : Draft} {e : ExecutableId} {y : Document}

namespace World.Fosters

theorem of_eq (hs : w'.sources = w.sources) (hd : w'.documents = w.documents) (hmakes : w.Makes w')
    (ht : w'.tree.origin = w.tree.origin) : w.Fosters s partition w' := by
  have hminds : w.Minds w' := ⟨.of_eq hs hd, hmakes, ht⟩
  exact ⟨hminds, fun _ h => h.of_same hminds hs hd⟩

theorem trans (h : w.Fosters s partition w₁) (h' : w₁.Fosters s partition w₂) : w.Fosters s partition w₂ :=
  ⟨h.1.trans h'.1, fun hpartition hw => h'.2 ((h.1.identifier_eq s).trans hpartition) (h.2 hpartition hw)⟩

end World.Fosters

/-- What a draft for a source is compiled to was made of a document there with its text. -/
theorem made_of_compileWithin {depth : Nat} (ho : o.IsFor s partition)
    (h : (compileWithin depth o).perform w = (.ok e, w')) (hpartition : w'.identifier s = partition)
    (hbodies : ∀ name ∈ (w'.executable e).dependencies, w'.Planted s name)
    (hsource : y.source = s) (hname : y.file = none → y.name = o.registered) (htext : y.text = o.text) : w'.Made y e := by
  obtain ⟨hlt, hregistered, hpartitioned, raw, hcompiled⟩ := compiled_of_compileWithin h
  subst hsource
  exact ⟨hlt, hpartitioned.trans (ho.2.trans hpartition.symm), fun hfile => hregistered.trans (hname hfile).symm,
    ⟨w.registry, o, raw, hcompiled, htext.symm, ho.1⟩, hbodies⟩

/-- A compilation for a source, in which every body is registered there with what it was compiled to. -/
theorem fosters_compileWithin (depth : Nat) (ho : o.IsFor s partition) :
    Founds (World.Fosters s partition) (fun _ w name => w.Planted s name) (compileWithin depth o) := by
  have hcount (w : World) : w.Fosters s partition { w with inFlowCount := w.inFlowCount + 1 } :=
    .of_eq rfl rfl (makes_of_eq rfl) rfl
  have hbody (o : Draft) (r : Request) (name : String) (ho : o.IsFor s partition) : (o.body r name).IsFor s partition := ho
  refine founds_compileWithin (fun w => .of_eq rfl rfl (makes_of_eq rfl) rfl) (fun _ _ _ => .trans)
    (fun _ _ _ _ _ hages hplanted => hplanted.of_ages hages.1.toAges) (fun _ _ _ _ _ _ hplanted => hplanted)
    (fun _ _ _ => .of_eq rfl rfl (makes_of_eq rfl) rfl) hcount
    (fun w x _ => .of_eq rfl rfl (makes_addExecutable w x) rfl) hbody (fun o ho => by rw [ho.1]; rfl) ?_ depth ho
  intro w w₁ o r depth e s' ho hs' hperform hcompiled hnames
  cases ho.1.symm.trans hs'
  refine ⟨⟨((hcount w).1.trans hcompiled.1).trans (.setDocument w₁ _ _ _ _ _), fun hpartition hw => ?_⟩, planted_setDocument ..⟩
  have hpartition₁ : w₁.identifier s = partition :=
    (hcompiled.1.identifier_eq s).trans (((hcount w).1.identifier_eq s).trans hpartition)
  refine ((hcount w).trans hcompiled |>.2 hpartition hw).setDocument s _ _ _ _ fun x hx y hsource hname htext => ?_
  cases hx
  exact made_of_compileWithin (hbody o r _ ho) hperform hpartition₁ hnames hsource (fun _ => hname) htext

end compilation

namespace World

variable {w w' w₁ : World} {s : SourceId} {name : String} {d : DocumentId} {e : ExecutableId} {o : Draft} {id : TaskId}

theorem minds_compile (w : World) (o : Draft) : w.Minds (w.compile o).1 := by
  refine ⟨ages_compile w o, makes_compile w o, ?_⟩
  refine Act.relates_compile (R := fun w w' => w'.tree.origin = w.tree.origin) (fun _ => rfl) (fun _ _ _ h h' => h'.trans h)
    (fun _ _ _ => rfl) (fun _ => rfl) (fun w s name text e _ => ?_) (fun _ _ _ => rfl) w
  exact congrArg Files.Tree.origin (tree_setDocument w s name text "" (some e))

namespace Homegrown

theorem compile (h : w.Homegrown) (ho : ∀ s, o.source = some s → o.partition = w.identifier s) :
    (w.compile o).1.Homegrown := by
  cases hs : o.source with
  | some s => exact ((fosters_compileWithin (o.text.length + 1) ⟨hs, rfl⟩ w).1.2 (ho s hs).symm h)
  | none =>
      refine (Act.relates_compile (R := fun w w' => w.Homegrown → w'.Homegrown) (fun _ => id) (fun _ _ _ h h' => h' ∘ h)
        (fun w e _ hw => hw.emit e) (fun w hw => hw.of_same (.of_eq rfl rfl rfl rfl) rfl rfl) ?_ ?_ w) h
      · exact fun w s name text e hsome => nomatch hs.symm.trans hsome
      · exact fun w x _ hw => hw.of_same ⟨.of_eq rfl rfl, makes_addExecutable w x, rfl⟩ rfl rfl

/-- A document gets an executable that was made of it. -/
theorem attachExecutable (h : w.Homegrown) (he : w.Made (w.document d) e) : (w.attachExecutable d e).1.Homegrown := by
  have hminds : w.Minds (w.attachExecutable d e).1 :=
    ⟨ages_attachExecutable w d e, makes_of_eq (executables_attachExecutable w d e),
      congrArg Files.Tree.origin (tree_attachExecutable w d e)⟩
  have hsources : (w.attachExecutable d e).1.sources = w.sources := sources_attachExecutable w d e
  refine h.step hminds (fun s name x hx => .inl ?_) (fun s file x hx => .inl ?_) fun x e' he' => ?_
  · rwa [cached?_eq_of_sources hsources] at hx
  · rwa [source, hsources] at hx
  · unfold World.attachExecutable at he' hminds ⊢
    cases hnone : (w.document d).executable with
    | some winner =>
        rw [hnone] at he'
        exact .inl he'
    | none =>
        rw [hnone] at he' hminds
        dsimp only at he' hminds ⊢
        rcases document_modifyDocument_cases w _ d x with hsame | ⟨rfl, hsame⟩
        · rw [hsame] at he'
          exact .inl he'
        · rw [hsame] at he' ⊢
          cases he'
          have hmade := he.of_minds hminds
          rw [Document.addDependencies_eq]
          exact .inr ⟨hmade.lt, hmade.partition, hmade.registered, hmade.compiled, hmade.bodies⟩

theorem afterCreating (h : w.Homegrown) (hfits : w.Fits s name d) (isText : Bool) (compilation : Compilation) :
    (Move.afterCreating w s name d isText compilation).world.Homegrown := by
  let o := Move.draftOf w s name d isText compilation
  have ho : o.IsFor s (w.identifier s) := ⟨rfl, rfl⟩
  have hcompiled : (w.compile o).1.Homegrown := h.compile fun s' hs' => by
    cases hs'
    rfl
  unfold Move.afterCreating
  split
  · exact h
  · split
    · next hc =>
        rw [hc] at hcompiled
        exact hcompiled
    · next hnone w' e hc =>
        have hminds := minds_compile w o
        obtain ⟨-, hnames⟩ := fosters_compileWithin (o.text.length + 1) ho w
        have hperform : (compileWithin (o.text.length + 1) o).perform w = (.ok e, w') := by
          rw [World.compile_eq_perform] at hc
          obtain ⟨hw, he⟩ := Prod.mk.inj hc
          exact Prod.ext he hw
        rw [hperform] at hnames
        rw [hc] at hcompiled hminds
        have hsame := (hminds.document d hfits.housed.1).same
        refine hcompiled.attachExecutable (made_of_compileWithin ho hperform (hminds.identifier_eq s) (hnames e rfl) ?_ ?_ ?_)
        · rw [hsame]
          exact hfits.housed.2
        · rw [hsame]
          exact hfits.own
        · rw [hsame]
          rfl

theorem recordDependency (h : w.Homegrown) (host : Host) (name : String) (c : ContextId) :
    (w.recordDependency host name c).Homegrown := by
  unfold World.recordDependency
  split
  · exact h
  · dsimp only
    split
    · split
      · exact h.modifyDocument _ (fun _ => Document.ages_addDependency _ name) fun _ => by
          unfold Document.addDependency
          split <;> rfl
      · exact h
    · exact h

theorem stride {P : World → Task → Prop} (h : w.Homegrown) (hstride : Stride id P w w') : w'.Homegrown := by
  cases hstride with
  | aside hstock => exact h.of_stock hstock
  | check hends => exact h.chore (s := ⟨0⟩) (.check (checks_of_ends hends))
  | lookup hends => exact h.chores (lookup_of_ends hends).chores
  | create hends _ =>
      have hlookup := lookup_of_ends hends
      exact (h.chores hlookup.chores).afterCreating (h.fits_of_lookup hlookup) _ _
  | record _ _ => exact h.recordDependency _ _ _

theorem serve {errand : Errand} (h : w.Homegrown) (hsupplies : w.Supplies errand) : (w.serve errand).Homegrown := by
  cases errand with
  | invalidate d => exact h.modifyDocument d Document.ages_invalidate fun _ => rfl
  | depend d name =>
      refine h.modifyDocument d (fun _ => Document.ages_addDependency _ name) fun _ => ?_
      unfold Document.addDependency
      split <;> rfl
  | attach d e => exact hsupplies.elim
  | set s name text tag e =>
      cases (hsupplies : e = none)
      exact h.setDocument s name text tag none nofun
  | setIfAbsent s name text tag e =>
      cases (hsupplies : e = none)
      obtain ⟨hcreated, hfits, -⟩ := h.createDocument s name text tag none nofun
      exact hcreated.keepByName hfits
  | compile o => exact h.compile hsupplies
  | files tree => exact h.of_same (.of_eq rfl rfl rfl hsupplies) rfl rfl

end Homegrown

/-- Where there are no documents yet, none is kept and none has an executable. -/
theorem homegrown_of_empty (hdocuments : w.documents = []) (hempty : ∀ s, w.Empty s) : w.Homegrown where
  name s name d hd := nomatch ((hempty s).1 name).symm.trans hd
  file s file d hd := nomatch ((hempty s).2 file).symm.trans hd
  made d e he := by
    rw [document_of_le (by simp [hdocuments])] at he
    cases he

end World

namespace Course

/-- As long as the host supplies no executables of its own, those of documents were made of them. -/
theorem keeps_homegrown : Keeps World.Supplies (fun _ _ => True) World.Homegrown where
  stride hstride h := h.stride hstride
  serve hsupplies h := h.serve hsupplies
  clock h := h.of_same (.of_eq rfl rfl rfl rfl) rfl rfl

end Course

end ScriptedText
