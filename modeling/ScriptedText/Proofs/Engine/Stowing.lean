import ScriptedText.Proofs.Engine.FileMaps

/-!
Which documents a source comes to keep: new ones only, whatever is done to it, apart from one that a lookup by file has
just found valid.
-/

namespace ScriptedText

open Relation

/-- The source keeps the document, under a name or for a file. -/
def Source.Stores (x : Source) (d : DocumentId) : Prop :=
  (∃ name, x.byName.get? name = some d) ∨ ∃ file, x.byFile.get? file = some d

namespace Source

variable {x y : Source} {d d' : DocumentId}

/-- Names and files are only dropped. -/
theorem Stores.of_dropped (h : y.Stores d)
    (hname : ∀ name, y.byName.get? name = none ∨ y.byName.get? name = x.byName.get? name)
    (hfile : ∀ file, y.byFile.get? file = none ∨ y.byFile.get? file = x.byFile.get? file) : x.Stores d := by
  rcases h with ⟨name, h⟩ | ⟨file, h⟩
  · rcases hname name with heq | heq
    · cases heq.symm.trans h
    · exact .inl ⟨name, heq.symm.trans h⟩
  · rcases hfile file with heq | heq
    · cases heq.symm.trans h
    · exact .inr ⟨file, heq.symm.trans h⟩

/-- At most one document is added. -/
theorem Stores.of_added (h : y.Stores d)
    (hname : ∀ name, y.byName.get? name = x.byName.get? name ∨ y.byName.get? name = some d')
    (hfile : ∀ file, y.byFile.get? file = x.byFile.get? file ∨ y.byFile.get? file = some d') : x.Stores d ∨ d = d' := by
  rcases h with ⟨name, h⟩ | ⟨file, h⟩
  · rcases hname name with heq | heq
    · exact .inl (.inl ⟨name, heq.symm.trans h⟩)
    · exact .inr (Option.some.inj (h.symm.trans heq))
  · rcases hfile file with heq | heq
    · exact .inl (.inr ⟨file, heq.symm.trans h⟩)
    · exact .inr (Option.some.inj (h.symm.trans heq))

theorem Stores.of_forget (h : (x.forget d').Stores d) : x.Stores d ∧ d ≠ d' := by
  rcases h with ⟨name, h⟩ | ⟨file, h⟩
  · rcases x.byName.get?_eraseValue_cases d' name with ⟨hnone, -⟩ | heq
    · cases hnone.symm.trans h
    · have hold := heq.symm.trans h
      refine ⟨.inl ⟨name, hold⟩, ?_⟩
      rintro rfl
      have hgone := x.byName.get?_eraseValue d name
      rw [if_pos hold] at hgone
      cases hgone.symm.trans h
  · rcases x.byFile.get?_eraseValue_cases d' file with ⟨hnone, -⟩ | heq
    · cases hnone.symm.trans h
    · have hold := heq.symm.trans h
      refine ⟨.inr ⟨file, hold⟩, ?_⟩
      rintro rfl
      have hgone := x.byFile.get?_eraseValue d file
      rw [if_pos hold] at hgone
      cases hgone.symm.trans h

end Source

namespace World

def Stores (s : SourceId) (w : World) (d : DocumentId) : Prop := (w.source s).Stores d

/-- What the source keeps it kept before, or else it is new. -/
structure Stows (s : SourceId) (w w' : World) : Prop where
  documents : w.documents.length ≤ w'.documents.length
  stores : ∀ d, w'.Stores s d → w.Stores s d ∨ w.documents.length ≤ d.index ∧ d.index < w'.documents.length

variable {w w' w₁ w₂ : World} {s s' : SourceId} {name : String} {d : DocumentId}

namespace Stows

theorem of_sources (hsources : w'.sources = w.sources) (hlength : w.documents.length ≤ w'.documents.length) :
    Stows s w w' := by
  refine ⟨hlength, fun d hd => .inl ?_⟩
  simpa [Stores, source, hsources] using hd

theorem of_stock (h : w'.stock = w.stock) : Stows s w w' :=
  .of_sources (congrArg Stock.sources h) (Nat.le_of_eq (congrArg (·.documents.length) h).symm)

theorem refl (s : SourceId) (w : World) : Stows s w w := .of_sources rfl (Nat.le_refl _)

theorem trans (h : Stows s w w₁) (h' : Stows s w₁ w₂) : Stows s w w₂ where
  documents := Nat.le_trans h.documents h'.documents
  stores d hd := by
    rcases h'.stores d hd with hold | ⟨hlow, hhigh⟩
    · exact (h.stores d hold).imp_right fun hnew => ⟨hnew.1, Nat.lt_of_lt_of_le hnew.2 h'.documents⟩
    · exact .inr ⟨Nat.le_trans h.documents hlow, hhigh⟩

theorem emit (h : Stows s w w₁) (e : Event) : Stows s w (w₁.emit e) := h.trans (.of_sources rfl (Nat.le_refl _))

/-- Names and files are dropped, or have one more document, which is new. -/
theorem modifySource (h : Stows s w w₁) {f : Source → Source}
    (hf : ∀ d, (f (w₁.source s')).Stores d → w₁.Stores s' d ∨
      w.documents.length ≤ d.index ∧ d.index < w₁.documents.length) : Stows s w (w₁.modifySource s' f) := by
  refine ⟨h.documents, fun d hd => ?_⟩
  unfold Stores at hd
  rcases source_modifySource_cases w₁ s' s f with hsource | ⟨rfl, hsource⟩
  · rw [hsource] at hd
    exact h.stores d hd
  · rw [hsource] at hd
    rcases hf d hd with hold | hnew
    · exact h.stores d hold
    · exact .inr hnew

theorem dropInFlow (h : Stows s w w₁) (s' : SourceId) (d : DocumentId) : Stows s w (w₁.dropInFlow s' d) :=
  h.modifySource fun _ hx => .inl (hx.of_dropped (fun _ => get?_dropReachable _ _ _ _) fun _ => .inr rfl)

theorem evict (w : World) (s' : SourceId) (d : DocumentId) : Stows s w (w.evict s' d) :=
  (((refl s w).modifySource fun _ hx => .inl hx.of_forget.1).dropInFlow s' d).emit _

theorem of_ages (h : Stows s w w₁) (hages : w₁.Ages w₂) (hsources : w₂.sources = w₁.sources) : Stows s w w₂ :=
  h.trans (.of_sources hsources hages.documents)

section fresh

variable {x : Document} (h : Stows s w w₁) (s' : SourceId) (name : String)

include h

theorem addDocument (x : Document) : Stows s w (w₁.addDocument x).1 := h.of_ages (.addDocument w₁ x) rfl

theorem keep {f : Source → Source}
    (hd : w₁.Stores s' d ∨ w.documents.length ≤ d.index ∧ d.index < w₁.documents.length)
    (hname : ∀ name, (f (w₁.source s')).byName.get? name = w₁.cached? s' name ∨
      (f (w₁.source s')).byName.get? name = some d)
    (hfile : ∀ file, (f (w₁.source s')).byFile.get? file = (w₁.source s').byFile.get? file ∨
      (f (w₁.source s')).byFile.get? file = some d) : Stows s w (w₁.modifySource s' f) := by
  refine h.modifySource fun y hy => ?_
  rcases hy.of_added hname hfile with hold | rfl
  · exact .inl hold
  · exact hd

theorem new (x : Document) : w.documents.length ≤ (w₁.addDocument x).2.index ∧
    (w₁.addDocument x).2.index < (w₁.addDocument x).1.documents.length :=
  ⟨h.documents, by simp [World.addDocument]⟩

theorem insertNew : Stows s w ((w₁.addDocument x).1.modifySource s' fun source =>
    { source with byName := source.byName.insert name (w₁.addDocument x).2 }) :=
  (h.addDocument x).keep s' (.inr (h.new x)) (fun _ => OrderedMap.get?_insert_cases _ name _ _) fun _ => .inl rfl

theorem keepNew : Stows s w ((w₁.addDocument x).1.keepByName s' name (w₁.addDocument x).2).1 :=
  (h.addDocument x).keep s' (.inr (h.new x)) (fun _ => OrderedMap.get?_insertIfAbsent_cases _ name _ _) fun _ => .inl rfl

end fresh

theorem keepFile (w : World) (s' : SourceId) (name text : String) (file : Files.Path) (mtime : Int) :
    Stows s w (w.keepFile s' name text file mtime) := by
  have hnew := (refl s w).new (w.fromFile s' name text file mtime)
  have hadd := (refl s w).addDocument (w.fromFile s' name text file mtime)
  have hfile : Stows s w
      ((w.addDocument (w.fromFile s' name text file mtime)).1.keepByFile s' file ⟨w.documents.length⟩).1 :=
    hadd.keep s' (.inr hnew) (fun _ => .inl rfl) fun _ => OrderedMap.get?_insertIfAbsent_cases _ file _ _
  exact hfile.keep s' (.inr hnew) (fun _ => OrderedMap.get?_insertIfAbsent_cases _ name _ _) fun _ => .inl rfl

theorem setDocument (w : World) (s' : SourceId) (name text tag : String) (e : Option ExecutableId) :
    Stows s w (w.setDocument s' name text tag e).1 := by
  obtain ⟨x, hx, -⟩ := exists_createDocument w s' name text tag e
  unfold World.setDocument
  rw [hx]
  have hinsert := (refl s w).insertNew (x := x) s' name
  cases w.cached? s' name with
  | none => exact hinsert
  | some old =>
      have hold := hinsert.of_ages (.modifyDocument old (Document.ages_invalidate _)) rfl
      refine of_ages (((hold.modifySource fun d hd => ?_).dropInFlow s' old).emit _)
        (ages_invalidateDependents _ s' name) (sources_invalidateDependents _ s' name)
      refine .inl (hd.of_dropped (fun _ => .inr rfl) fun file => ?_)
      exact (OrderedMap.get?_eraseValue_cases _ old file).imp_left And.left

theorem setDocumentIfAbsent (w : World) (s' : SourceId) (name text tag : String) (e : Option ExecutableId) :
    Stows s w (w.setDocumentIfAbsent s' name text tag e).1 := by
  obtain ⟨x, hx, -⟩ := exists_createDocument w s' name text tag e
  unfold World.setDocumentIfAbsent
  rw [hx]
  exact (refl s w).keepNew s' name

theorem renew (w : World) (s' : SourceId) (name : String) (d : DocumentId) : Stows s w (w.renew s' name d).1 := by
  have hdropped := ((refl s w).emit (.evicted name .invalid)).dropInFlow s' d
  unfold World.renew
  dsimp only
  split
  · exact hdropped.insertNew s' name
  · exact hdropped.addDocument _

theorem compile (w : World) (o : Draft) : Stows s w (w.compile o).1 :=
  Act.relates_compile (refl s) (fun _ _ _ h h' => h.trans h') (fun w e _ => (refl s w).emit e)
    (fun _ => .of_sources rfl (Nat.le_refl _)) (fun w s' _ _ _ _ => setDocument w s' _ _ _ _)
    (fun _ _ _ => .of_sources rfl (Nat.le_refl _)) w

theorem serve (w : World) (errand : Errand) : Stows s w (w.serve errand) := by
  cases errand with
  | invalidate d => exact (refl s w).of_ages (.modifyDocument d (Document.ages_invalidate _)) rfl
  | depend d name => exact (refl s w).of_ages (.modifyDocument d (Document.ages_addDependency _ name)) rfl
  | attach d e => exact (refl s w).of_ages (ages_attachExecutable w d e) (sources_attachExecutable w d e)
  | set s' name text tag e => exact setDocument w s' name text tag e
  | setIfAbsent s' name text tag e => exact setDocumentIfAbsent w s' name text tag e
  | compile o => exact compile w o
  | files tree => exact .of_sources rfl (Nat.le_refl _)

end Stows

theorem HasFiles.lt (h : w.HasFiles s) : s.index < w.sources.length := by
  obtain ⟨naming, interval, hstorage⟩ := h
  refine Nat.lt_of_not_le fun hle => ?_
  rw [source, List.getElem?_eq_none hle] at hstorage
  cases hstorage

theorem not_stores_evict (hs : s.index < w.sources.length) : ¬ (w.evict s d).Stores s d := by
  intro hd
  have hs₁ : s.index < (w.modifySource s fun source => source.forget d).sources.length := by
    simpa [modifySource] using hs
  have hdropped : ((w.modifySource s fun source => source.forget d).dropInFlow s d).Stores s d := hd
  unfold Stores dropInFlow at hdropped
  rw [source_modifySource _ hs₁, source_modifySource _ hs] at hdropped
  have hforgotten : ((w.source s).forget d).Stores d :=
    hdropped.of_dropped (fun _ => get?_dropReachable _ _ _ _) fun _ => .inr rfl
  exact hforgotten.of_forget.2 rfl

end World

namespace Move

open World

variable (w : World) {s : SourceId} (s' : SourceId) (name : String) (d : DocumentId)

theorem stows_afterNamed (valid : Bool) : w.Stows s (afterNamed w s' name d valid).world := by
  unfold afterNamed
  split
  · exact .refl s w
  · split
    · exact Stows.renew w s' name d
    · have hevict : w.Stows s (w.evict s' d) := .evict w s' d
      dsimp only
      split
      · exact hevict.keepNew s' name
      · exact hevict

theorem stows_afterReading (file : Files.Path) : w.Stows s (afterReading w s' name file).world := by
  unfold afterReading
  split
  · exact .refl s w
  · next text mtime _ =>
      dsimp only
      generalize ({ name, text, tag := _, timestamp := mtime, file := _, source := s', lastCheck := _ } : Document) = x
      have hadd : w.Stows s (w.addDocument x).1 := (Stows.refl s w).addDocument x
      have hfile : w.Stows s ((w.addDocument x).1.keepByFile s' file (w.addDocument x).2).1 :=
        hadd.keep s' (.inr ((Stows.refl s w).new x)) (fun _ => .inl rfl)
          fun _ => OrderedMap.get?_insertIfAbsent_cases _ file _ _
      refine hfile.keep s' ?_ (fun _ => OrderedMap.get?_insertIfAbsent_cases _ name _ _) fun _ => .inl rfl
      rw [keepByFile_snd]
      cases hd : ((w.addDocument x).1.source s').byFile.get? file with
      | none => exact .inr ((Stows.refl s w).new x)
      | some d =>
          refine .inl (.inr ⟨file, ?_⟩)
          have hs : s'.index < (w.addDocument x).1.sources.length := lt_of_byFile hd
          rw [byFile_keepByFile _ s' file _ hs, if_pos rfl, keepByFile_snd, hd]

theorem stows_afterCreating (isText : Bool) (compilation : Compilation) :
    w.Stows s (afterCreating w s' name d isText compilation).world := by
  have hcompile : w.Stows s (w.compile (draftOf w s' name d isText compilation)).1 := .compile w _
  unfold afterCreating
  split
  · exact .refl s w
  · split
    · next hc =>
        rw [hc] at hcompile
        exact hcompile
    · next hc =>
        rw [hc] at hcompile
        exact hcompile.of_ages (ages_attachExecutable _ d _) (sources_attachExecutable _ d _)

end Move

end ScriptedText
