import ScriptedText.Proofs.Engine.Course

/-!
What a source keeps by name goes together with what it keeps by file: two names of one file have one document, unless it is
invalid.
-/

namespace ScriptedText

open Relation

theorem OrderedMap.get?_eraseValue_cases {κ α : Type} [DecidableEq κ] [DecidableEq α] (m : OrderedMap κ α) (a : α) (k : κ) :
    (m.eraseValue a).1.get? k = none ∧ m.get? k = some a ∨ (m.eraseValue a).1.get? k = m.get? k := by
  have h := get?_eraseValue m a k
  split at h
  · next heq => exact .inl ⟨h, heq⟩
  · exact .inr h

theorem OrderedMap.get?_insert_cases {κ α : Type} [DecidableEq κ] (m : OrderedMap κ α) (k : κ) (a : α) (k' : κ) :
    (m.insert k a).get? k' = m.get? k' ∨ (m.insert k a).get? k' = some a := by
  have h := get?_insert m k a k'
  split at h
  · exact .inr h
  · exact .inl h

theorem OrderedMap.get?_insertIfAbsent_cases {κ α : Type} [DecidableEq κ] (m : OrderedMap κ α) (k : κ) (a : α) (k' : κ) :
    (m.insertIfAbsent k a).1.get? k' = m.get? k' ∨ (m.insertIfAbsent k a).1.get? k' = some a := by
  unfold insertIfAbsent
  cases m.get? k with
  | none => exact m.get?_insert_cases k a k'
  | some old => exact .inl rfl

namespace World

/-- A name has a document that is there, and if that is valid it is the one document of its file. -/
structure Matched (s : SourceId) (w : World) : Prop where
  file : ∀ file d, (w.source s).byFile.get? file = some d → (w.document d).file = some file
  lt : ∀ name d, w.cached? s name = some d → d.index < w.documents.length
  name : ∀ name d file, w.cached? s name = some d → (w.document d).file = some file →
    (w.document d).validity ≠ .invalid → (w.source s).byFile.get? file = some d

variable {w w' : World} {s s' : SourceId} {name : String} {d : DocumentId}

theorem source_modifySource_cases (w : World) (s' s : SourceId) (f : Source → Source) :
    (w.modifySource s' f).source s = w.source s ∨ s' = s ∧ (w.modifySource s' f).source s = f (w.source s) := by
  by_cases hs : s' = s
  · subst hs
    by_cases hlt : s'.index < w.sources.length
    · exact .inr ⟨rfl, source_modifySource f hlt⟩
    · exact .inl (source_modifySource_of_le f (Nat.le_of_not_lt hlt))
  · refine .inl ?_
    have hindex : s'.index ≠ s.index := by
      intro heq
      cases s
      cases s'
      exact hs (congrArg SourceId.mk heq)
    simp [modifySource, source, hindex]

theorem invalid_modifyDocument (h : ((w.modifyDocument d Document.invalidate).document d).file.isSome = true) :
    ((w.modifyDocument d Document.invalidate).document d).validity = .invalid := by
  have hlt : d.index < w.documents.length := by
    have hlt := lt_of_file h
    rwa [World.modifyDocument, List.length_modify] at hlt
  rw [document_modifyDocument w _ d hlt, if_pos rfl]
  rfl

theorem sources_recordDependency (w : World) (host : Host) (name : String) (c : ContextId) :
    (w.recordDependency host name c).sources = w.sources := by
  unfold recordDependency
  split
  · rfl
  · dsimp only
    split
    · split <;> rfl
    · rfl

namespace Matched

/-- Documents change, but not their files, and those that are invalid stay so. -/
theorem of_documents (h : w.Matched s) (hsource : w'.source s = w.source s)
    (hlength : w.documents.length ≤ w'.documents.length)
    (hfile : ∀ d, d.index < w.documents.length → (w'.document d).file = (w.document d).file)
    (hinvalid : ∀ d, (w.document d).validity = .invalid → (w'.document d).validity = .invalid) : w'.Matched s := by
  have hcached (name : String) : w'.cached? s name = w.cached? s name := congrArg (·.byName.get? name) hsource
  constructor
  · intro file d hd
    rw [hsource] at hd
    have hold := h.file file d hd
    exact (hfile d (lt_of_file (Option.isSome_of_eq_some hold))).trans hold
  · intro name d hd
    exact Nat.lt_of_lt_of_le (h.lt name d ((hcached name).symm.trans hd)) hlength
  · intro name d file hd hdfile hvalid
    rw [hcached] at hd
    rw [hsource]
    exact h.name name d file hd ((hfile d (h.lt name d hd)).symm.trans hdfile) fun hd => hvalid (hinvalid d hd)

theorem of_ages (h : w.Matched s) (hages : w.Ages w') (hsource : w'.source s = w.source s) : w'.Matched s := by
  refine h.of_documents hsource hages.documents (fun d hd => ?_) fun d => hages.invalid
  rw [(hages.document d hd).same]

theorem of_stock (h : w.Matched s) (hstock : w'.stock = w.stock) : w'.Matched s := by
  have hsources : w'.sources = w.sources := congrArg Stock.sources hstock
  have hdocuments : w'.documents = w.documents := congrArg Stock.documents hstock
  exact h.of_ages (.of_eq hsources hdocuments) (by simp [source, hsources])

theorem checks (h : w.Matched s) (hchecks : w.Checks w') : w'.Matched s :=
  h.of_documents (hchecks.rechecks.source_eq s) (Nat.le_of_eq hchecks.rechecks.length.symm)
    (fun d _ => hchecks.rechecks.file_eq d) hchecks.invalid

/-- Names and files are dropped. A file is dropped from a document only if that is invalid. -/
theorem drop (h : w.Matched s) {f : Source → Source}
    (hname : ∀ name, (f (w.source s)).byName.get? name = none ∨ (f (w.source s)).byName.get? name = w.cached? s name)
    (hfile : ∀ file, (f (w.source s)).byFile.get? file = (w.source s).byFile.get? file ∨
      (f (w.source s)).byFile.get? file = none ∧
        ∃ d, (w.source s).byFile.get? file = some d ∧ (w.document d).validity = .invalid) :
    (w.modifySource s' f).Matched s := by
  rcases source_modifySource_cases w s' s f with hsource | ⟨-, hsource⟩
  · exact h.of_documents hsource (Nat.le_refl _) (fun _ _ => rfl) fun _ => id
  · have hold {name : String} {d : DocumentId} (hd : (w.modifySource s' f).cached? s name = some d) :
        w.cached? s name = some d := by
      unfold cached? at hd
      rw [hsource] at hd
      rcases hname name with hnone | heq
      · cases hnone.symm.trans hd
      · exact heq.symm.trans hd
    constructor
    · intro file d hd
      rw [hsource] at hd
      rcases hfile file with heq | ⟨hnone, -⟩
      · exact h.file file d (heq ▸ hd)
      · cases hnone.symm.trans hd
    · exact fun name d hd => h.lt name d (hold hd)
    · intro name d file hd hdfile hvalid
      rw [hsource]
      have hkept := h.name name d file (hold hd) hdfile hvalid
      rcases hfile file with heq | ⟨-, x, hx, hinvalid⟩
      · exact heq.trans hkept
      · cases hkept.symm.trans hx
        exact absurd hinvalid hvalid

/-- A document is kept under one more name. -/
theorem keep (h : w.Matched s) {f : Source → Source} (hbyFile : (f (w.source s')).byFile = (w.source s').byFile)
    (hname : ∀ other, (f (w.source s')).byName.get? other = w.cached? s' other ∨
      (f (w.source s')).byName.get? other = some d)
    (hd : s' = s → d.index < w.documents.length ∧
      ∀ file, (w.document d).file = some file → (w.source s').byFile.get? file = some d) :
    (w.modifySource s' f).Matched s := by
  rcases source_modifySource_cases w s' s f with hsource | ⟨rfl, hsource⟩
  · exact h.of_documents hsource (Nat.le_refl _) (fun _ _ => rfl) fun _ => id
  · have hold {other : String} {x : DocumentId} (hx : (w.modifySource s' f).cached? s' other = some x) :
        w.cached? s' other = some x ∨ x = d := by
      unfold cached? at hx
      rw [hsource] at hx
      rcases hname other with heq | heq
      · exact .inl (heq.symm.trans hx)
      · cases heq.symm.trans hx
        exact .inr rfl
    constructor
    · intro file x hx
      rw [hsource, hbyFile] at hx
      exact h.file file x hx
    · intro other x hx
      rcases hold hx with hx | rfl
      · exact h.lt other x hx
      · exact (hd rfl).1
    · intro other x file hx hfile hvalid
      rw [hsource, hbyFile]
      rcases hold hx with hx | rfl
      · exact h.name other x file hx hfile hvalid
      · exact (hd rfl).2 file hfile

theorem emit (h : w.Matched s) (e : Event) : (w.emit e).Matched s := h.of_stock rfl

theorem dropInFlow (h : w.Matched s) (s' : SourceId) (d : DocumentId) : (w.dropInFlow s' d).Matched s :=
  h.drop (fun _ => get?_dropReachable _ _ _ _) fun _ => .inl rfl

theorem modifyDocument (h : w.Matched s) (d : DocumentId) {f : Document → Document}
    (hf : (w.document d).Ages (f (w.document d))) : (w.modifyDocument d f).Matched s :=
  h.of_ages (.modifyDocument d hf) rfl

theorem attachExecutable (h : w.Matched s) (d : DocumentId) (e : ExecutableId) : (w.attachExecutable d e).1.Matched s :=
  h.of_ages (ages_attachExecutable w d e) (by simp [source, sources_attachExecutable])

theorem createDocument (h : w.Matched s) (s' : SourceId) (name text tag : String) (e : Option ExecutableId) :
    (w.createDocument s' name text tag e).1.Matched s := by
  refine h.of_ages (ages_createDocument w s' name text tag e) ?_
  obtain ⟨x, hx, -⟩ := exists_createDocument w s' name text tag e
  rw [hx]
  rfl

theorem invalidateDependents (h : w.Matched s) (s' : SourceId) (name : String) :
    (w.invalidateDependents s' name).Matched s :=
  h.of_ages (ages_invalidateDependents w s' name) (by simp [source, sources_invalidateDependents])

section fresh

variable {x : Document} (h : (w.addDocument x).1.Matched s) (hx : x.file = none) (s' : SourceId) (name : String)

theorem new_lt (w : World) (x : Document) : (w.addDocument x).2.index < (w.addDocument x).1.documents.length := by
  simp [World.addDocument]

include hx in
theorem not_file_of_new (w : World) (file : Files.Path) :
    ((w.addDocument x).1.document (w.addDocument x).2).file ≠ some file := by
  rw [document_addDocument, hx]
  exact nofun

include h hx

theorem insertNew : ((w.addDocument x).1.modifySource s' fun source =>
    { source with byName := source.byName.insert name (w.addDocument x).2 }).Matched s :=
  h.keep rfl (fun other => OrderedMap.get?_insert_cases _ name _ other)
    fun _ => ⟨new_lt w x, fun file hfile => absurd hfile (not_file_of_new hx w file)⟩

theorem keepNew : ((w.addDocument x).1.keepByName s' name (w.addDocument x).2).1.Matched s :=
  h.keep rfl (fun other => OrderedMap.get?_insertIfAbsent_cases _ name _ other)
    fun _ => ⟨new_lt w x, fun file hfile => absurd hfile (not_file_of_new hx w file)⟩

end fresh

theorem evict (h : w.Matched s) (s' : SourceId) (hd : (w.document d).validity = .invalid) : (w.evict s' d).Matched s := by
  have hforget : (w.modifySource s' fun source => source.forget d).Matched s :=
    h.drop (fun name => (OrderedMap.get?_eraseValue_cases _ d name).imp_left And.left) fun file =>
      (OrderedMap.get?_eraseValue_cases _ d file).symm.imp_right fun ⟨hnone, hsome⟩ => ⟨hnone, d, hsome, hd⟩
  exact (hforget.dropInFlow s' d).emit _

theorem setDocument (h : w.Matched s) (s' : SourceId) (name text tag : String) (e : Option ExecutableId) :
    (w.setDocument s' name text tag e).1.Matched s := by
  have hcreate := h.createDocument s' name text tag e
  obtain ⟨x, hx, -, hfile, -⟩ := exists_createDocument w s' name text tag e
  unfold World.setDocument
  rw [hx] at hcreate ⊢
  have hinsert := hcreate.insertNew hfile s' name
  cases w.cached? s' name with
  | none => exact hinsert
  | some old =>
      have hold := hinsert.modifyDocument old (Document.ages_invalidate _)
      refine Matched.invalidateDependents (((hold.drop ?_ fun file => ?_).dropInFlow s' old).emit _) s' name
      · exact fun _ => .inr rfl
      · refine (OrderedMap.get?_eraseValue_cases _ old file).symm.imp_right fun ⟨hnone, hsome⟩ => ⟨hnone, old, hsome, ?_⟩
        exact invalid_modifyDocument (Option.isSome_of_eq_some (hold.file file old hsome))

theorem setDocumentIfAbsent (h : w.Matched s) (s' : SourceId) (name text tag : String) (e : Option ExecutableId) :
    (w.setDocumentIfAbsent s' name text tag e).1.Matched s := by
  have hcreate := h.createDocument s' name text tag e
  obtain ⟨x, hx, -, hfile, -⟩ := exists_createDocument w s' name text tag e
  unfold World.setDocumentIfAbsent
  rw [hx] at hcreate ⊢
  exact hcreate.keepNew hfile s' name

theorem renew (h : w.Matched s) (s' : SourceId) (name : String) (d : DocumentId) : (w.renew s' name d).1.Matched s := by
  have hdropped := (h.emit (.evicted name .invalid)).dropInFlow s' d
  have hcreate := hdropped.createDocument s' name (w.document d).text (w.document d).tag none
  unfold World.renew
  dsimp only
  split
  · exact hcreate.insertNew rfl s' name
  · exact hcreate

theorem reenter (h : w.Matched s) (s' : SourceId) (name : String) (hd : (w.document d).validity = .invalid) :
    (w.reenter s' name d).Matched s := by
  have hcreate := (h.evict s' hd).createDocument s' name (w.document d).text (w.document d).tag none
  exact hcreate.keepNew rfl s' name

theorem keepFile (h : w.Matched s) {file : Files.Path} {text : String} {mtime : Int} (hs : s'.index < w.sources.length)
    (hfile : (w.source s').byFile.get? file = none) : (w.keepFile s' name text file mtime).Matched s := by
  let x := w.fromFile s' name text file mtime
  let d : DocumentId := ⟨w.documents.length⟩
  let w₁ := (w.addDocument x).1
  have hx : w₁.document d = x := document_addDocument w x
  have hold {d : DocumentId} (hd : d.index < w.documents.length) : w₁.document d = w.document d :=
    document_of_grown (List.prefix_append _ _) hd
  have hbyFile := byFile_keepByFile w₁ s' file d hs
  rw [keepByFile_addDocument x hfile] at hbyFile
  have hkept : (w₁.keepByFile s' file d).1.Matched s := by
    rcases source_modifySource_cases w₁ s' s
      (fun source => { source with byFile := ((w₁.source s').byFile.insertIfAbsent file d).1 }) with hsource | ⟨rfl, -⟩
    · exact h.of_documents hsource (by simp [World.keepByFile, modifySource, w₁, World.addDocument])
        (fun d hd => congrArg Document.file (hold hd))
        fun d hd => (congrArg Document.validity (hold (lt_of_invalid hd))).trans hd
    · have hcached (name : String) : (w₁.keepByFile s' file d).1.cached? s' name = w.cached? s' name :=
        cached?_keepByFile w₁ s' file d name
      constructor
      · intro file' y hy
        rw [hbyFile] at hy
        split at hy
        · next heq =>
            cases hy
            subst heq
            exact congrArg Document.file hx
        · have hyfile := h.file file' y hy
          exact (congrArg Document.file (hold (lt_of_file (Option.isSome_of_eq_some hyfile)))).trans hyfile
      · intro name y hy
        exact Nat.lt_of_lt_of_le (h.lt name y ((hcached name).symm.trans hy)) (List.prefix_append _ _).length_le
      · intro name y file' hy hyfile hvalid
        rw [hcached] at hy
        have hlt := h.lt name y hy
        have hyfile : (w₁.document y).file = some file' := hyfile
        have hvalid : (w₁.document y).validity ≠ .invalid := hvalid
        rw [hold hlt] at hyfile hvalid
        have hmatch := h.name name y file' hy hyfile hvalid
        rw [hbyFile, if_neg]
        · exact hmatch
        · rintro rfl
          cases hfile.symm.trans hmatch
  refine hkept.keep rfl (fun other => OrderedMap.get?_insertIfAbsent_cases _ name _ other) fun _ => ⟨?_, fun file' hf => ?_⟩
  · exact new_lt w x
  · have hsame : file = file' := Option.some.inj ((congrArg Document.file hx).symm.trans hf)
    rw [hbyFile, if_pos hsame.symm]

/-- Whatever a lookup does keeps the two together. -/
theorem chore (h : w.Matched s) (hchore : Chore s' w w') : w'.Matched s := by
  cases hchore with
  | check hchecks => exact h.checks hchecks
  | renew _ _ _ => exact h.renew s' _ _
  | evict _ hinvalid _ => exact h.evict s' hinvalid
  | reenter _ _ hinvalid _ => exact h.reenter s' _ hinvalid
  | @keep name file d _ _ hd _ =>
      refine h.keep rfl (fun other => OrderedMap.get?_insertIfAbsent_cases _ name d other) ?_
      rintro rfl
      have hfile := h.file file d hd
      refine ⟨lt_of_file (Option.isSome_of_eq_some hfile), fun file' hfile' => ?_⟩
      cases hfile.symm.trans hfile'
      exact hd
  | read _ hfiled hfile _ => exact h.keepFile hfiled.lt hfile

theorem compile (h : w.Matched s) (o : Draft) : (w.compile o).1.Matched s :=
  Act.relates_compile (R := fun w w' => w.Matched s → w'.Matched s) (fun _ => id) (fun _ _ _ h h' => h' ∘ h)
    (fun _ e _ h => h.emit e) (fun _ h => h.of_ages (.of_eq rfl rfl) rfl) (fun _ s' _ _ _ _ h => h.setDocument s' _ _ _ _)
    (fun _ _ _ h => h.of_ages (.of_eq rfl rfl) rfl) w h

theorem afterCreating (h : w.Matched s) (s' : SourceId) (name : String) (d : DocumentId) (isText : Bool)
    (compilation : Compilation) : (Move.afterCreating w s' name d isText compilation).world.Matched s := by
  have hcompile := h.compile (Move.draftOf w s' name d isText compilation)
  unfold Move.afterCreating
  split
  · exact h
  · split
    · next hc =>
        rw [hc] at hcompile
        exact hcompile
    · next hc =>
        rw [hc] at hcompile
        exact hcompile.attachExecutable d _

theorem recordDependency (h : w.Matched s) (host : Host) (name : String) (c : ContextId) :
    (w.recordDependency host name c).Matched s := by
  refine h.of_ages (ages_recordDependency w name host c) ?_
  unfold source
  rw [sources_recordDependency]

theorem chores (h : w.Matched s) (hchores : ReflTransGen (Chore s') w w') : w'.Matched s := by
  induction hchores with
  | refl => exact h
  | tail _ hchore ih => exact ih.chore hchore

theorem stride {id : TaskId} {P : World → Task → Prop} (h : w.Matched s) (hstride : Stride id P w w') :
    w'.Matched s := by
  cases hstride with
  | aside hstock => exact h.of_stock hstock
  | check hends => exact h.checks (checks_of_ends hends)
  | lookup hends => exact h.chores (lookup_of_ends hends).chores
  | create hends _ => exact (h.chores (lookup_of_ends hends).chores).afterCreating _ _ _ _ _
  | record _ _ => exact h.recordDependency _ _ _

theorem serve (h : w.Matched s) (errand : Errand) : (w.serve errand).Matched s := by
  cases errand with
  | invalidate d => exact h.modifyDocument d (Document.ages_invalidate _)
  | depend d name => exact h.modifyDocument d (Document.ages_addDependency _ name)
  | attach d e => exact h.attachExecutable d e
  | set s' name text tag e => exact h.setDocument s' name text tag e
  | setIfAbsent s' name text tag e => exact h.setDocumentIfAbsent s' name text tag e
  | compile o => exact h.compile o
  | files tree => exact h.of_ages (.of_eq rfl rfl) rfl

end Matched

theorem keeps_matched (s : SourceId) : Course.Keeps (fun _ _ => True) (fun _ _ => True) (Matched s) where
  stride hstride h := h.stride hstride
  serve _ h := h.serve _
  clock h := h.of_ages (.of_eq rfl rfl) rfl

/-- The source keeps nothing. -/
def Empty (s : SourceId) (w : World) : Prop :=
  (∀ name, w.cached? s name = none) ∧ ∀ file, (w.source s).byFile.get? file = none

theorem Matched.of_empty (h : w.Empty s) : w.Matched s where
  file file _ hd := nomatch (h.2 file).symm.trans hd
  lt name _ hd := nomatch (h.1 name).symm.trans hd
  name name _ _ hd := nomatch (h.1 name).symm.trans hd

end World

end ScriptedText
