import ScriptedText.Engine.Cache
import ScriptedText.Proofs.OrderedMap

/-!
What registering a document does to the tables of a world: it adds one document, which is then found under the name
or was dropped together with the one that it replaced, and finds nothing new under any other name.
-/

namespace ScriptedText.World

variable {w w₁ w₂ : World} {s : SourceId} {name other text tag : String} {e : Option ExecutableId} {d : DocumentId}

theorem source_modifySource (f : Source → Source) (h : s.index < w.sources.length) :
    (w.modifySource s f).source s = f (w.source s) := by
  simp [modifySource, source, List.getElem?_eq_getElem h]

theorem source_modifySource_of_le (f : Source → Source) (h : w.sources.length ≤ s.index) :
    (w.modifySource s f).source s = w.source s := by
  simp [modifySource, source, List.getElem?_eq_none h]

theorem source_of_le (h : w.sources.length ≤ s.index) : w.source s = default := by
  simp [source, List.getElem?_eq_none h]

theorem lt_of_cached? (h : w.cached? s name = some d) : s.index < w.sources.length := by
  apply Nat.lt_of_not_le
  intro hle
  rw [cached?, source_of_le hle] at h
  cases h

theorem lt_of_byFile {file : Files.Path} (h : (w.source s).byFile.get? file = some d) : s.index < w.sources.length := by
  apply Nat.lt_of_not_le
  intro hle
  rw [source_of_le hle] at h
  cases h

theorem name_modifyDocument {f : Document → Document} (hf : ∀ x, (f x).name = x.name) (d d' : DocumentId) :
    ((w.modifyDocument d f).document d').name = (w.document d').name := by
  unfold modifyDocument document
  simp only [List.getElem?_modify]
  cases w.documents[d'.index]? with
  | none => rfl
  | some x =>
      by_cases hd : d.index = d'.index
      · simp [hd, hf]
      · simp [hd]

/-- Nothing is added, no document gets another name, and at most some names are dropped from the cache. -/
structure Tidies (s : SourceId) (w w' : World) : Prop where
  sources : w'.sources.length = w.sources.length
  counter : w'.inFlowCount = w.inFlowCount
  executables : w'.executables = w.executables
  documents : w'.documents.length = w.documents.length
  names : ∀ d, (w'.document d).name = (w.document d).name
  cache : ∀ name, w'.cached? s name = none ∨ w'.cached? s name = w.cached? s name

namespace Tidies

theorem refl (s : SourceId) (w : World) : Tidies s w w := ⟨rfl, rfl, rfl, rfl, fun _ => rfl, fun _ => .inr rfl⟩

theorem trans (h₁ : Tidies s w w₁) (h₂ : Tidies s w₁ w₂) : Tidies s w w₂ where
  sources := h₂.sources.trans h₁.sources
  counter := h₂.counter.trans h₁.counter
  executables := h₂.executables.trans h₁.executables
  documents := h₂.documents.trans h₁.documents
  names d := (h₂.names d).trans (h₁.names d)
  cache name := by
    rcases h₂.cache name with h | h
    · exact .inl h
    · rw [h]
      exact h₁.cache name

theorem modifyDocument {f : Document → Document} (hf : ∀ x, (f x).name = x.name) (s : SourceId) (w : World)
    (d : DocumentId) : Tidies s w (w.modifyDocument d f) :=
  ⟨rfl, rfl, rfl, by simp [World.modifyDocument], name_modifyDocument hf d, fun _ => .inr rfl⟩

theorem modifySource {f : Source → Source}
    (hf : ∀ x name, (f x).byName.get? name = none ∨ (f x).byName.get? name = x.byName.get? name) (s : SourceId)
    (w : World) : Tidies s w (w.modifySource s f) := by
  refine ⟨by simp [World.modifySource], rfl, rfl, rfl, fun _ => rfl, fun name => ?_⟩
  unfold cached?
  by_cases hs : s.index < w.sources.length
  · rw [source_modifySource f hs]
    exact hf _ name
  · rw [source_modifySource_of_le f (Nat.le_of_not_lt hs)]
    exact .inr rfl

end Tidies

theorem get?_dropReachable (next : DocumentId → List String) (names : List String)
    (m : OrderedMap String DocumentId) (name : String) :
    (dropReachable next names m).get? name = none ∨ (dropReachable next names m).get? name = m.get? name := by
  fun_induction dropReachable next names m with
  | case1 m => exact .inr rfl
  | case2 m dropped rest d hd ih =>
      rcases ih with h | h
      · exact .inl h
      · rw [h, OrderedMap.get?_erase]
        by_cases hn : name = dropped
        · exact .inl (if_pos hn)
        · exact .inr (if_neg hn)
  | case3 m dropped rest hd ih => exact ih

theorem tidies_dropInFlow (s : SourceId) (w : World) (d : DocumentId) : Tidies s w (w.dropInFlow s d) :=
  Tidies.modifySource (fun _ name => get?_dropReachable _ _ _ name) s w

theorem get?_dropReachable_of_ne (next : DocumentId → List String) (names : List String)
    (m : OrderedMap String DocumentId) (hnext : ∀ d, name ∉ next d) (hnames : name ∉ names) :
    (dropReachable next names m).get? name = m.get? name := by
  fun_induction dropReachable next names m with
  | case1 m => rfl
  | case2 m dropped rest d hd ih =>
      have hne : name ≠ dropped := fun heq => hnames (heq ▸ List.mem_cons_self ..)
      rw [ih, OrderedMap.get?_erase, if_neg hne]
      exact fun hmem => (List.mem_append.1 hmem).elim (hnext d) fun hrest => hnames (List.mem_cons_of_mem _ hrest)
  | case3 m dropped rest hd ih => exact ih fun hrest => hnames (List.mem_cons_of_mem _ hrest)

theorem cached?_dropInFlow_of_not (h : Document.isInFlow name = false) (w : World) (s : SourceId) (d : DocumentId) :
    (w.dropInFlow s d).cached? s name = w.cached? s name := by
  have hnot (x : Document) : name ∉ x.inFlowDependencies :=
    fun hmem => nomatch h.symm.trans (List.mem_filter.1 hmem).2
  unfold dropInFlow cached?
  by_cases hs : s.index < w.sources.length
  · rw [source_modifySource _ hs]
    exact get?_dropReachable_of_ne _ _ _ (fun d => hnot _) (hnot _)
  · rw [source_modifySource_of_le _ (Nat.le_of_not_lt hs)]

theorem tidies_invalidateDependents (s : SourceId) (w : World) (name : String) :
    Tidies s w (w.invalidateDependents s name) := by
  unfold invalidateDependents
  generalize (w.source s).byName.values = ds
  induction ds generalizing w with
  | nil => exact .refl s w
  | cons d ds ih =>
      refine Tidies.trans ?_ (ih _)
      dsimp only
      split
      · refine .modifyDocument ?_ s w d
        intro x
        rfl
      · exact .refl s w

theorem name_addDependencies (x : Document) (names : List String) : (x.addDependencies names).name = x.name := by
  unfold Document.addDependencies
  induction names generalizing x with
  | nil => rfl
  | cons n names ih =>
      rw [List.foldl_cons, ih]
      unfold Document.addDependency
      split <;> rfl

theorem tidies_attachExecutable (s : SourceId) (w : World) (d : DocumentId) (e : ExecutableId) :
    Tidies s w (w.attachExecutable d e).1 := by
  unfold attachExecutable
  split
  · exact .refl s w
  · refine .modifyDocument ?_ s w d
    intro x
    exact name_addDependencies x (w.executable e).dependencies

/-- The name is found to have a document that is not among the old ones, or to have lost the one that it had. -/
def Changed (s : SourceId) (name : String) (w w' : World) : Prop :=
  (∃ d, w'.cached? s name = some d ∧ w.documents.length ≤ d.index ∧ (w'.document d).name = name) ∨
    (w'.cached? s name = none ∧ w.cached? s name ≠ none)

/-- One document is added, under a name; at most that name is found to have another document. -/
structure Registers (s : SourceId) (name : String) (w w' : World) : Prop where
  sources : w'.sources.length = w.sources.length
  counter : w'.inFlowCount = w.inFlowCount
  executables : w'.executables = w.executables
  documents : w'.documents.length = w.documents.length + 1
  others : ∀ other, other ≠ name → w'.cached? s other = none ∨ w'.cached? s other = w.cached? s other
  own : s.index < w.sources.length → Changed s name w w'

theorem document_addDocument (w : World) (x : Document) : (w.addDocument x).1.document (w.addDocument x).2 = x := by
  simp [addDocument, document]

theorem tidies_createDocument (s : SourceId) (w : World) (name text tag : String) (e : Option ExecutableId) :
    ∃ x : Document, x.name = name ∧ (w.createDocument s name text tag e).2 = ⟨w.documents.length⟩ ∧
      Tidies s (w.addDocument x).1 (w.createDocument s name text tag e).1 := by
  refine ⟨{ name, text, tag, timestamp := w.clock, source := s, lastCheck := w.clock }, rfl, ?_⟩
  cases e with
  | none => exact ⟨rfl, .refl s _⟩
  | some e => exact ⟨rfl, tidies_attachExecutable s _ _ e⟩

theorem cached?_insert (w : World) (d : DocumentId) (hs : s.index < w.sources.length) (other : String) :
    (w.modifySource s fun x => { x with byName := x.byName.insert name d }).cached? s other =
      if other = name then some d else w.cached? s other := by
  unfold cached?
  rw [source_modifySource _ hs]
  exact OrderedMap.get?_insert _ name d other

theorem cached?_insert_of_ne (w : World) (d : DocumentId) (h : other ≠ name) :
    (w.modifySource s fun x => { x with byName := x.byName.insert name d }).cached? s other = w.cached? s other := by
  by_cases hs : s.index < w.sources.length
  · rw [cached?_insert w d hs, if_neg h]
  · unfold cached?
    rw [source_modifySource_of_le _ (Nat.le_of_not_lt hs)]

namespace Registers

theorem insert {x : Document} (hx : x.name = name) (h : Tidies s (w.addDocument x).1 w₁) :
    Registers s name w
      (w₁.modifySource s fun src => { src with byName := src.byName.insert name ⟨w.documents.length⟩ }) where
  sources := by
    rw [modifySource, List.length_modify]
    exact h.sources
  counter := h.counter
  executables := h.executables
  documents := by
    rw [modifySource, h.documents]
    simp [addDocument]
  others other ho := by
    rw [cached?_insert_of_ne w₁ _ ho]
    exact h.cache other
  own hs := by
    have hs₁ : s.index < w₁.sources.length := h.sources ▸ hs
    refine .inl ⟨⟨w.documents.length⟩, ?_, Nat.le_refl _, ?_⟩
    · rw [cached?_insert w₁ _ hs₁, if_pos rfl]
    · exact (h.names ⟨w.documents.length⟩).trans ((congrArg Document.name (document_addDocument w x)).trans hx)

/-- Names that are dropped afterwards leave the same picture, if the name had a document before. -/
theorem tidied (h : Registers s name w w₁) (ht : Tidies s w₁ w₂) (hold : w.cached? s name ≠ none) :
    Registers s name w w₂ where
  sources := ht.sources.trans h.sources
  counter := ht.counter.trans h.counter
  executables := ht.executables.trans h.executables
  documents := ht.documents.trans h.documents
  others other ho := by
    rcases ht.cache other with hc | hc
    · exact .inl hc
    · rw [hc]
      exact h.others other ho
  own hs := by
    rcases ht.cache name with hc | hc
    · exact .inr ⟨hc, hold⟩
    · rcases h.own hs with ⟨d, hd, hle, hn⟩ | ⟨hnone, -⟩
      · exact .inl ⟨d, hc.trans hd, hle, (ht.names d).trans hn⟩
      · exact .inr ⟨hc.trans hnone, hold⟩

end Registers

theorem tidies_emit (s : SourceId) (w : World) (e : Event) : Tidies s w (w.emit e) :=
  ⟨rfl, rfl, rfl, rfl, fun _ => rfl, fun _ => .inr rfl⟩

theorem registers_setDocument (s : SourceId) (w : World) (name text tag : String) (e : Option ExecutableId) :
    Registers s name w (w.setDocument s name text tag e).1 := by
  obtain ⟨x, hx, hd, hcreate⟩ := tidies_createDocument s w name text tag e
  unfold setDocument
  generalize w.createDocument s name text tag e = created at hd hcreate
  obtain ⟨w₁, d⟩ := created
  subst hd
  have hins : Registers s name w _ := .insert hx hcreate
  cases hold : w.cached? s name with
  | none => exact hins
  | some old =>
      have hne : w.cached? s name ≠ none := by simp [hold]
      have hinvalid (w : World) : Tidies s w (w.modifyDocument old Document.invalidate) :=
        .modifyDocument (by intro; rfl) s w old
      have hfile (w : World) :
          Tidies s w (w.modifySource s fun src => { src with byFile := (src.byFile.eraseValue old).1 }) :=
        .modifySource (by intros; exact .inr rfl) s w
      have hevict (w : World) : Tidies s w ((w.dropInFlow s old).emit (.evicted name .replaced)) :=
        (tidies_dropInFlow s w old).trans (tidies_emit s _ _)
      exact hins.tidied
        ((hinvalid _).trans <| (hfile _).trans <| (hevict _).trans <| tidies_invalidateDependents s _ name) hne

/-! What a source keeps by name and by file does not depend on each other. -/

section keeping

variable (w : World) (s : SourceId) (name : String) (file : Files.Path) (d : DocumentId)

theorem byFile_modifyByName (f : Source → OrderedMap String DocumentId) :
    ((w.modifySource s fun source => { source with byName := f source }).source s).byFile = (w.source s).byFile := by
  by_cases hs : s.index < w.sources.length
  · rw [source_modifySource _ hs]
  · rw [source_modifySource_of_le _ (Nat.le_of_not_lt hs)]

theorem cached?_keepByFile (other : String) : (w.keepByFile s file d).1.cached? s other = w.cached? s other := by
  unfold keepByFile cached?
  dsimp only
  by_cases hs : s.index < w.sources.length
  · rw [source_modifySource _ hs]
  · rw [source_modifySource_of_le _ (Nat.le_of_not_lt hs)]

theorem cached?_keepByName (hs : s.index < w.sources.length) (other : String) :
    (w.keepByName s name d).1.cached? s other =
      if other = name then some (w.keepByName s name d).2 else w.cached? s other := by
  unfold keepByName cached?
  dsimp only
  rw [source_modifySource _ hs]
  exact OrderedMap.get?_insertIfAbsent _ name d other

theorem byFile_keepByFile (hs : s.index < w.sources.length) (file' : Files.Path) :
    ((w.keepByFile s file d).1.source s).byFile.get? file' =
      if file' = file then some (w.keepByFile s file d).2 else (w.source s).byFile.get? file' := by
  unfold keepByFile
  dsimp only
  rw [source_modifySource _ hs]
  exact OrderedMap.get?_insertIfAbsent _ file d file'

theorem keepByName_snd : (w.keepByName s name d).2 = (w.cached? s name).getD d :=
  OrderedMap.insertIfAbsent_snd _ name d

theorem keepByFile_snd : (w.keepByFile s file d).2 = ((w.source s).byFile.get? file).getD d :=
  OrderedMap.insertIfAbsent_snd _ file d

end keeping

end ScriptedText.World
