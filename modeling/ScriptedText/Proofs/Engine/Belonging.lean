import ScriptedText.Proofs.Engine.Stowing

/-!
Documents that are made from scriptlet bodies belong to the document whose executable they were made for. What an operation
of a source does to the two of them together.
-/

namespace ScriptedText.World

section dropping

variable {next : DocumentId → List String} {names : List String} {m : OrderedMap String DocumentId} {name : String}
  {d : DocumentId}

theorem get?_dropReachable_of_mem (h : name ∈ names) : (dropReachable next names m).get? name = none := by
  fun_induction dropReachable next names m with
  | case1 m => cases h
  | case2 m dropped rest d hd ih =>
      rcases List.mem_cons.1 h with rfl | hrest
      · have herased : (m.erase name).get? name = none := by rw [OrderedMap.get?_erase, if_pos rfl]
        rcases get?_dropReachable next (next d ++ rest) (m.erase name) name with hnone | hsame
        · exact hnone
        · exact hsame.trans herased
      · exact ih (List.mem_append_right _ hrest)
  | case3 m dropped rest hd ih =>
      rcases List.mem_cons.1 h with rfl | hrest
      · rcases get?_dropReachable next rest m name with hnone | hsame
        · exact hnone
        · exact hsame.trans hd
      · exact ih hrest

/-- With a document goes all that it leads to. -/
theorem get?_dropReachable_of_next {other : String} (hd : m.get? name = some d)
    (hgone : (dropReachable next names m).get? name = none) (h : other ∈ next d) :
    (dropReachable next names m).get? other = none := by
  fun_induction dropReachable next names m with
  | case1 m => cases hd.symm.trans hgone
  | case2 m dropped rest d' hd' ih =>
      by_cases hname : name = dropped
      · subst hname
        cases hd.symm.trans hd'
        exact get?_dropReachable_of_mem (List.mem_append_left _ h)
      · exact ih (by rwa [OrderedMap.get?_erase, if_neg hname]) hgone
  | case3 m dropped rest _ ih => exact ih hd hgone

/-- What is dropped was to be dropped, or is led to from there. -/
theorem of_get?_dropReachable {Q : String → Prop} (hnames : ∀ name ∈ names, Q name)
    (hnext : ∀ name d, Q name → m.get? name = some d → ∀ other ∈ next d, Q other) (hd : m.get? name = some d)
    (hgone : (dropReachable next names m).get? name = none) : Q name := by
  fun_induction dropReachable next names m with
  | case1 m => cases hd.symm.trans hgone
  | case2 m dropped rest d' hd' ih =>
      have hdropped := hnames dropped (List.mem_cons_self ..)
      by_cases hname : name = dropped
      · exact hname ▸ hdropped
      · refine ih (fun other hother => ?_) (fun other x hother hx => ?_) (by rwa [OrderedMap.get?_erase, if_neg hname]) hgone
        · rcases List.mem_append.1 hother with hmem | hmem
          · exact hnext dropped d' hdropped hd' other hmem
          · exact hnames other (List.mem_cons_of_mem _ hmem)
        · rw [OrderedMap.get?_erase] at hx
          split at hx
          · cases hx
          · exact hnext other x hother hx
  | case3 m dropped rest _ ih => exact ih (fun other hother => hnames other (List.mem_cons_of_mem _ hother)) hnext hd hgone

/-- What is dropped is on the list, or a document that is dropped leads there. -/
theorem exists_of_get?_dropReachable (hd : m.get? name = some d) (hgone : (dropReachable next names m).get? name = none) :
    name ∈ names ∨
      ∃ other x, m.get? other = some x ∧ (dropReachable next names m).get? other = none ∧ name ∈ next x := by
  refine of_get?_dropReachable (Q := fun name => name ∈ names ∨ ∃ other x, m.get? other = some x ∧
    (dropReachable next names m).get? other = none ∧ name ∈ next x) (fun _ => .inl) (fun other x hother hx name' hname' => ?_)
      hd hgone
  refine .inr ⟨other, x, hx, ?_, hname'⟩
  rcases hother with hmem | ⟨other', x', hx', hgone', hmem⟩
  · exact get?_dropReachable_of_mem hmem
  · exact get?_dropReachable_of_next hx' hgone' hmem

end dropping

/-- The names of the scriptlet bodies that the document's executable was made from. -/
def bodies (w : World) (d : DocumentId) : List String :=
  match (w.document d).executable with
  | some e => (w.executable e).dependencies
  | none => []

/-- A document depends on those of its bodies and on no others, and a body is that of one document only. Bodies come
after what they stand in. -/
structure Lineage (w : World) : Prop where
  made : ∀ d e, (w.document d).executable = some e → e.index < w.executables.length
  given : ∀ d, ∀ name ∈ w.bodies d, ∃ k < w.inFlowCount, name = Document.inFlowName k
  apart : ∀ d d', ∀ name ∈ w.bodies d, name ∈ w.bodies d' → d = d'
  recorded : ∀ d name, name ∈ (w.document d).inFlowDependencies ↔ name ∈ w.bodies d
  numbered : ∀ d k, (w.document d).name = Document.inFlowName k → k < w.inFlowCount
  ordered : ∀ d j k, (w.document d).name = Document.inFlowName j → Document.inFlowName k ∈ w.bodies d → j < k

/-- The document may be kept under the name: under any other than its own only if it comes from a file, and under that
of a body only if it does not. -/
structure FitsName (w : World) (s : SourceId) (name : String) (d : DocumentId) : Prop where
  housed : w.Housed s d
  own : (w.document d).file = none → (w.document d).name = name
  fileless : (∃ k, name = Document.inFlowName k) → (w.document d).file = none
  memory : w.IsMemory s → (w.document d).file = none

structure FitsFile (w : World) (s : SourceId) (file : Files.Path) (d : DocumentId) : Prop where
  housed : w.Housed s d
  file : (w.document d).file = some file

structure Shelved (w : World) : Prop where
  name : ∀ s name d, w.cached? s name = some d → w.FitsName s name d
  file : ∀ s file d, (w.source s).byFile.get? file = some d → w.FitsFile s file d

/-- All bodies of valid documents are kept, but for holes, and what is kept under the name of a body belongs to a document
that is kept, unless it is loose. -/
structure Tended (hole loose : SourceId → String → Prop) (w : World) : Prop extends Lineage w, Shelved w where
  complete : ∀ s d, w.Stores s d → (w.document d).validity ≠ .invalid → ∀ name ∈ w.bodies d,
    (w.cached? s name).isSome = true ∨ hole s name
  owned : ∀ s name d, Document.isInFlow name = true → w.cached? s name = some d → (w.document d).file = none →
    loose s name ∨ ∃ x, w.Stores s x ∧ name ∈ w.bodies x

/-- Nothing has changed but what is known of the validity of documents, which other documents than their bodies they depend
on, and executables that no document has. -/
structure Steady (w w' : World) : Prop where
  sources : w'.sources.length = w.sources.length
  source : ∀ s, w'.source s = w.source s
  length : w'.documents.length = w.documents.length
  document : ∀ d, w'.document d = { w.document d with
    dependencies := (w'.document d).dependencies, validity := (w'.document d).validity
    lastCheck := (w'.document d).lastCheck }
  inFlowDependencies : ∀ d, (w'.document d).inFlowDependencies = (w.document d).inFlowDependencies
  invalid : ∀ d, (w.document d).validity = .invalid → (w'.document d).validity = .invalid
  executables : w.executables.length ≤ w'.executables.length
  dependencies : ∀ e, e.index < w.executables.length → (w'.executable e).dependencies = (w.executable e).dependencies
  counter : w.inFlowCount ≤ w'.inFlowCount

variable {w w' w₁ w₂ : World} {s s' : SourceId} {name other : String} {d d' x : DocumentId} {e : ExecutableId}
  {file : Files.Path} {hole hole' loose loose' : SourceId → String → Prop} {f : Source → Source} {y : Document}

theorem bodies_of_none (h : (w.document d).executable = none) : w.bodies d = [] := by
  unfold bodies
  rw [h]

theorem bodies_of_some (h : (w.document d).executable = some e) : w.bodies d = (w.executable e).dependencies := by
  unfold bodies
  rw [h]

namespace Lineage

variable (h : w.Lineage)

include h

theorem lt (hname : name ∈ w.bodies d) : d.index < w.documents.length :=
  lt_of_dependency (List.mem_filter.1 ((h.recorded d name).2 hname)).1

end Lineage

namespace Steady

theorem of_eq (hs : w'.sources = w.sources) (hd : w'.documents = w.documents) (he : w'.executables = w.executables)
    (hcounter : w.inFlowCount ≤ w'.inFlowCount) : w.Steady w' where
  sources := by rw [hs]
  source s := by simp [World.source, hs]
  length := by rw [hd]
  document d := by simp [World.document, hd]
  inFlowDependencies d := by simp [World.document, hd]
  invalid d := by simp [World.document, hd]
  executables := Nat.le_of_eq (by rw [he])
  dependencies e _ := by simp [executable, he]
  counter := hcounter

theorem refl (w : World) : w.Steady w := .of_eq rfl rfl rfl (Nat.le_refl _)

theorem trans (h : w.Steady w₁) (h' : w₁.Steady w₂) : w.Steady w₂ where
  sources := h'.sources.trans h.sources
  source s := (h'.source s).trans (h.source s)
  length := h'.length.trans h.length
  document d := (h'.document d).trans (by rw [h.document d])
  inFlowDependencies d := (h'.inFlowDependencies d).trans (h.inFlowDependencies d)
  invalid d hd := h'.invalid d (h.invalid d hd)
  executables := Nat.le_trans h.executables h'.executables
  dependencies e he := (h'.dependencies e (Nat.lt_of_lt_of_le he h.executables)).trans (h.dependencies e he)
  counter := Nat.le_trans h.counter h'.counter

theorem emit (w : World) (e : Event) : w.Steady (w.emit e) := .of_eq rfl rfl rfl (Nat.le_refl _)

theorem of_stock (h : w'.stock = w.stock) : w.Steady w' := by
  have hsources : w'.sources = w.sources := congrArg Stock.sources h
  have hdocuments : w'.documents = w.documents := congrArg Stock.documents h
  have hexecutables : w'.executables.map Executable.asMade = w.executables.map Executable.asMade :=
    congrArg Stock.executables h
  have hlength : w'.executables.length = w.executables.length := by
    simpa using congrArg List.length hexecutables
  have hdocument (d : DocumentId) : w'.document d = w.document d := by simp [World.document, hdocuments]
  refine ⟨by rw [hsources], fun s => by simp [World.source, hsources], by rw [hdocuments], fun d => by rw [hdocument],
    fun d => by rw [hdocument], fun d => by rw [hdocument]; exact id, Nat.le_of_eq hlength.symm, fun e he => ?_,
    Nat.le_of_eq (congrArg Stock.inFlowCount h).symm⟩
  have hsame := congrArg (·[e.index]?.map Executable.dependencies) hexecutables
  simp only [List.getElem?_map, List.getElem?_eq_getElem he, List.getElem?_eq_getElem (hlength.symm ▸ he)] at hsame
  unfold executable
  rw [List.getElem?_eq_getElem he, List.getElem?_eq_getElem (hlength.symm ▸ he)]
  exact Option.some.inj hsame

theorem of_checks (h : w.Checks w') : w.Steady w' where
  sources := by rw [h.rechecks.world]
  source := h.rechecks.source_eq
  length := h.rechecks.length
  document d := (h.rechecks.document d).trans (by rw [h.rechecks.dependencies_eq])
  inFlowDependencies d := congrArg (List.filter Document.isInFlow) (h.rechecks.dependencies_eq d)
  invalid := h.invalid
  executables := Nat.le_of_eq (by rw [h.rechecks.world])
  dependencies e _ := by
    rw [h.rechecks.world]
    rfl
  counter := Nat.le_of_eq (by rw [h.rechecks.world])

/-- One document changes, but not in its bodies. -/
theorem modifyDocument {f : Document → Document} (hf : (w.document d).Ages (f (w.document d)))
    (hexecutable : (f (w.document d)).executable = (w.document d).executable)
    (hinFlow : (f (w.document d)).inFlowDependencies = (w.document d).inFlowDependencies) :
    w.Steady (w.modifyDocument d f) := by
  have hsame (x : DocumentId) : (w.modifyDocument d f).document x = w.document x ∨
      d = x ∧ (w.modifyDocument d f).document x = f (w.document x) := document_modifyDocument_cases w f d x
  refine ⟨rfl, fun _ => rfl, by simp [World.modifyDocument], fun x => ?_, fun x => ?_, fun x hx => ?_, Nat.le_refl _,
    fun _ _ => rfl, Nat.le_refl _⟩
  · rcases hsame x with hx | ⟨rfl, hx⟩
    · rw [hx]
    · rw [hx]
      exact hf.same.trans (by rw [hexecutable])
  · rcases hsame x with hx | ⟨rfl, hx⟩
    · rw [hx]
    · rw [hx, hinFlow]
  · rcases hsame x with hx' | ⟨rfl, hx'⟩
    · rw [hx', hx]
    · rw [hx', hf.invalid hx]

theorem invalidate (w : World) (d : DocumentId) : w.Steady (w.modifyDocument d Document.invalidate) :=
  modifyDocument (Document.ages_invalidate _) rfl rfl

theorem invalidateDependents (w : World) (s : SourceId) (name : String) : w.Steady (w.invalidateDependents s name) := by
  unfold World.invalidateDependents
  refine List.foldlRecOn _ _ (motive := fun w' : World => w.Steady w') (.refl w) fun w' h d _ => ?_
  split
  · exact h.trans (.invalidate w' d)
  · exact h

variable (h : w.Steady w')

include h

theorem cached?_eq (s : SourceId) (name : String) : w'.cached? s name = w.cached? s name :=
  congrArg (·.byName.get? name) (h.source s)

theorem name_eq (d : DocumentId) : (w'.document d).name = (w.document d).name := by rw [h.document]

theorem file_eq (d : DocumentId) : (w'.document d).file = (w.document d).file := by rw [h.document]

theorem executable_eq (d : DocumentId) : (w'.document d).executable = (w.document d).executable := by rw [h.document]

theorem bodies_eq (hw : w.Lineage) (d : DocumentId) : w'.bodies d = w.bodies d := by
  cases he : (w.document d).executable with
  | none => rw [bodies_of_none he, bodies_of_none ((h.executable_eq d).trans he)]
  | some e =>
      rw [bodies_of_some he, bodies_of_some ((h.executable_eq d).trans he)]
      exact h.dependencies e (hw.made d e he)

theorem stores_iff (s : SourceId) (d : DocumentId) : w'.Stores s d ↔ w.Stores s d := by
  unfold Stores
  rw [h.source]

theorem lineage (hw : w.Lineage) : w'.Lineage where
  made d e he := Nat.lt_of_lt_of_le (hw.made d e ((h.executable_eq d).symm.trans he)) h.executables
  given d name hname := by
    rw [h.bodies_eq hw] at hname
    obtain ⟨k, hk, rfl⟩ := hw.given d name hname
    exact ⟨k, Nat.lt_of_lt_of_le hk h.counter, rfl⟩
  apart d d' name hd hd' := by
    rw [h.bodies_eq hw] at hd hd'
    exact hw.apart d d' name hd hd'
  recorded d name := by
    rw [h.bodies_eq hw, h.inFlowDependencies]
    exact hw.recorded d name
  numbered d k hk := Nat.lt_of_lt_of_le (hw.numbered d k ((h.name_eq d).symm.trans hk)) h.counter
  ordered d j k hj hk := by
    rw [h.bodies_eq hw] at hk
    exact hw.ordered d j k ((h.name_eq d).symm.trans hj) hk

theorem fitsName (hd : w.FitsName s name d) : w'.FitsName s name d where
  housed := ⟨by rw [h.length]; exact hd.housed.1, by rw [h.document]; exact hd.housed.2⟩
  own hfile := (h.name_eq d).trans (hd.own ((h.file_eq d).symm.trans hfile))
  fileless hname := (h.file_eq d).trans (hd.fileless hname)
  memory := by
    rw [IsMemory, h.source, h.file_eq]
    exact hd.memory

theorem shelved (hw : w.Shelved) : w'.Shelved where
  name s name d hd := h.fitsName (hw.name s name d ((h.cached?_eq s name).symm.trans hd))
  file s file d hd := by
    rw [h.source] at hd
    have hfits := hw.file s file d hd
    refine ⟨⟨?_, ?_⟩, (h.file_eq d).trans hfits.file⟩
    · rw [h.length]
      exact hfits.housed.1
    · rw [h.document]
      exact hfits.housed.2

theorem tended (hw : w.Tended hole loose) : w'.Tended hole loose where
  toLineage := h.lineage hw.toLineage
  toShelved := h.shelved hw.toShelved
  complete s d hd hvalid name hname := by
    rw [h.bodies_eq hw.toLineage] at hname
    rw [h.cached?_eq]
    exact hw.complete s d ((h.stores_iff s d).1 hd) (fun hinvalid => hvalid (h.invalid d hinvalid)) name hname
  owned s name d hname hd hfile := by
    rw [h.cached?_eq] at hd
    refine (hw.owned s name d hname hd ((h.file_eq d).symm.trans hfile)).imp_right fun ⟨x, hx, hmem⟩ => ⟨x, ?_, ?_⟩
    · exact (h.stores_iff s x).2 hx
    · rwa [h.bodies_eq hw.toLineage]

end Steady

namespace Shelved

variable (h : w.Shelved)

include h

theorem housed (hd : w.Stores s d) : w.Housed s d := by
  rcases hd with ⟨name, hd⟩ | ⟨file, hd⟩
  · exact (h.name s name d hd).housed
  · exact (h.file s file d hd).housed

/-- What is kept under the name of a body is kept under no other name and for no file. -/
theorem name_eq {k : Nat} (hk : w.cached? s (Document.inFlowName k) = some d) (hd : w.cached? s name = some d) :
    name = Document.inFlowName k := by
  have hbody := h.name s _ d hk
  have hfile := hbody.fileless ⟨k, rfl⟩
  exact ((h.name s name d hd).own hfile).symm.trans (hbody.own hfile)

theorem not_filed {k : Nat} (hk : w.cached? s (Document.inFlowName k) = some d) :
    (w.source s).byFile.get? file ≠ some d := by
  intro hd
  cases ((h.name s _ d hk).fileless ⟨k, rfl⟩).symm.trans (h.file s file d hd).file

end Shelved

theorem Tended.imp (h : w.Tended hole loose)
    (hhole : ∀ s d, ∀ name ∈ w.bodies d, hole s name → (w.cached? s name).isSome = true ∨ hole' s name)
    (hloose : ∀ s name d, w.cached? s name = some d → loose s name → loose' s name) : w.Tended hole' loose' where
  toLineage := h.toLineage
  toShelved := h.toShelved
  complete s d hd hvalid name hname := (h.complete s d hd hvalid name hname).elim .inl (hhole s d name hname)
  owned s name d hname hd hfile := (h.owned s name d hname hd hfile).imp_left (hloose s name d hd)

section add

theorem document_addDocument_cases (w : World) (y : Document) (d : DocumentId) :
    (w.addDocument y).1.document d = w.document d ∨
      w.documents.length = d.index ∧ (w.addDocument y).1.document d = y := by
  by_cases hlt : d.index < w.documents.length
  · exact .inl (document_of_grown (List.prefix_append _ _) hlt)
  · by_cases hindex : w.documents.length = d.index
    · refine .inr ⟨hindex, ?_⟩
      simp [World.addDocument, World.document, ← hindex]
    · refine .inl ?_
      rw [document_of_le (Nat.le_of_not_lt hlt), document_of_le]
      simp only [World.addDocument, List.length_append, List.length_singleton]
      omega

theorem bodies_addDocument (w : World) (hy : y.executable = none) (d : DocumentId) :
    (w.addDocument y).1.bodies d = w.bodies d := by
  rcases document_addDocument_cases w y d with hsame | ⟨hindex, hnew⟩
  · unfold bodies
    rw [hsame]
    rfl
  · rw [bodies_of_none ((congrArg Document.executable hnew).trans hy), bodies_of_none]
    rw [document_of_le (Nat.le_of_eq hindex)]
    rfl

theorem Lineage.addDocument (h : w.Lineage) (hy : y.executable = none) (hdependencies : y.dependencies = [])
    (hname : ∀ k, y.name = Document.inFlowName k → k < w.inFlowCount) : (w.addDocument y).1.Lineage where
  made d e he := by
    rcases document_addDocument_cases w y d with hsame | ⟨-, hnew⟩
    · exact h.made d e (hsame ▸ he)
    · rw [hnew, hy] at he
      cases he
  given d name hmem := h.given d name (bodies_addDocument w hy d ▸ hmem)
  apart d d' name hd hd' := h.apart d d' name (bodies_addDocument w hy d ▸ hd) (bodies_addDocument w hy d' ▸ hd')
  recorded d name := by
    rw [bodies_addDocument w hy]
    rcases document_addDocument_cases w y d with hsame | ⟨hindex, hnew⟩
    · rw [hsame]
      exact h.recorded d name
    · have hnone : w.bodies d = [] := by
        apply bodies_of_none
        rw [document_of_le (Nat.le_of_eq hindex)]
        rfl
      rw [hnew, hnone, Document.inFlowDependencies, hdependencies]
      rfl
  numbered d k hk := by
    rcases document_addDocument_cases w y d with hsame | ⟨-, hnew⟩
    · exact h.numbered d k (hsame ▸ hk)
    · exact hname k (hnew ▸ hk)
  ordered d j k hj hk := by
    rw [bodies_addDocument w hy] at hk
    have hsame : (w.addDocument y).1.document d = w.document d := document_of_grown (List.prefix_append _ _) (h.lt hk)
    exact h.ordered d j k (hsame ▸ hj) hk

theorem FitsName.grown (h : w.FitsName s name d) (hdocuments : w.documents <+: w'.documents)
    (hsource : w'.source s = w.source s) : w'.FitsName s name d := by
  have hsame := document_of_grown hdocuments h.housed.1
  refine ⟨⟨Nat.lt_of_lt_of_le h.housed.1 hdocuments.length_le, ?_⟩, ?_, ?_, ?_⟩
  · rw [hsame]
    exact h.housed.2
  · rw [hsame]
    exact h.own
  · rw [hsame]
    exact h.fileless
  · rw [hsame, IsMemory, hsource]
    exact h.memory

theorem FitsFile.grown (h : w.FitsFile s file d) (hdocuments : w.documents <+: w'.documents) : w'.FitsFile s file d := by
  have hsame := document_of_grown hdocuments h.housed.1
  refine ⟨⟨Nat.lt_of_lt_of_le h.housed.1 hdocuments.length_le, ?_⟩, ?_⟩
  · rw [hsame]
    exact h.housed.2
  · rw [hsame]
    exact h.file

/-- A document is added that no source keeps yet. -/
theorem Tended.addDocument (h : w.Tended hole loose) (hy : y.executable = none) (hdependencies : y.dependencies = [])
    (hname : ∀ k, y.name = Document.inFlowName k → k < w.inFlowCount) : (w.addDocument y).1.Tended hole loose where
  toLineage := h.toLineage.addDocument hy hdependencies hname
  name s name d hd := (h.name s name d hd).grown (List.prefix_append _ _) rfl
  file s file d hd := (h.file s file d hd).grown (List.prefix_append _ _)
  complete s d hd hvalid name hmem := by
    rw [bodies_addDocument w hy] at hmem
    have hsame : (w.addDocument y).1.document d = w.document d := document_of_grown (List.prefix_append _ _) (h.lt hmem)
    exact h.complete s d hd (hsame ▸ hvalid) name hmem
  owned s name d hname hd hfile := by
    have hsame : (w.addDocument y).1.document d = w.document d :=
      document_of_grown (List.prefix_append _ _) (h.name s name d hd).housed.1
    refine (h.owned s name d hname hd (hsame ▸ hfile)).imp_right fun ⟨x, hx, hmem⟩ => ⟨x, hx, ?_⟩
    rwa [bodies_addDocument w hy]

end add

section sources

/-- What a source keeps makes no difference to the documents. -/
theorem Lineage.modifySource (h : w.Lineage) (s : SourceId) (f : Source → Source) : (w.modifySource s f).Lineage :=
  ⟨h.made, h.given, h.apart, h.recorded, h.numbered, h.ordered⟩

theorem source_modifySource_of_ne (w : World) (f : Source → Source) (h : s' ≠ s) :
    (w.modifySource s f).source s' = w.source s' :=
  (source_modifySource_cases w s s' f).resolve_right fun hsame => h hsame.1.symm

section erased

variable (hname : ∀ name, (f (w.source s)).byName.get? name = w.cached? s name ∨
    (f (w.source s)).byName.get? name = none ∧ w.cached? s name = some d)
  (hfile : ∀ file, (f (w.source s)).byFile.get? file = (w.source s).byFile.get? file ∨
    (f (w.source s)).byFile.get? file = none ∧ (w.source s).byFile.get? file = some d)

include hname in
theorem cached?_erased (s' : SourceId) (name : String) : (w.modifySource s f).cached? s' name = w.cached? s' name ∨
    (w.modifySource s f).cached? s' name = none ∧ s' = s ∧ w.cached? s name = some d ∧
      (f (w.source s)).byName.get? name = none := by
  unfold cached?
  rcases source_modifySource_cases w s s' f with hsame | ⟨rfl, hsame⟩
  · exact .inl (congrArg (·.byName.get? name) hsame)
  · rw [hsame]
    refine (hname name).imp_right ?_
    rintro ⟨hnone, hsome⟩
    exact ⟨hnone, rfl, hsome, hnone⟩

include hfile in
theorem byFile_erased (s' : SourceId) (file : Files.Path) :
    ((w.modifySource s f).source s').byFile.get? file = (w.source s').byFile.get? file ∨
      ((w.modifySource s f).source s').byFile.get? file = none ∧ s' = s ∧ (w.source s).byFile.get? file = some d := by
  rcases source_modifySource_cases w s s' f with hsame | ⟨rfl, hsame⟩
  · exact .inl (congrArg (·.byFile.get? file) hsame)
  · rw [hsame]
    refine (hfile file).imp_right ?_
    rintro ⟨hnone, hsome⟩
    exact ⟨hnone, rfl, hsome⟩

include hname in
theorem cached?_of_erased (hx : (w.modifySource s f).cached? s' name = some x) : w.cached? s' name = some x := by
  rcases cached?_erased hname s' name with hsame | ⟨hnone, -⟩
  · exact hsame.symm.trans hx
  · cases hnone.symm.trans hx

include hname hfile

theorem stores_of_erased (hx : (w.modifySource s f).Stores s' x) : w.Stores s' x :=
  hx.of_dropped (fun name => (cached?_erased hname s' name).symm.imp_left And.left) fun file =>
    (byFile_erased hfile s' file).symm.imp_left And.left

/-- Only what is erased is kept no more. -/
theorem stores_erased (hx : w.Stores s' x) : (w.modifySource s f).Stores s' x ∨ s' = s ∧ x = d := by
  rcases hx with ⟨name, hx⟩ | ⟨file, hx⟩
  · rcases cached?_erased hname s' name with hsame | ⟨-, rfl, hd⟩
    · exact .inl (.inl ⟨name, hsame.trans hx⟩)
    · exact .inr ⟨rfl, Option.some.inj (hx.symm.trans hd.1)⟩
  · rcases byFile_erased hfile s' file with hsame | ⟨-, rfl, hd⟩
    · exact .inl (.inr ⟨file, hsame.trans hx⟩)
    · exact .inr ⟨rfl, Option.some.inj (hx.symm.trans hd)⟩

end erased

section inserted

variable (hs : s.index < w.sources.length) (hbyFile : (f (w.source s)).byFile = (w.source s).byFile)
  (hbyName : ∀ other, (f (w.source s)).byName.get? other = if other = name then some d else w.cached? s other)

include hs

include hbyName in
theorem cached?_inserted (s' : SourceId) (other : String) : (w.modifySource s f).cached? s' other =
    if s' = s ∧ other = name then some d else w.cached? s' other := by
  by_cases hs' : s' = s
  · subst hs'
    unfold cached?
    rw [source_modifySource f hs, hbyName]
    simp [cached?]
  · unfold cached?
    rw [source_modifySource_of_ne w f hs', if_neg fun heq => hs' heq.1]

include hbyFile in
theorem byFile_inserted (s' : SourceId) : ((w.modifySource s f).source s').byFile = (w.source s').byFile := by
  by_cases hs' : s' = s
  · rw [hs', source_modifySource f hs, hbyFile]
  · rw [source_modifySource_of_ne w f hs']

include hbyFile hbyName

theorem stores_of_inserted (hx : (w.modifySource s f).Stores s' x) : w.Stores s' x ∨ s' = s ∧ x = d := by
  rcases hx with ⟨other, hx⟩ | ⟨file, hx⟩
  · have hx := (cached?_inserted hs hbyName s' other).symm.trans hx
    split at hx
    · next heq => exact .inr ⟨heq.1, (Option.some.inj hx).symm⟩
    · exact .inl (.inl ⟨other, hx⟩)
  · exact .inl (.inr ⟨file, byFile_inserted hs hbyFile s' ▸ hx⟩)

/-- Only what was kept under the name is kept no more. -/
theorem stores_inserted (hx : w.Stores s' x) : (w.modifySource s f).Stores s' x ∨ s' = s ∧ w.cached? s name = some x := by
  rcases hx with ⟨other, hx⟩ | ⟨file, hx⟩
  · by_cases heq : s' = s ∧ other = name
    · obtain ⟨rfl, rfl⟩ := heq
      exact .inr ⟨rfl, hx⟩
    · exact .inl (.inl ⟨other, (cached?_inserted hs hbyName s' other).trans ((if_neg heq).trans hx)⟩)
  · exact .inl (.inr ⟨file, (congrArg (·.get? file) (byFile_inserted hs hbyFile s')).trans hx⟩)

end inserted

section filed

variable (hs : s.index < w.sources.length) (hbyName : (f (w.source s)).byName = (w.source s).byName)
  (hnone : (w.source s).byFile.get? file = none)
  (hbyFile : ∀ other, (f (w.source s)).byFile.get? other = if other = file then some d else (w.source s).byFile.get? other)

include hs

include hbyName in
theorem cached?_filed (s' : SourceId) (other : String) : (w.modifySource s f).cached? s' other = w.cached? s' other := by
  unfold cached?
  by_cases hs' : s' = s
  · rw [hs', source_modifySource f hs, hbyName]
  · rw [source_modifySource_of_ne w f hs']

include hbyFile in
theorem byFile_filed (s' : SourceId) (other : Files.Path) : ((w.modifySource s f).source s').byFile.get? other =
    if s' = s ∧ other = file then some d else (w.source s').byFile.get? other := by
  by_cases hs' : s' = s
  · subst hs'
    rw [source_modifySource f hs, hbyFile]
    simp
  · rw [source_modifySource_of_ne w f hs', if_neg fun heq => hs' heq.1]

include hbyName hbyFile

theorem stores_of_filed (hx : (w.modifySource s f).Stores s' x) : w.Stores s' x ∨ x = d := by
  rcases hx with ⟨other, hx⟩ | ⟨other, hx⟩
  · exact .inl (.inl ⟨other, (cached?_filed hs hbyName s' other).symm.trans hx⟩)
  · rw [byFile_filed hs hbyFile] at hx
    split at hx
    · exact .inr (Option.some.inj hx).symm
    · exact .inl (.inr ⟨other, hx⟩)

include hnone in
theorem stores_filed (hx : w.Stores s' x) : (w.modifySource s f).Stores s' x := by
  rcases hx with ⟨other, hx⟩ | ⟨other, hx⟩
  · exact .inl ⟨other, (cached?_filed hs hbyName s' other).trans hx⟩
  · refine .inr ⟨other, (byFile_filed hs hbyFile s' other).trans ((if_neg ?_).trans hx)⟩
    rintro ⟨rfl, rfl⟩
    cases hnone.symm.trans hx

end filed

variable (hstorage : ∀ x, (f x).storage = x.storage)

include hstorage

theorem FitsName.modifySource (h : w.FitsName s' name d) (s : SourceId) : (w.modifySource s f).FitsName s' name d := by
  refine ⟨h.housed, h.own, h.fileless, ?_⟩
  rintro ⟨identifier, hmemory⟩
  exact h.memory ⟨identifier, ((Ages.modifySource s hstorage).storage s').symm.trans hmemory⟩

/-- A document is forgotten, or some of its names and files are. -/
theorem Tended.erase (h : w.Tended hole loose)
    (hname : ∀ name, (f (w.source s)).byName.get? name = w.cached? s name ∨
      (f (w.source s)).byName.get? name = none ∧ w.cached? s name = some d)
    (hfile : ∀ file, (f (w.source s)).byFile.get? file = (w.source s).byFile.get? file ∨
      (f (w.source s)).byFile.get? file = none ∧ (w.source s).byFile.get? file = some d) :
    (w.modifySource s f).Tended
      (fun s' name => hole s' name ∨ s' = s ∧ w.cached? s name = some d ∧ (f (w.source s)).byName.get? name = none)
      (fun s' name => loose s' name ∨ s' = s ∧ name ∈ w.bodies d) := by
  refine ⟨h.toLineage.modifySource s f, ⟨fun s' name x hx => ?_, fun s' file x hx => ?_⟩,
    fun s' x hx hvalid name hmem => ?_, fun s' name x hbody hx hnone => ?_⟩
  · exact (h.name s' name x (cached?_of_erased hname hx)).modifySource hstorage s
  · rcases byFile_erased hfile s' file with hsame | ⟨hnone, -⟩
    · have hfits := h.file s' file x (hsame.symm.trans hx)
      exact ⟨hfits.housed, hfits.file⟩
    · cases hnone.symm.trans hx
  · rcases h.complete s' x (stores_of_erased hname hfile hx) hvalid name hmem with hsome | hhole
    · rcases cached?_erased hname s' name with hsame | ⟨-, hs, hd⟩
      · exact .inl (hsame ▸ hsome)
      · exact .inr (.inr ⟨hs, hd⟩)
    · exact .inr (.inl hhole)
  · rcases h.owned s' name x hbody (cached?_of_erased hname hx) hnone with hloose | ⟨owner, howner, hmem⟩
    · exact .inl (.inl hloose)
    · rcases stores_erased hname hfile howner with howner | ⟨hs, rfl⟩
      · exact .inr ⟨owner, howner, hmem⟩
      · exact .inl (.inr ⟨hs, hmem⟩)

/-- A document comes under a name, in place of the one that is there. -/
theorem Tended.insert (h : w.Tended hole loose) (hs : s.index < w.sources.length) (hfits : w.FitsName s name d)
    (hd : w.bodies d = [] ∨ w.Stores s d) (hbyFile : (f (w.source s)).byFile = (w.source s).byFile)
    (hbyName : ∀ other, (f (w.source s)).byName.get? other = if other = name then some d else w.cached? s other)
    (howner : Document.isInFlow name = true → (w.document d).file = none →
      loose s name ∨ ∃ x, w.Stores s x ∧ name ∈ w.bodies x) :
    (w.modifySource s f).Tended (fun s' other => hole s' other ∧ ¬ (s' = s ∧ other = name))
      (fun s' other => loose s' other ∨ s' = s ∧ ∃ old, w.cached? s name = some old ∧ other ∈ w.bodies old) := by
  have hcached := cached?_inserted hs hbyName
  have hbelongs {s' : SourceId} {other : String} {x : DocumentId} (hx : w.Stores s' x) (hmem : other ∈ w.bodies x) :
      (loose s' other ∨ s' = s ∧ ∃ old, w.cached? s name = some old ∧ other ∈ w.bodies old) ∨
        ∃ x, (w.modifySource s f).Stores s' x ∧ other ∈ (w.modifySource s f).bodies x := by
    rcases stores_inserted hs hbyFile hbyName hx with hx | ⟨hs', hx⟩
    · exact .inr ⟨x, hx, hmem⟩
    · exact .inl (.inr ⟨hs', x, hx, hmem⟩)
  refine ⟨h.toLineage.modifySource s f, ⟨fun s' other x hx => ?_, fun s' file x hx => ?_⟩,
    fun s' x hx hvalid other hmem => ?_, fun s' other x hbody hx hnone => ?_⟩
  · rw [hcached] at hx
    split at hx
    · next heq =>
        obtain ⟨rfl, rfl⟩ := heq
        cases hx
        exact hfits.modifySource hstorage s'
    · exact (h.name s' other x hx).modifySource hstorage s
  · have hfits := h.file s' file x ((congrArg (·.get? file) (byFile_inserted hs hbyFile s')).symm.trans hx)
    exact ⟨hfits.housed, hfits.file⟩
  · have hmem : other ∈ w.bodies x := hmem
    have hx : w.Stores s' x := by
      rcases stores_of_inserted hs hbyFile hbyName hx with hx | ⟨rfl, rfl⟩
      · exact hx
      · exact hd.resolve_left (List.ne_nil_of_mem hmem)
    rw [hcached]
    by_cases heq : s' = s ∧ other = name
    · rw [if_pos heq]
      exact .inl rfl
    · rw [if_neg heq]
      exact (h.complete s' x hx hvalid other hmem).imp_right fun hhole => ⟨hhole, heq⟩
  · rw [hcached] at hx
    split at hx
    · next heq =>
        obtain ⟨rfl, rfl⟩ := heq
        cases hx
        rcases howner hbody hnone with hloose | ⟨owner, howner, hmem⟩
        · exact .inl (.inl hloose)
        · exact hbelongs howner hmem
    · rcases h.owned s' other x hbody hx hnone with hloose | ⟨owner, howner, hmem⟩
      · exact .inl (.inl hloose)
      · exact hbelongs howner hmem

/-- A document comes to a file that has none. -/
theorem Tended.insertFile (h : w.Tended hole loose) (hs : s.index < w.sources.length) (hfits : w.FitsFile s file d)
    (hd : w.bodies d = []) (hbyName : (f (w.source s)).byName = (w.source s).byName)
    (hnone : (w.source s).byFile.get? file = none)
    (hbyFile : ∀ other, (f (w.source s)).byFile.get? other =
      if other = file then some d else (w.source s).byFile.get? other) : (w.modifySource s f).Tended hole loose := by
  have hcached := cached?_filed hs hbyName
  refine ⟨h.toLineage.modifySource s f, ⟨fun s' other x hx => ?_, fun s' other x hx => ?_⟩,
    fun s' x hx hvalid other hmem => ?_, fun s' other x hbody hx hfile => ?_⟩
  · exact (h.name s' other x ((hcached s' other).symm.trans hx)).modifySource hstorage s
  · rw [byFile_filed hs hbyFile] at hx
    split at hx
    · next heq =>
        obtain ⟨rfl, rfl⟩ := heq
        cases hx
        exact ⟨hfits.housed, hfits.file⟩
    · have hfits := h.file s' other x hx
      exact ⟨hfits.housed, hfits.file⟩
  · have hmem : other ∈ w.bodies x := hmem
    rw [hcached]
    rcases stores_of_filed hs hbyName hbyFile hx with hx | rfl
    · exact h.complete s' x hx hvalid other hmem
    · rw [hd] at hmem
      cases hmem
  · rw [hcached] at hx
    refine (h.owned s' other x hbody hx hfile).imp_right ?_
    rintro ⟨owner, howner, hmem⟩
    exact ⟨owner, stores_filed hs hbyName hnone hbyFile howner, hmem⟩

end sources

end ScriptedText.World
