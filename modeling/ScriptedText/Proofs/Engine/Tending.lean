import ScriptedText.Proofs.Engine.Belonging

/-!
What happens to the documents of scriptlet bodies where their document is replaced, found invalid or read again: they go
with it, and no others do.
-/

namespace ScriptedText

open Relation

/-- A document of the source with that name, which has a text but nothing else yet. -/
structure Document.IsNew (y : Document) (s : SourceId) (name : String) : Prop where
  source : y.source = s
  name : y.name = name
  file : y.file = none
  executable : y.executable = none
  dependencies : y.dependencies = []

namespace World

/-- All bodies of valid documents are kept, and no bodies of other documents. -/
def Kempt (w : World) : Prop := w.Tended (fun _ _ => False) fun _ _ => False

variable {w w' : World} {s s' : SourceId} {name other text tag : String} {d d' x : DocumentId}
  {file : Files.Path} {hole loose : SourceId → String → Prop} {y : Document} {j : Nat}

theorem modifySource_of_le {f : Source → Source} (h : w.sources.length ≤ s.index) : w.modifySource s f = w := by
  unfold modifySource
  rw [List.modify_eq_self h]

theorem keepByName_fst (w : World) (s : SourceId) (name : String) (d : DocumentId) : (w.keepByName s name d).1 =
    w.modifySource s fun source => { source with byName := ((w.source s).byName.insertIfAbsent name d).1 } := rfl

theorem get?_keepByName_of_none (h : w.cached? s name = none) (d : DocumentId) (other : String) :
    ((w.source s).byName.insertIfAbsent name d).1.get? other = if other = name then some d else w.cached? s other := by
  have hnone : (w.source s).byName.get? name = none := h
  rw [OrderedMap.get?_insertIfAbsent, OrderedMap.insertIfAbsent_snd, hnone]
  rfl

theorem Steady.keepByName (h : w.cached? s name = some x) (d : DocumentId) : w.Steady (w.keepByName s name d).1 := by
  have hsame : ((w.source s).byName.insertIfAbsent name d).1 = (w.source s).byName := by
    have hsome : (w.source s).byName.get? name = some x := h
    unfold OrderedMap.insertIfAbsent
    rw [hsome]
  refine ⟨by simp [World.keepByName, modifySource], fun s' => ?_, rfl, fun _ => rfl, fun _ => rfl, fun _ => id,
    Nat.le_refl _, fun _ _ => rfl, Nat.le_refl _⟩
  rw [keepByName_fst, hsame]
  rcases source_modifySource_cases w s s' (fun source => { source with byName := (w.source s).byName }) with
    hsource | ⟨rfl, hsource⟩
  · exact hsource
  · exact hsource

section drop

variable (hs : s.index < w.sources.length)

include hs

theorem cached?_dropInFlow_eq (d : DocumentId) (name : String) : (w.dropInFlow s d).cached? s name =
    (dropReachable (fun d => (w.document d).inFlowDependencies) (w.document d).inFlowDependencies
      (w.source s).byName).get? name := by
  unfold dropInFlow cached?
  rw [source_modifySource _ hs]

/-- The bodies of a document are dropped with it. -/
theorem Lineage.cached?_dropInFlow_of_mem (h : w.Lineage) (hname : name ∈ w.bodies d) :
    (w.dropInFlow s d).cached? s name = none := by
  rw [cached?_dropInFlow_eq hs]
  exact get?_dropReachable_of_mem ((h.recorded d name).2 hname)

/-- With the document of a body go those of bodies that stand in it, which come later. -/
theorem Tended.lt_of_dropped (h : w.Tended hole loose) (hj : (w.document d).name = Document.inFlowName j)
    (hx : w.cached? s name = some x) (hgone : (w.dropInFlow s d).cached? s name = none) :
    ∃ k, j < k ∧ name = Document.inFlowName k := by
  rw [cached?_dropInFlow_eq hs] at hgone
  have hlater {d : DocumentId} {i : Nat} {name : String} (hi : (w.document d).name = Document.inFlowName i)
      (hname : name ∈ (w.document d).inFlowDependencies) : ∃ k, i < k ∧ name = Document.inFlowName k := by
    have hbody := (h.recorded d name).1 hname
    obtain ⟨k, -, rfl⟩ := h.given d name hbody
    exact ⟨k, h.ordered d i k hi hbody, rfl⟩
  refine of_get?_dropReachable (Q := fun name => ∃ k, j < k ∧ name = Document.inFlowName k) (fun name hname => ?_)
    (fun name y hname hy other hother => ?_) hx hgone
  · exact hlater hj hname
  · obtain ⟨i, hi, rfl⟩ := hname
    have hfits := h.name s _ y hy
    obtain ⟨k, hk, rfl⟩ := hlater (hfits.own (hfits.fileless ⟨i, rfl⟩)) hother
    exact ⟨k, Nat.lt_trans hi hk, rfl⟩

/-- A body is dropped with the document that it belongs to, or because that one is dropped too. -/
theorem Lineage.owner_of_dropped (h : w.Lineage) (hmem : name ∈ w.bodies x) (hy : w.cached? s name = some d')
    (hgone : (w.dropInFlow s d).cached? s name = none) :
    x = d ∨ ∃ other, w.cached? s other = some x ∧ (w.dropInFlow s d).cached? s other = none := by
  rw [cached?_dropInFlow_eq hs] at hgone
  rcases exists_of_get?_dropReachable hy hgone with hlisted | ⟨other, z, hz, hother, hlisted⟩
  · exact .inl (h.apart x d name hmem ((h.recorded d name).1 hlisted))
  · cases h.apart x z name hmem ((h.recorded z name).1 hlisted)
    exact .inr ⟨other, hz, (cached?_dropInFlow_eq hs d other).trans hother⟩

theorem Lineage.isBody_of_dropped (h : w.Lineage) (hx : w.cached? s name = some x)
    (hgone : (w.dropInFlow s d).cached? s name = none) : ∃ k, name = Document.inFlowName k := by
  rw [cached?_dropInFlow_eq hs] at hgone
  have hgiven {y : DocumentId} (hlisted : name ∈ (w.document y).inFlowDependencies) : ∃ k, name = Document.inFlowName k := by
    obtain ⟨k, -, hk⟩ := h.given y name ((h.recorded y name).1 hlisted)
    exact ⟨k, hk⟩
  rcases exists_of_get?_dropReachable hx hgone with hlisted | ⟨_, y, -, -, hlisted⟩
  · exact hgiven hlisted
  · exact hgiven hlisted

omit hs in
theorem cached?_dropInFlow_cases (w : World) (s : SourceId) (d : DocumentId) (s' : SourceId) (name : String) :
    (w.dropInFlow s d).cached? s' name = w.cached? s' name ∨ s' = s ∧ (w.dropInFlow s d).cached? s name = none := by
  by_cases hs' : s' = s
  · subst hs'
    exact (cached?_dropInFlow w s' d name).symm.imp_right fun hnone => ⟨rfl, hnone⟩
  · refine .inl ?_
    unfold cached? World.dropInFlow
    rw [source_modifySource_of_ne w _ hs']

omit hs in
theorem cached?_of_dropInFlow (hx : (w.dropInFlow s d).cached? s' name = some x) : w.cached? s' name = some x := by
  rcases cached?_dropInFlow_cases w s d s' name with hsame | ⟨rfl, hnone⟩
  · exact hsame.symm.trans hx
  · cases hnone.symm.trans hx

omit hs in
theorem byFile_dropInFlow (w : World) (s : SourceId) (d : DocumentId) (s' : SourceId) :
    ((w.dropInFlow s d).source s').byFile = (w.source s').byFile := by
  by_cases hs' : s' = s
  · rw [hs']
    exact byFile_modifyByName w s _
  · unfold World.dropInFlow
    rw [source_modifySource_of_ne w _ hs']

omit hs in
theorem stores_of_dropInFlow (hx : (w.dropInFlow s d).Stores s' x) : w.Stores s' x := by
  rcases hx with ⟨name, hx⟩ | ⟨file, hx⟩
  · exact .inl ⟨name, cached?_of_dropInFlow hx⟩
  · exact .inr ⟨file, byFile_dropInFlow w s d s' ▸ hx⟩

/-- Only what belongs to the document is dropped, or to one that is dropped, and then it is all that is. -/
theorem Tended.dropInFlow (h : w.Tended hole loose) (hd : (w.document d).validity = .invalid)
    (hloose : ∀ s' name, loose s' name → s' = s ∧ name ∈ w.bodies d) :
    (w.dropInFlow s d).Tended hole fun _ _ => False := by
  refine ⟨h.toLineage.modifySource s _, ⟨fun s' name x hx => ?_, fun s' file x hx => ?_⟩,
    fun s' x hx hvalid name hmem => ?_, fun s' name x hbody hx hnone => ?_⟩
  · refine (h.name s' name x (cached?_of_dropInFlow hx)).modifySource ?_ s
    intro source
    rfl
  · have hfits := h.file s' file x (byFile_dropInFlow w s d s' ▸ hx)
    exact ⟨hfits.housed, hfits.file⟩
  · have hmem : name ∈ w.bodies x := hmem
    refine (h.complete s' x (stores_of_dropInFlow hx) hvalid name hmem).imp_left fun hsome => ?_
    obtain ⟨y, hy⟩ := Option.isSome_iff_exists.1 hsome
    rcases cached?_dropInFlow_cases w s d s' name with hsame | ⟨rfl, hgone⟩
    · rwa [hsame]
    · rcases h.toLineage.owner_of_dropped hs hmem hy hgone with rfl | ⟨other, hz, hother⟩
      · exact absurd hd hvalid
      · -- the document itself is dropped then, under the only name that it has
        obtain ⟨k, rfl⟩ := h.toLineage.isBody_of_dropped hs hz hother
        rcases hx with ⟨other, hx⟩ | ⟨file, hx⟩
        · cases h.toShelved.name_eq hz (cached?_of_dropInFlow hx)
          cases hother.symm.trans hx
        · exact absurd (byFile_dropInFlow w s' d s' ▸ hx) (h.toShelved.not_filed hz)
  · rcases h.owned s' name x hbody (cached?_of_dropInFlow hx) hnone with hx' | ⟨owner, howner, hmem⟩
    · obtain ⟨rfl, hmem⟩ := hloose s' name hx'
      cases (h.toLineage.cached?_dropInFlow_of_mem hs hmem).symm.trans hx
    · refine .inr ⟨owner, ?_, hmem⟩
      rcases howner with ⟨other, howner⟩ | ⟨file, howner⟩
      · rcases cached?_dropInFlow_cases w s d s' other with hsame | ⟨rfl, hgone⟩
        · exact .inl ⟨other, hsame.trans howner⟩
        · rw [cached?_dropInFlow_eq hs] at hgone
          have hdropped := get?_dropReachable_of_next howner hgone ((h.recorded owner name).2 hmem)
          rw [← cached?_dropInFlow_eq hs] at hdropped
          cases hdropped.symm.trans hx
      · exact .inr ⟨file, (congrArg (·.get? file) (byFile_dropInFlow w s d s')).trans howner⟩

end drop

/-- A document is kept under a name that is free. -/
theorem Tended.keepByName (h : w.Tended hole loose) (hs : s.index < w.sources.length) (hfits : w.FitsName s name d)
    (hd : w.bodies d = [] ∨ w.Stores s d) (hnone : w.cached? s name = none)
    (howner : Document.isInFlow name = true → (w.document d).file = none →
      loose s name ∨ ∃ x, w.Stores s x ∧ name ∈ w.bodies x) :
    (w.keepByName s name d).1.Tended (fun s' other => hole s' other ∧ ¬ (s' = s ∧ other = name)) loose := by
  refine (h.insert (f := fun source => { source with byName := ((w.source s).byName.insertIfAbsent name d).1 })
    (fun _ => rfl) hs hfits hd rfl (get?_keepByName_of_none hnone d) howner).imp (fun _ _ _ _ => .inr) ?_
  rintro s' other x - (hloose | ⟨-, old, hsome, -⟩)
  · exact hloose
  · cases hnone.symm.trans hsome

/-- A document with a name and a text. -/
def written (w : World) (s : SourceId) (name text tag : String) : Document :=
  { name, text, tag, timestamp := w.clock, source := s, lastCheck := w.clock }

theorem isNew_written (w : World) (s : SourceId) (name text tag : String) : (w.written s name text tag).IsNew s name :=
  ⟨rfl, rfl, rfl, rfl, rfl⟩

theorem isNew_anew (w : World) (s : SourceId) (name : String) (d : DocumentId) : (w.anew s name d).IsNew s name :=
  ⟨rfl, rfl, rfl, rfl, rfl⟩

/-- A document is added, and comes under the name. -/
def shelve (w : World) (s : SourceId) (name : String) (y : Document) : World :=
  (w.addDocument y).1.modifySource s fun source =>
    { source with byName := source.byName.insert name ⟨w.documents.length⟩ }

theorem cached?_shelve (w : World) (y : Document) (hs : s.index < w.sources.length) (name other : String) :
    (w.shelve s name y).cached? s other = if other = name then some ⟨w.documents.length⟩ else w.cached? s other :=
  cached?_insert (w.addDocument y).1 _ hs other

section fresh

variable (hs : s.index < w.sources.length) (hy : y.IsNew s name)

include hy

theorem fitsName_new (w : World) : (w.addDocument y).1.FitsName s name ⟨w.documents.length⟩ := by
  have hdoc : (w.addDocument y).1.document ⟨w.documents.length⟩ = y := document_addDocument w y
  refine ⟨⟨by simp [World.addDocument], ?_⟩, fun _ => ?_, fun _ => ?_, fun _ => ?_⟩ <;> rw [hdoc]
  · exact hy.source
  · exact hy.name
  · exact hy.file
  · exact hy.file

theorem bodies_new (w : World) : (w.addDocument y).1.bodies ⟨w.documents.length⟩ = [] :=
  bodies_of_none ((congrArg Document.executable (document_addDocument w y)).trans hy.executable)

theorem Tended.addNew (h : w.Tended hole loose) (hnumber : ∀ k, name = Document.inFlowName k → k < w.inFlowCount) :
    (w.addDocument y).1.Tended hole loose := h.addDocument hy.executable hy.dependencies (hy.name ▸ hnumber)

include hs

/-- A new document comes under its name. -/
theorem Tended.shelve (h : w.Tended hole loose) (hnumber : ∀ k, name = Document.inFlowName k → k < w.inFlowCount)
    (howner : Document.isInFlow name = true → loose s name ∨ ∃ x, w.Stores s x ∧ name ∈ w.bodies x) :
    (w.shelve s name y).Tended (fun s' other => hole s' other ∧ ¬ (s' = s ∧ other = name))
      (fun s' other => loose s' other ∨ s' = s ∧ ∃ old, w.cached? s name = some old ∧ other ∈ w.bodies old) := by
  have hinsert := (h.addNew hy hnumber).insert
    (f := fun source => { source with byName := source.byName.insert name ⟨w.documents.length⟩ }) (fun _ => rfl) hs
    (fitsName_new hy w) (.inl (bodies_new hy w)) rfl (fun other => OrderedMap.get?_insert _ name _ other) ?_
  · simp only [bodies_addDocument w hy.executable] at hinsert
    exact hinsert
  · intro hbody _
    simp only [bodies_addDocument w hy.executable]
    exact howner hbody

/-- A new document is kept under its name, which is free. -/
theorem Tended.keepNew (h : w.Tended hole loose) (hnumber : ∀ k, name = Document.inFlowName k → k < w.inFlowCount)
    (howner : Document.isInFlow name = true → loose s name ∨ ∃ x, w.Stores s x ∧ name ∈ w.bodies x)
    (hnone : w.cached? s name = none) :
    ((w.addDocument y).1.keepByName s name ⟨w.documents.length⟩).1.Tended
      (fun s' other => hole s' other ∧ ¬ (s' = s ∧ other = name)) loose := by
  refine (h.addNew hy hnumber).keepByName hs (fitsName_new hy w) (.inl (bodies_new hy w)) hnone fun hbody _ => ?_
  simp only [bodies_addDocument w hy.executable]
  exact howner hbody

end fresh

/-- No file stands for the name of a scriptlet body. -/
def Clear (w : World) : Prop := ∀ s k file, ¬ w.IsFiled s (Document.inFlowName k) file

section operations

variable (h : w.Kempt)

include h

theorem Kempt.steady (hsteady : w.Steady w') : w'.Kempt := hsteady.tended h

theorem Kempt.emit (e : Event) : (w.emit e).Kempt := h.steady (.emit w e)

theorem Kempt.setDocument (hname : Document.isInFlow name = false) (s : SourceId) (text tag : String) :
    (w.setDocument s name text tag none).1.Kempt := by
  have hy := w.isNew_written s name text tag
  let w₁ := w.shelve s name (w.written s name text tag)
  have hbody (k : Nat) (hk : name = Document.inFlowName k) : k < w.inFlowCount :=
    absurd hk (Document.ne_inFlowName hname k)
  by_cases hs : s.index < w.sources.length
  · have hinsert : w₁.Tended _ _ := Tended.shelve hs hy h hbody fun hbody => nomatch hname.symm.trans hbody
    unfold World.setDocument
    cases hold : w.cached? s name with
    | none =>
        refine hinsert.imp (fun _ _ _ _ hhole => .inr hhole.1) ?_
        rintro s' other x - (hloose | ⟨-, old, hsome, -⟩)
        · exact hloose
        · cases hold.symm.trans hsome
    | some old =>
        have hinvalid : w₁.Steady (w₁.modifyDocument old Document.invalidate) := .invalidate w₁ old
        have hbodies (x : DocumentId) : (w₁.modifyDocument old Document.invalidate).bodies x = w.bodies x :=
          (hinvalid.bodies_eq hinsert.toLineage x).trans (bodies_addDocument w rfl x)
        have herase := (hinvalid.tended hinsert).erase (d := old) (s := s)
          (f := fun source => { source with byFile := (source.byFile.eraseValue old).1 }) (fun _ => rfl)
          (fun _ => .inl rfl) fun file => (OrderedMap.get?_eraseValue_cases _ old file).symm
        have hlt : old.index < w₁.documents.length :=
          Nat.lt_of_lt_of_le (h.name s name old hold).housed.1 (List.prefix_append _ _).length_le
        have hdropped := herase.dropInFlow (s := s) (d := old) ?_ ?_ ?_
        · refine Kempt.steady (Kempt.emit (hdropped.imp ?_ fun _ _ _ _ => id) _) (.invalidateDependents _ s name)
          rintro s' d other - (hhole | ⟨-, hsome, hnone⟩)
          · exact .inr hhole.1
          · cases hsome.symm.trans hnone
        · simpa [w₁, World.shelve, modifySource, World.modifyDocument, World.addDocument] using hs
        · refine (congrArg Document.validity (document_modifyDocument w₁ Document.invalidate old hlt)).trans ?_
          rw [if_pos rfl]
          rfl
        · change ∀ s' other, _ → s' = s ∧ other ∈ (w₁.modifyDocument old Document.invalidate).bodies old
          rintro s' other ((hloose | ⟨rfl, old', hsome, hmem⟩) | hloose)
          · cases hloose
          · cases hold.symm.trans hsome
            exact ⟨rfl, hbodies old ▸ hmem⟩
          · exact hloose
  · have hnone : w.cached? s name = none := by
      cases hold : w.cached? s name with
      | none => rfl
      | some d => exact absurd (lt_of_cached? hold) hs
    unfold World.setDocument
    rw [hnone]
    have hle : (w.addDocument (w.written s name text tag)).1.sources.length ≤ s.index := Nat.le_of_not_lt hs
    change Kempt ((w.addDocument (w.written s name text tag)).1.modifySource s _)
    rw [modifySource_of_le hle]
    exact Tended.addNew hy h hbody

theorem Kempt.setDocumentIfAbsent (hname : Document.isInFlow name = false) (s : SourceId) (text tag : String) :
    (w.setDocumentIfAbsent s name text tag none).1.Kempt := by
  let y := w.written s name text tag
  have hy : y.IsNew s name := w.isNew_written s name text tag
  have hbody (k : Nat) (hk : name = Document.inFlowName k) : k < w.inFlowCount :=
    absurd hk (Document.ne_inFlowName hname k)
  have hadd : (w.addDocument y).1.Kempt := Tended.addNew hy h hbody
  change ((w.addDocument y).1.keepByName s name ⟨w.documents.length⟩).1.Kempt
  cases hold : w.cached? s name with
  | some old => exact hadd.steady (.keepByName (w := (w.addDocument y).1) hold _)
  | none =>
      by_cases hs : s.index < w.sources.length
      · exact (Tended.keepNew hs hy h hbody (fun hbody => nomatch hname.symm.trans hbody) hold).imp
          (fun _ _ _ _ hhole => .inr hhole.1) fun _ _ _ _ => id
      · rw [keepByName_fst, modifySource_of_le (w := (w.addDocument y).1) (Nat.le_of_not_lt hs)]
        exact hadd

/-- The name of a document is none of those that go with it. -/
theorem Kempt.cached?_dropInFlow_self (hd : w.cached? s name = some d) (hfile : (w.document d).file = none) :
    (w.dropInFlow s d).cached? s name = some d := by
  have hs := lt_of_cached? hd
  rcases cached?_dropInFlow w s d name with hgone | hsame
  · cases hbody : Document.isInFlow name with
    | false => exact (cached?_dropInFlow_of_not hbody w s d).trans hd
    | true =>
        obtain ⟨x, -, hmem⟩ := (h.owned s name d hbody hd hfile).resolve_left id
        obtain ⟨k, -, rfl⟩ := h.given x name hmem
        obtain ⟨k', hlt, heq⟩ := Tended.lt_of_dropped hs h ((h.name s _ d hd).own hfile) hd hgone
        cases Document.inFlowName_inj.1 heq
        exact absurd hlt (Nat.lt_irrefl _)
  · exact hsame.trans hd

theorem Kempt.renew_eq (hmemory : w.IsMemory s) (hd : w.cached? s name = some d) : (w.renew s name d).1 =
    ((w.emit (.evicted name .invalid)).dropInFlow s d).shelve s name (w.anew s name d) := by
  have hkept := (h.emit (.evicted name .invalid)).cached?_dropInFlow_self hd ((h.name s name d hd).memory hmemory)
  unfold World.renew
  exact congrArg Prod.fst (if_pos hkept)

theorem Kempt.cached?_renew (hmemory : w.IsMemory s) (hd : w.cached? s name = some d) :
    (w.renew s name d).1.cached? s name = some ⟨w.documents.length⟩ := by
  have hs : s.index < ((w.emit (.evicted name .invalid)).dropInFlow s d).sources.length := by
    simpa [World.dropInFlow, modifySource, World.emit] using lt_of_cached? hd
  rw [h.renew_eq hmemory hd]
  exact (cached?_shelve _ (w.anew s name d) hs name name).trans (if_pos rfl)

theorem Kempt.renew (hmemory : w.IsMemory s) (hd : w.cached? s name = some d)
    (hinvalid : (w.document d).validity = .invalid) : (w.renew s name d).1.Kempt := by
  have hs := lt_of_cached? hd
  have hfits := h.name s name d hd
  have hfile := hfits.memory hmemory
  have hown := hfits.own hfile
  let w₁ := (w.emit (.evicted name .invalid)).dropInFlow s d
  have hs₁ : s.index < w₁.sources.length := by simpa [w₁, World.dropInFlow, modifySource, World.emit] using hs
  have h₀ := h.emit (.evicted name .invalid)
  have h₁ : w₁.Kempt := h₀.dropInFlow hs hinvalid fun _ _ => False.elim
  have hkept : w₁.cached? s name = some d := h₀.cached?_dropInFlow_self hd hfile
  have hdropped {other : String} (hmem : other ∈ w.bodies d) : w₁.cached? s other = none :=
    h₀.toLineage.cached?_dropInFlow_of_mem hs hmem
  have hinsert := Tended.shelve hs₁ (w.isNew_anew s name d) h₁ (fun k hk => h.numbered d k (hown.trans hk))
    fun hbody => h₁.owned s name d hbody hkept hfile
  rw [h.renew_eq hmemory hd]
  have hcached := cached?_shelve w₁ (w.anew s name d) hs₁ name
  refine hinsert.imp (fun _ _ _ _ hhole => .inr hhole.1) ?_
  rintro s' other x hx (hloose | ⟨rfl, old, hold, hmem⟩)
  · exact hloose
  · cases hkept.symm.trans hold
    rw [hcached] at hx
    split at hx
    · next heq =>
        subst heq
        obtain ⟨k, -, rfl⟩ := h.given d other hmem
        exact absurd (h.ordered d k k hown hmem) (Nat.lt_irrefl k)
    · cases (hdropped hmem).symm.trans hx

theorem Kempt.forget (s : SourceId) (d : DocumentId) : (w.modifySource s fun source => source.forget d).Tended
    (fun s' name => s' = s ∧ w.cached? s name = some d) fun s' name => s' = s ∧ name ∈ w.bodies d := by
  refine (h.erase (s := s) (d := d) (f := fun source => source.forget d) (fun _ => rfl)
    (fun name => (OrderedMap.get?_eraseValue_cases _ d name).symm)
    fun file => (OrderedMap.get?_eraseValue_cases _ d file).symm).imp ?_ fun _ _ _ _ hloose => hloose.resolve_left id
  rintro s' d other - (hhole | ⟨hs', hsome, -⟩)
  · cases hhole
  · exact .inr ⟨hs', hsome⟩

theorem Kempt.evict (hs : s.index < w.sources.length) (hinvalid : (w.document d).validity = .invalid) :
    (w.evict s d).Tended (fun s' name => s' = s ∧ w.cached? s name = some d) fun _ _ => False := by
  have hs₁ : s.index < (w.modifySource s fun source => source.forget d).sources.length := by
    simpa [modifySource] using hs
  exact (Steady.emit _ _).tended ((h.forget s d).dropInFlow hs₁ hinvalid fun _ _ => id)

/-- What a body stands in stays where the body's document is evicted. -/
theorem Kempt.stores_evict {k : Nat} (hs : s.index < w.sources.length) (hk : (w.document d).name = Document.inFlowName k)
    (hx : w.Stores s x) (hmem : Document.inFlowName k ∈ w.bodies x) : (w.evict s d).Stores s x := by
  have hne : x ≠ d := by
    rintro rfl
    exact Nat.lt_irrefl k (h.ordered x k k hk hmem)
  have hs₁ : s.index < (w.modifySource s fun source => source.forget d).sources.length := by
    simpa [modifySource] using hs
  have hforget : (w.modifySource s fun source => source.forget d).source s = (w.source s).forget d :=
    source_modifySource _ hs
  have hbyFile : ((w.evict s d).source s).byFile = ((w.source s).forget d).byFile :=
    (byFile_modifyByName _ s _).trans (congrArg Source.byFile hforget)
  rcases hx with ⟨other, hx⟩ | ⟨file, hx⟩
  · have hkept : (w.modifySource s fun source => source.forget d).cached? s other = some x := by
      unfold cached?
      rw [hforget]
      refine (OrderedMap.get?_eraseValue _ d other).trans ?_
      rw [hx, if_neg]
      exact fun heq => hne (Option.some.inj heq)
    refine .inl ⟨other, ?_⟩
    rcases cached?_dropInFlow (w.modifySource s fun source => source.forget d) s d other with hgone | hsame
    · obtain ⟨k', hlt, rfl⟩ := (h.forget s d).lt_of_dropped hs₁ hk hkept hgone
      have hfits := h.name s _ x hx
      exact absurd (h.ordered x k' k (hfits.own (hfits.fileless ⟨k', rfl⟩)) hmem) (Nat.lt_asymm hlt)
    · exact hsame.trans hkept
  · refine .inr ⟨file, ?_⟩
    rw [hbyFile]
    refine (OrderedMap.get?_eraseValue _ d file).trans ?_
    rw [hx, if_neg]
    exact fun heq => hne (Option.some.inj heq)

/-- A document that comes from a file leaves no hole. -/
theorem Kempt.evict_of_file (hs : s.index < w.sources.length) (hinvalid : (w.document d).validity = .invalid)
    (hfile : (w.document d).file ≠ none) : (w.evict s d).Kempt := by
  refine (h.evict hs hinvalid).imp ?_ fun _ _ _ _ => id
  rintro s' x other hmem ⟨rfl, hd⟩
  obtain ⟨k, -, hk⟩ := (h.evict hs hinvalid).given x other hmem
  exact absurd ((h.name s' other d hd).fileless ⟨k, hk⟩) hfile

/-- An invalid document that does not come from a file is put in place again: no hole is left where it was. -/
theorem Kempt.reenter (hd : w.cached? s name = some d) (hinvalid : (w.document d).validity = .invalid)
    (hfile : (w.document d).file = none) : (w.reenter s name d).Kempt := by
  have hs := lt_of_cached? hd
  have hown := (h.name s name d hd).own hfile
  have hevict := h.evict hs hinvalid
  have hnone := cached?_evict_of_cached hd
  have howner (hbody : Document.isInFlow name = true) :
      False ∨ ∃ x, (w.evict s d).Stores s x ∧ name ∈ (w.evict s d).bodies x := by
    obtain ⟨x, hx, hmem⟩ := (h.owned s name d hbody hd hfile).resolve_left id
    obtain ⟨k, -, rfl⟩ := h.given x name hmem
    exact .inr ⟨x, h.stores_evict hs hown hx hmem, hmem⟩
  have hs₂ : s.index < (w.evict s d).sources.length := by
    simpa [World.evict, World.emit, World.dropInFlow, modifySource] using hs
  rw [reenter_eq]
  refine (Tended.keepNew hs₂ (w.isNew_anew s name d) hevict (fun k hk => h.numbered d k (hown.trans hk)) howner hnone).imp
    ?_ fun _ _ _ _ => id
  rintro s' x other hmem ⟨⟨rfl, hother⟩, hne⟩
  have hmem : other ∈ ((w.evict s' d).addDocument (w.anew s' name d)).1.bodies x := hmem
  rw [bodies_addDocument _ rfl] at hmem
  obtain ⟨k, -, rfl⟩ := h.given x other hmem
  exact absurd ⟨rfl, (h.toShelved.name_eq hother hd).symm⟩ hne

/-- A document that was found by its file is kept under one more name. -/
theorem Kempt.keep (hclear : w.Clear) (hname : w.cached? s name = none) (hfiled : w.IsFiled s name file)
    (hd : (w.source s).byFile.get? file = some d) : (w.keepByName s name d).1.Kempt := by
  have hfits := h.file s file d hd
  refine (Tended.keepByName h hfiled.lt ⟨hfits.housed, fun hnone => ?_, ?_, fun hmemory => ?_⟩ (.inr ?_) hname
    fun _ hnone => ?_).imp (fun _ _ _ _ hhole => .inr hhole.1) fun _ _ _ _ => id
  · cases hnone.symm.trans hfits.file
  · rintro ⟨k, rfl⟩
    exact absurd hfiled (hclear s k file)
  · exact absurd hmemory.choose_spec hfiled.not_memory
  · exact .inr ⟨file, hd⟩
  · cases hnone.symm.trans hfits.file

theorem Kempt.keepFile {mtime : Int} (hclear : w.Clear) (hname : w.cached? s name = none) (hfiled : w.IsFiled s name file)
    (hnone : (w.source s).byFile.get? file = none) : (w.keepFile s name text file mtime).Kempt := by
  let y := w.fromFile s name text file mtime
  let d : DocumentId := ⟨w.documents.length⟩
  have hy : (w.addDocument y).1.document d = y := document_addDocument w y
  have hnil : (w.addDocument y).1.bodies d = [] := bodies_of_none (congrArg Document.executable hy)
  have hadd : (w.addDocument y).1.Kempt := by
    refine h.addDocument rfl rfl ?_
    rintro k rfl
    exact absurd hfiled (hclear s k file)
  have hhoused : (w.addDocument y).1.Housed s d := ⟨by simp [World.addDocument, d], congrArg Document.source hy⟩
  have hfile : ((w.addDocument y).1.keepByFile s file d).1.Kempt := by
    refine Tended.insertFile (fun _ => rfl) hadd hfiled.lt ⟨hhoused, congrArg Document.file hy⟩ hnil rfl hnone fun other => ?_
    refine (OrderedMap.get?_insertIfAbsent _ file d other).trans ?_
    rw [OrderedMap.insertIfAbsent_snd]
    change (if other = file then some (((w.source s).byFile.get? file).getD d) else _) = _
    rw [hnone]
    rfl
  have hs : s.index < ((w.addDocument y).1.keepByFile s file d).1.sources.length := by
    simpa [World.keepByFile, modifySource, World.addDocument] using hfiled.lt
  have hfree : ((w.addDocument y).1.keepByFile s file d).1.cached? s name = none :=
    (cached?_keepByFile _ s file d name).trans hname
  have hsome : (((w.addDocument y).1.keepByFile s file d).1.document d).file ≠ none := by
    change ((w.addDocument y).1.document d).file ≠ none
    rw [hy]
    exact Option.some_ne_none file
  refine (Tended.keepByName hfile hs ⟨hhoused, fun hnone => ?_, ?_, fun hmemory => ?_⟩ (.inl hnil) hfree
    fun _ hnone => ?_).imp (fun _ _ _ _ hhole => .inr hhole.1) fun _ _ _ _ => id
  · exact absurd hnone hsome
  · rintro ⟨k, rfl⟩
    exact absurd hfiled (hclear s k file)
  · exact absurd (((ages_keepByFile _ s d file).storage s).symm.trans hmemory.choose_spec) hfiled.not_memory
  · exact absurd hnone hsome

/-- Whatever a lookup does keeps documents and their bodies together. -/
theorem Kempt.chore (hclear : w.Clear) (hchore : Chore s w w') : w'.Kempt := by
  cases hchore with
  | check hchecks => exact h.steady (.of_checks hchecks)
  | renew hmemory hd hinvalid => exact h.renew hmemory hd hinvalid
  | evict hfiles hinvalid hfile =>
      refine h.evict_of_file hfiles.lt hinvalid ?_
      rcases hfile with hsome | ⟨file, hd⟩
      · exact Option.isSome_iff_ne_none.1 hsome
      · rw [(h.file s file _ hd).file]
        exact nofun
  | reenter _ hd hinvalid hfile => exact h.reenter hd hinvalid hfile
  | keep hname hfiled hd _ => exact h.keep hclear hname hfiled hd
  | read hname hfiled hfile _ => exact h.keepFile hclear hname hfiled hfile

end operations

theorem frame_of_chore (h : Chore s w w') : w'.tree = w.tree ∧ ∀ s, (w'.source s).storage = (w.source s).storage := by
  refine ⟨?_, (ages_chore h).storage⟩
  cases h with
  | check hchecks => rw [hchecks.rechecks.world]
  | renew _ _ _ =>
      unfold World.renew
      dsimp only
      split <;> rfl
  | _ => rfl

/-- A lookup does nothing to files. -/
theorem frame_of_chores (h : ReflTransGen (Chore s) w w') :
    w'.tree = w.tree ∧ ∀ s, (w'.source s).storage = (w.source s).storage := by
  induction h with
  | refl => exact ⟨rfl, fun _ => rfl⟩
  | tail _ hchore ih =>
      obtain ⟨htree, hstorage⟩ := frame_of_chore hchore
      exact ⟨htree.trans ih.1, fun s => (hstorage s).trans (ih.2 s)⟩

theorem Clear.of_eq (h : w.Clear) (htree : w'.tree = w.tree)
    (hstorage : ∀ s, (w'.source s).storage = (w.source s).storage) : w'.Clear :=
  fun s k file hfiled => h s k file (hfiled.of_eq htree.symm (hstorage s).symm)

theorem Clear.of_ages (h : w.Clear) (hages : w.Ages w') (htree : w'.tree = w.tree) : w'.Clear :=
  h.of_eq htree hages.storage

theorem Clear.chores (h : w.Clear) (hchores : ReflTransGen (Chore s) w w') : w'.Clear :=
  h.of_eq (frame_of_chores hchores).1 (frame_of_chores hchores).2

theorem Kempt.chores (h : w.Kempt) (hclear : w.Clear) (hchores : ReflTransGen (Chore s) w w') : w'.Kempt := by
  induction hchores with
  | refl => exact h
  | tail hbefore hchore ih => exact ih.chore (hclear.chores hbefore) hchore

theorem Tended.untaken (h : w.Tended hole loose) (s : SourceId) : w.Untaken s := by
  intro k hk
  cases hd : w.cached? s (Document.inFlowName k) with
  | none => rfl
  | some d =>
      have hfits := h.name s _ d hd
      exact absurd (h.numbered d k (hfits.own (hfits.fileless ⟨k, rfl⟩))) (Nat.not_lt_of_le hk)

/-- What a lookup gives is kept under the name. -/
theorem Kempt.cached?_lookup (h : w.Kempt) (hclear : w.Clear) (hlookup : Lookup s name w w' (.ok (.document d))) :
    w'.cached? s name = some d := by
  rcases hlookup.outcome with ⟨f, hf⟩ | ⟨d', hd', -, hkept⟩
  · cases hf
  · cases hd'
    rcases hkept with hkept | ⟨⟨identifier, hmemory⟩, w₁, old, hchores, hold, rfl, rfl⟩
    · exact hkept
    · have hmemory₁ : w₁.IsMemory s := ⟨identifier, ((frame_of_chores hchores).2 s).trans hmemory⟩
      exact (h.chores hclear hchores).cached?_renew hmemory₁ hold

/-- A program's own bodies are on record with its document already. -/
theorem Kempt.addDependency (h : w.Kempt) (hname : Document.isInFlow name = true → name ∈ w.bodies d) :
    (w.modifyDocument d (·.addDependency name)).Kempt := by
  refine h.steady (.modifyDocument (Document.ages_addDependency _ name) ?_ ?_)
  · unfold Document.addDependency
    split <;> rfl
  · unfold Document.addDependency
    split
    · rfl
    · next hnew =>
        have hbody : Document.isInFlow name = false := by
          refine Bool.eq_false_iff.2 fun hbody => hnew ?_
          have hmem := (List.mem_filter.1 ((h.recorded d name).2 (hname hbody))).1
          rw [Bool.or_eq_true]
          exact .inr (List.contains_iff_mem.2 hmem)
        simp [Document.inFlowDependencies, hbody]

end World

end ScriptedText
