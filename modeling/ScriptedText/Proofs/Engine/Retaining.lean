import ScriptedText.Proofs.Engine.Sprouting
import ScriptedText.Proofs.Engine.Tending

/-!
What a source still has after a compilation. A body may come under a name that is taken already; that costs no other body its
name so long as no names lead from there to those that are still to come.
-/

namespace ScriptedText

open Relation

namespace World

/-- A name leads to those of the bodies that the document under it has on record. -/
def LeadsOn (s : SourceId) (w : World) (name other : String) : Prop :=
  ∃ d, w.cached? s name = some d ∧ other ∈ (w.document d).inFlowDependencies

/-- Names that are still to come do not lead to each other. -/
structure Unclaimed (s : SourceId) (w : World) : Prop where
  lt : ∀ name d, w.cached? s name = some d → d.index < w.documents.length
  apart : ∀ j k, w.inFlowCount ≤ j → w.inFlowCount ≤ k →
    ¬ TransGen (w.LeadsOn s) (Document.inFlowName j) (Document.inFlowName k)

/-- Documents have the same bodies on record, and names that were not given out meanwhile have no other document. -/
structure Remembers (s : SourceId) (w w' : World) : Prop where
  sources : w'.sources.length = w.sources.length
  counter : w.inFlowCount ≤ w'.inFlowCount
  documents : w.documents.length ≤ w'.documents.length
  onRecord : ∀ d, d.index < w.documents.length → (w'.document d).inFlowDependencies = (w.document d).inFlowDependencies
  others : ∀ name, ¬ Given w w' name → w'.cached? s name = none ∨ w'.cached? s name = w.cached? s name

variable {b w w' w₁ w₂ : World} {s : SourceId} {name other text tag : String} {d old : DocumentId}
  {e : Option ExecutableId} {j k : Nat}

namespace Remembers

theorem of_eq (hs : w'.sources = w.sources) (hd : w'.documents = w.documents) (hcounter : w.inFlowCount ≤ w'.inFlowCount) :
    Remembers s w w' where
  sources := by rw [hs]
  counter := hcounter
  documents := Nat.le_of_eq (congrArg List.length hd).symm
  onRecord d _ := by rw [document_eq_of_documents hd]
  others name _ := .inr (cached?_eq_of_sources hs s name)

theorem refl (s : SourceId) (w : World) : Remembers s w w := .of_eq rfl rfl (Nat.le_refl _)

theorem trans (h : Remembers s w w₁) (h' : Remembers s w₁ w₂) : Remembers s w w₂ where
  sources := h'.sources.trans h.sources
  counter := Nat.le_trans h.counter h'.counter
  documents := Nat.le_trans h.documents h'.documents
  onRecord d hd := (h'.onRecord d (Nat.lt_of_lt_of_le hd h.documents)).trans (h.onRecord d hd)
  others name hnot := by
    rcases h'.others name fun hgiven => hnot (hgiven.right h.counter) with hnone | hsame
    · exact .inl hnone
    · rw [hsame]
      exact h.others name fun hgiven => hnot (hgiven.left h'.counter)

end Remembers

/-- Where bodies belong to their documents, nothing is registered yet under a name that is still to come. -/
theorem Kempt.unclaimed (h : w.Kempt) (s : SourceId) : w.Unclaimed s where
  lt name d hd := (h.name s name d hd).housed.1
  apart j k hj _ hleads := by
    obtain ⟨_, ⟨d, hd, -⟩, -⟩ := TransGen.head'_iff.1 hleads
    cases (h.untaken s j hj).symm.trans hd

/-- Where a document is replaced, what happens last is that names are dropped and documents become invalid. -/
theorem setDocument_of_some (hs : s.index < w.sources.length) (hold : w.cached? s name = some old) (text tag : String)
    (e : Option ExecutableId) :
    ∃ w₁ : World, s.index < w₁.sources.length ∧
      (∀ other, w₁.cached? s other = if other = name then some ⟨w.documents.length⟩ else w.cached? s other) ∧
      (∀ d, d.index < w.documents.length → (w₁.document d).inFlowDependencies = (w.document d).inFlowDependencies) ∧
      (w₁.dropInFlow s old).Steady (w.setDocument s name text tag e).1 := by
  obtain ⟨x, hcreate, -⟩ := exists_createDocument w s name text tag e
  let w₁ := (w.addDocument x).1.modifySource s fun source =>
    { source with byName := source.byName.insert name ⟨w.documents.length⟩ }
  let w₂ := w₁.modifyDocument old Document.invalidate
  have hinvalidate : w₁.Steady w₂ := .invalidate w₁ old
  have hs₂ : s.index < w₂.sources.length := by
    simpa [w₂, w₁, modifyDocument, modifySource, addDocument] using hs
  refine ⟨w₂.modifySource s fun source => { source with byFile := (source.byFile.eraseValue old).1 }, ?_, fun other => ?_,
    fun d hd => ?_, ?_⟩
  · simpa [modifySource] using hs₂
  · have hcached : w₁.cached? s other = if other = name then some ⟨w.documents.length⟩ else w.cached? s other :=
      cached?_insert (w.addDocument x).1 _ hs other
    rw [← hcached, ← hinvalidate.cached?_eq]
    simp only [cached?, source_modifySource _ hs₂]
  · refine (hinvalidate.inFlowDependencies d).trans ?_
    exact congrArg Document.inFlowDependencies (document_of_grown (List.prefix_append _ _) hd)
  · simp only [setDocument, hcreate, hold]
    exact (Steady.emit _ _).trans (.invalidateDependents _ s name)

theorem onRecord_setDocument (hs : s.index < w.sources.length) (hd : d.index < w.documents.length) :
    ((w.setDocument s name text tag e).1.document d).inFlowDependencies = (w.document d).inFlowDependencies := by
  cases hold : w.cached? s name with
  | none =>
      obtain ⟨x, hcreate, -⟩ := exists_createDocument w s name text tag e
      simp only [setDocument, hcreate, hold]
      exact congrArg Document.inFlowDependencies (document_of_grown (List.prefix_append _ _) hd)
  | some old =>
      obtain ⟨w₁, -, -, hrecord, hsteady⟩ := setDocument_of_some hs hold text tag e
      exact (hsteady.inFlowDependencies d).trans (hrecord d hd)

/-- Once a body has come under its name, that leads to a document, and so do the names that were given out before. -/
theorem isSome_cached?_setDocument (hb : b.Unclaimed s) (hremembers : Remembers s b w) (hs : s.index < w.sources.length)
    (hk : b.inFlowCount ≤ k) (hj : b.inFlowCount ≤ j)
    (hfree : w.cached? s (Document.inFlowName k) = none ∨
      w.cached? s (Document.inFlowName k) = b.cached? s (Document.inFlowName k))
    (hcached : j = k ∨ (w.cached? s (Document.inFlowName j)).isSome = true) (text tag : String) (e : Option ExecutableId) :
    ((w.setDocument s (Document.inFlowName k) text tag e).1.cached? s (Document.inFlowName j)).isSome = true := by
  have hinserted : (if Document.inFlowName j = Document.inFlowName k then some ⟨w.documents.length⟩
      else w.cached? s (Document.inFlowName j)).isSome = true := by
    split
    · rfl
    · next hne => exact hcached.resolve_left fun heq => hne (congrArg Document.inFlowName heq)
  cases hold : w.cached? s (Document.inFlowName k) with
  | none =>
      obtain ⟨x, hcreate, -⟩ := exists_createDocument w s (Document.inFlowName k) text tag e
      simp only [setDocument, hcreate, hold]
      exact (congrArg Option.isSome (cached?_insert (w.addDocument x).1 _ hs (Document.inFlowName j))).trans hinserted
  | some old =>
      obtain ⟨w₁, hs₁, hnames, hrecord, hsteady⟩ := setDocument_of_some hs hold text tag e
      have hbase : b.cached? s (Document.inFlowName k) = some old := by
        rw [hold] at hfree
        exact (hfree.resolve_left nofun).symm
      have hsame {d : DocumentId} (hd : d.index < b.documents.length) :
          (w₁.document d).inFlowDependencies = (b.document d).inFlowDependencies :=
        (hrecord d (Nat.lt_of_lt_of_le hd hremembers.documents)).trans (hremembers.onRecord d hd)
      rw [← hnames] at hinserted
      obtain ⟨x, hx⟩ := Option.isSome_iff_exists.1 hinserted
      rw [hsteady.cached?_eq, Option.isSome_iff_ne_none]
      intro hgone
      rw [cached?_dropInFlow_eq hs₁] at hgone
      -- Whatever is dropped was led to before the compilation began.
      apply hb.apart k j hk hj
      refine of_get?_dropReachable (Q := TransGen (b.LeadsOn s) (Document.inFlowName k)) (fun name hname => ?_)
        (fun name y hname hy other hother => ?_) hx hgone
      · rw [hsame (hb.lt _ old hbase)] at hname
        exact .single ⟨old, hbase, hname⟩
      · have hnot (i : Nat) (hi : b.inFlowCount ≤ i) : name ≠ Document.inFlowName i := by
          rintro rfl
          exact hb.apart k i hk hi hname
        have hy : w₁.cached? s name = some y := hy
        rw [hnames, if_neg (hnot k hk)] at hy
        have hold : ¬ Given b w name := by
          rintro ⟨i, hi, -, heq⟩
          exact hnot i hi heq
        have hbefore := hremembers.others name hold
        rw [hy] at hbefore
        have hy : b.cached? s name = some y := (hbefore.resolve_left nofun).symm
        rw [hsame (hb.lt name y hy)] at hother
        exact .tail hname ⟨y, hy, hother⟩

end World

open World Act

section compilation

variable {s : SourceId} {o : Draft} {b w w' w₁ : World} {e : Option ExecutableId} {text : String}

/-- A body that has been compiled comes under its name, which may be taken. -/
theorem remembers_register (hs : s.index < w.sources.length)
    (hbody : World.Remembers s { w with inFlowCount := w.inFlowCount + 1 } w₁) :
    World.Remembers s w (w₁.setDocument s (Document.inFlowName w.inFlowCount) text "" e).1 := by
  have hstart : World.Remembers s w { w with inFlowCount := w.inFlowCount + 1 } := .of_eq rfl rfl (Nat.le_succ _)
  have hremembers := hstart.trans hbody
  have hregisters := registers_setDocument s w₁ (Document.inFlowName w.inFlowCount) text "" e
  refine ⟨hregisters.sources.trans hremembers.sources, ?_, ?_, fun d hd => ?_, fun name hnot => ?_⟩
  · rw [hregisters.counter]
    exact hremembers.counter
  · rw [hregisters.documents]
    exact Nat.le_succ_of_le hremembers.documents
  · have hd₁ := Nat.lt_of_lt_of_le hd hremembers.documents
    exact (onRecord_setDocument (by rwa [hremembers.sources]) hd₁).trans (hremembers.onRecord d hd)
  · have hne : name ≠ Document.inFlowName w.inFlowCount := by
      rintro rfl
      refine hnot ⟨w.inFlowCount, Nat.le_refl _, ?_, rfl⟩
      rw [hregisters.counter]
      exact hbody.counter
    rcases hregisters.others name hne with hnone | hsame
    · exact .inl hnone
    · rw [hsame]
      exact hremembers.others name fun hgiven => hnot (hgiven.left (Nat.le_of_eq hregisters.counter.symm))

/-- Seen from the world `b` where a compilation begins: no name that was still to come loses its document on the way. -/
structure World.Tends (s : SourceId) (b w w' : World) : Prop extends World.Remembers s w w' where
  kept : ∀ k, b.inFlowCount ≤ k →
    (w.cached? s (Document.inFlowName k)).isSome = true → (w'.cached? s (Document.inFlowName k)).isSome = true

theorem World.Tends.of_eq (hs : w'.sources = w.sources) (hd : w'.documents = w.documents)
    (hcounter : w.inFlowCount ≤ w'.inFlowCount) : World.Tends s b w w' where
  toRemembers := .of_eq hs hd hcounter
  kept k _ h := by rwa [cached?_eq_of_sources hs]

theorem tends_register (hb : b.Unclaimed s) (hs : s.index < w.sources.length) (hremembers : World.Remembers s b w)
    (hbody : World.Tends s b { w with inFlowCount := w.inFlowCount + 1 } w₁) (text : String) (e : Option ExecutableId) :
    World.Tends s b w (w₁.setDocument s (Document.inFlowName w.inFlowCount) text "" e).1 ∧
      ((w₁.setDocument s (Document.inFlowName w.inFlowCount) text "" e).1.cached? s
        (Document.inFlowName w.inFlowCount)).isSome = true := by
  have hstart : World.Remembers s w { w with inFlowCount := w.inFlowCount + 1 } := .of_eq rfl rfl (Nat.le_succ _)
  have hearlier : World.Remembers s b { w with inFlowCount := w.inFlowCount + 1 } := hremembers.trans hstart
  have hs₁ : s.index < w₁.sources.length := by rwa [hbody.sources]
  -- The name was given out before the body was compiled, and nothing came under it meanwhile.
  have hnew (w₀ w' : World) (h : w.inFlowCount < w₀.inFlowCount ∨ w'.inFlowCount ≤ w.inFlowCount) :
      ¬ Given w₀ w' (Document.inFlowName w.inFlowCount) := by
    rintro ⟨j, hlow, hhigh, heq⟩
    cases Document.inFlowName_inj.1 heq
    omega
  have hfree : w₁.cached? s (Document.inFlowName w.inFlowCount) = none ∨
      w₁.cached? s (Document.inFlowName w.inFlowCount) = b.cached? s (Document.inFlowName w.inFlowCount) := by
    rcases hbody.others _ (hnew _ _ (.inl (Nat.lt_succ_self _))) with hnone | hsame
    · exact .inl hnone
    · rw [hsame]
      exact hremembers.others _ (hnew _ _ (.inr (Nat.le_refl _)))
  have hcurrent := hearlier.trans hbody.toRemembers
  refine ⟨⟨remembers_register hs hbody.toRemembers, fun j hj h => ?_⟩, ?_⟩
  · exact isSome_cached?_setDocument hb hcurrent hs₁ hremembers.counter hj hfree (.inr (hbody.kept j hj h)) text "" e
  · exact isSome_cached?_setDocument hb hcurrent hs₁ hremembers.counter hremembers.counter hfree (.inl rfl) text "" e

/-- All names in the executable are in the cache, also where they were taken before. -/
theorem cached_compile {r : Except Failure ExecutableId} (ho : o.source = some s) (hs : s.index < w.sources.length)
    (hw : w.Unclaimed s) (h : w.compile o = (w', r)) :
    ∀ e, r = .ok e → ∀ name ∈ (w'.executable e).dependencies, (w'.cached? s name).isSome = true := by
  have hfounds : Founds (fun w₁ w₂ => World.Remembers s w w₁ → World.Tends s w w₁ w₂)
      (fun w₁ w₂ name => World.Remembers s w w₁ →
        ∃ k, w.inFlowCount ≤ k ∧ name = Document.inFlowName k ∧ (w₂.cached? s name).isSome = true)
      (compileWithin (o.text.length + 1) o) := by
    refine founds_compileWithin (Q := fun o => o.source = some s) ?_ ?_ ?_ ?_ ?_ ?_ ?_ (fun _ _ _ ho => ho)
      (fun o ho => by rw [ho]; rfl) ?_ _ ho
    · exact fun w₁ _ => .of_eq rfl rfl (Nat.le_refl _)
    · intro w₁ w₂ w₃ h h' hw₁
      have hfirst := h hw₁
      have hsecond := h' (hw₁.trans hfirst.toRemembers)
      exact ⟨hfirst.toRemembers.trans hsecond.toRemembers, fun k hk hkept => hsecond.kept k hk (hfirst.kept k hk hkept)⟩
    · intro w₁ w₂ w₃ name h h' hname hw₁
      obtain ⟨k, hk, rfl, hcached⟩ := hname hw₁
      exact ⟨k, hk, rfl, (h' (hw₁.trans (h hw₁).toRemembers)).kept k hk hcached⟩
    · exact fun w₁ w₂ w₃ name h h' hname hw₁ => hname (hw₁.trans (h hw₁).toRemembers)
    · exact fun w₁ e _ _ => .of_eq rfl rfl (Nat.le_refl _)
    · exact fun w₁ _ => .of_eq rfl rfl (Nat.le_succ _)
    · exact fun w₁ x _ _ => .of_eq rfl rfl (Nat.le_refl _)
    · intro w₁ w₂ o r depth e s' ho hs' hperform hbody hnames
      cases ho.symm.trans hs'
      have hregister (hw₁ : World.Remembers s w w₁) := tends_register hw (by rwa [hw₁.sources]) hw₁
        (hbody (hw₁.trans (.of_eq rfl rfl (Nat.le_succ _)))) (String.ofList r.source) (some e)
      exact ⟨fun hw₁ => (hregister hw₁).1, fun hw₁ => ⟨w₁.inFlowCount, hw₁.counter, rfl, (hregister hw₁).2⟩⟩
  rw [World.compile_eq_perform] at h
  cases h
  intro e he name hname
  obtain ⟨k, -, -, hcached⟩ := (hfounds w).2 e he name hname (.refl s w)
  exact hcached

end compilation

end ScriptedText
