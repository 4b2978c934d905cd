import ScriptedText.Proofs.Engine.InFlow
import ScriptedText.Proofs.Engine.Searching

/-!
A service that looks for a document in its main source, then in its libraries: the first one that has it decides what comes
of it, and the others are left as they are.
-/

namespace ScriptedText

open Relation

namespace World

variable {w w' w₁ : World} {s s' : SourceId} {name text tag : String} {d : DocumentId} {o : Draft}

theorem source_setDocument_of_ne (hs : s ≠ s') (w : World) (name text tag : String) (e : Option ExecutableId) :
    (w.setDocument s' name text tag e).1.source s = w.source s := by
  obtain ⟨x, hcreate, -⟩ := exists_createDocument w s' name text tag e
  have hinsert (d : DocumentId) : ((w.addDocument x).1.modifySource s' fun source =>
      { source with byName := source.byName.insert name d }).source s = w.source s :=
    source_modifySource_of_ne (w.addDocument x).1 _ hs
  unfold setDocument
  rw [hcreate]
  cases w.cached? s' name with
  | none => exact hinsert _
  | some old =>
      dsimp only
      unfold source
      rw [sources_invalidateDependents]
      exact (source_modifySource_of_ne _ _ hs).trans ((source_modifySource_of_ne _ _ hs).trans (hinsert _))

theorem source_renew_of_ne (hs : s ≠ s') (w : World) (name : String) (d : DocumentId) :
    (w.renew s' name d).1.source s = w.source s := by
  have hdropped : ((w.emit (.evicted name .invalid)).dropInFlow s' d).source s = w.source s :=
    source_modifySource_of_ne (w.emit _) _ hs
  unfold renew
  dsimp only
  split
  · exact (source_modifySource_of_ne _ _ hs).trans hdropped
  · exact hdropped

/-- What a lookup does it does to its own source. -/
theorem source_chore_of_ne (hs : s ≠ s') (h : Chore s' w w') : w'.source s = w.source s := by
  cases h with
  | check hchecks => exact hchecks.rechecks.source_eq s
  | renew _ _ _ => exact source_renew_of_ne hs w _ _
  | evict _ _ _ => exact source_evict_of_ne hs w _
  | reenter _ _ _ _ => exact (source_modifySource_of_ne _ _ hs).trans (source_evict_of_ne hs w _)
  | keep _ _ _ _ => exact source_modifySource_of_ne w _ hs
  | read _ _ _ _ => exact (source_modifySource_of_ne _ _ hs).trans (source_modifySource_of_ne (w.addDocument _).1 _ hs)

theorem source_chores_of_ne (hs : s ≠ s') (h : ReflTransGen (Chore s') w w') : w'.source s = w.source s := by
  induction h with
  | refl => rfl
  | tail _ hchore ih => exact (source_chore_of_ne hs hchore).trans ih

theorem source_compile_of_ne (hs : s ≠ s') (ho : o.source = some s') (w : World) : (w.compile o).1.source s = w.source s := by
  refine Act.relates_compile (R := fun w w' => w'.source s = w.source s) (fun _ => rfl) (fun _ _ _ h h' => h'.trans h)
    (fun _ _ _ => rfl) (fun _ => rfl) (fun w s'' name text e hs'' => ?_) (fun _ _ _ => rfl) w
  cases ho.symm.trans hs''
  exact source_setDocument_of_ne hs w name text "" (some e)

variable {id : TaskId} {isText : Bool} {compilation : Compilation} {first : SourceId} {rest : List SourceId} {r : Outcome}

/-- What a source that has a document comes to: the executable of the document that it finds, made of that, or a failure to
read the document or to compile it. -/
inductive Yields (id : TaskId) (s : SourceId) (name : String) (isText : Bool) (compilation : Compilation) (w w' : World) :
    Outcome → Prop
  | made {w₁ : World} {d : DocumentId} {e : ExecutableId}
      (hfound : Task.Ends id w ⟨[], .call (.getDocument s name)⟩ w₁ (.ok (.document d))) (hfits : w'.Fits s name d)
      (he : (w'.document d).executable = some e) (hmade : w'.Made (w'.document d) e) :
      Yields id s name isText compilation w w' (.ok (.executable e))
  | unreadable {reason : String}
      (hfailed : Task.Ends id w ⟨[], .call (.getDocument s name)⟩ w' (.error (Files.Naming.unreadable name reason))) :
      Yields id s name isText compilation w w' (.error (Files.Naming.unreadable name reason))
  | rejected {w₁ : World} {d : DocumentId} {f : Failure}
      (hfound : Task.Ends id w ⟨[], .call (.getDocument s name)⟩ w₁ (.ok (.document d)))
      (hcompile : w₁.compile (Move.draftOf w₁ s name d isText compilation) = (w', .error f)) :
      Yields id s name isText compilation w w' (.error f)

theorem Yields.not_missing (h : Yields id s name isText compilation w w' r) {f : Fault} (hf : r = .error (.fault f))
    (other : String) : f.kind ≠ .documentMissing other := by
  cases h with
  | made _ _ _ _ => cases hf
  | unreadable _ =>
      cases hf
      exact nofun
  | rejected _ hcompile =>
      cases hf
      rw [show f.kind = .parsing from isRejection_of_compile hcompile]
      exact nofun

theorem attachExecutable_holds_of_none (hd : d.index < w.documents.length) (hnone : (w.document d).executable = none)
    (e : ExecutableId) : ((w.attachExecutable d e).1.document d).executable = some e ∧ (w.attachExecutable d e).2 = e := by
  refine ⟨congrArg Document.executable (document_attachExecutable_self hnone e hd), ?_⟩
  unfold attachExecutable
  rw [hnone]

theorem Homegrown.ends_afterCreating (h : w₁.Homegrown) (hfits : w₁.Fits s name d)
    (hfound : Task.Ends id w ⟨[], .call (.getDocument s name)⟩ w₁ (.ok (.document d))) (isText : Bool)
    (compilation : Compilation) : ∃ w' r, (Move.afterCreating w₁ s name d isText compilation).Ends id w' r ∧
      Yields id s name isText compilation w w' r ∧ ∀ s' ≠ s, w'.source s' = w₁.source s' := by
  have hhomegrown := h.afterCreating hfits isText compilation
  have hages := (Move.ages_afterCreating w₁ s name d isText compilation).world
  unfold Move.afterCreating at hhomegrown hages ⊢
  cases he : (w₁.document d).executable with
  | some e =>
      exact ⟨w₁, _, Move.ends_settle.2 ⟨rfl, rfl⟩, .made hfound hfits he (h.made d e he), fun _ _ => rfl⟩
  | none =>
      rw [he] at hhomegrown hages
      dsimp only at hhomegrown hages ⊢
      have hothers (s' : SourceId) (hs : s' ≠ s) :
          (w₁.compile (Move.draftOf w₁ s name d isText compilation)).1.source s' = w₁.source s' :=
        source_compile_of_ne hs rfl w₁
      have hretains := Retains.compile w₁ (Move.draftOf w₁ s name d isText compilation)
      cases hcompile : w₁.compile (Move.draftOf w₁ s name d isText compilation) with
      | mk w₂ result =>
        rw [hcompile] at hothers hhomegrown hages hretains
        cases result with
        | error f => exact ⟨w₂, _, Move.ends_settle.2 ⟨rfl, rfl⟩, .rejected hfound hcompile, hothers⟩
        | ok e =>
            obtain ⟨hattached, hwinner⟩ :=
              attachExecutable_holds_of_none (Nat.lt_of_lt_of_le hfits.housed.1 hretains.documents)
                ((hretains.executable d hfits.housed.1).trans he) e
            refine ⟨(w₂.attachExecutable d e).1, _, Move.ends_settle.2 ⟨rfl, rfl⟩, ?_, fun s' hs => ?_⟩
            · rw [hwinner]
              exact .made hfound (hfits.of_ages hages) hattached (hhomegrown.made d e hattached)
            · refine Eq.trans ?_ (hothers s' hs)
              unfold source
              rw [sources_attachExecutable]

/-- A source that has the document serves it, and nothing happens to others. -/
theorem Homegrown.ends_createOnce_of_offers (h : w.Homegrown) (hsound : w.tree.Sound) (hoffers : w.Offers s name) (isText : Bool)
    (compilation : Compilation) (id : TaskId) :
    ∃ w' r, Task.Ends id w ⟨[], .call (.createOnce s name isText compilation)⟩ w' r ∧
      Yields id s name isText compilation w w' r ∧ ∀ s' ≠ s, w'.source s' = w.source s' := by
  obtain ⟨w₁, r, hlookup, -⟩ := ends_getDocument w s name id
  have hlooked := lookup_of_ends hlookup
  have hothers (s' : SourceId) (hs : s' ≠ s) : w₁.source s' = w.source s' := source_chores_of_ne hs hlooked.chores
  have hgoes {w' : World} {r' : Outcome} (hrest : (Move.resume w₁ id (.creating s name isText compilation) r).Ends id w' r') :
      Task.Ends id w ⟨[], .call (.createOnce s name isText compilation)⟩ w' r' :=
    Task.ends_call.2 ((Move.ends_call_of_ends hlookup).2 hrest)
  rcases hlooked.outcome with ⟨f, rfl⟩ | ⟨d, rfl, -⟩
  · obtain ⟨reason, rfl⟩ := unreadable_of_offers hsound hoffers hlookup
    exact ⟨w₁, _, hgoes (Move.ends_settle.2 ⟨rfl, rfl⟩), .unreadable hlookup, hothers⟩
  · obtain ⟨w', r', hends, hyields, hothers'⟩ :=
      (h.chores hlooked.chores).ends_afterCreating (h.fits_of_lookup hlooked) hlookup isText compilation
    exact ⟨w', r', hgoes hends, hyields, fun s' hs => (hothers' s' hs).trans (hothers s' hs)⟩

theorem ends_createOnce_of_missing {id : TaskId} {f : Failure} (isText : Bool) (compilation : Compilation)
    (h : Task.Ends id w ⟨[], .call (.getDocument s name)⟩ w' (.error f)) :
    Task.Ends id w ⟨[], .call (.createOnce s name isText compilation)⟩ w' (.error f) :=
  Task.ends_call.2 ((Move.ends_call_of_ends h).2 (Move.ends_settle.2 ⟨rfl, rfl⟩))

/-- The service comes to what the source comes to by itself, once those before it have been asked, of which neither it nor
any later one takes notice; and no other source gains a document. -/
structure DecidedBy (id : TaskId) (name : String) (isText : Bool) (compilation : Compilation) (before : List SourceId)
    (s : SourceId) (w w' : World) (r : Outcome) : Prop where
  alone : ∃ w₁, (∀ s' ∉ before, w.Bypasses s' w₁) ∧
    Task.Ends id w₁ ⟨[], .call (.createOnce s name isText compilation)⟩ w' r ∧ Yields id s name isText compilation w₁ w' r
  others : ∀ s' ≠ s, ∀ d, w'.Stores s' d → w.Stores s' d

/-- The first source that has the document decides; if none has it, it is missing. -/
structure Searches (id : TaskId) (name : String) (isText : Bool) (compilation : Compilation) (sources : List SourceId)
    (w w' : World) (r : Outcome) : Prop where
  decided : ∀ before s after, sources = before ++ s :: after → (∀ s' ∈ before, ¬ w.Offers s' name) → w.Offers s name →
    DecidedBy id name isText compilation before s w w' r
  missing_iff : r = .error (Files.Naming.missing name) ↔ ∀ s ∈ sources, ¬ w.Offers s name
  others : (∀ s ∈ sources, ¬ w.Offers s name) → ∀ s d, w'.Stores s d → w.Stores s d

theorem afterSearching_of_final (hfinal : ∀ f, r = .error (.fault f) → ∀ other, f.kind ≠ .documentMissing other)
    (w : World) (rest : List SourceId) (name : String) (isText : Bool) (compilation : Compilation) :
    Move.afterSearching w rest name isText compilation r = Move.settle w r := by
  unfold Move.afterSearching
  split
  · next f s rest =>
      split
      · next other hkind => exact absurd hkind (hfinal f rfl other)
      · rfl
  · rfl

theorem Homegrown.offers_iff_of_misses (h : w.Homegrown) (hmisses : Misses s name w w') (hnot : ¬ w.Offers s name) (s' : SourceId) :
    w'.Offers s' name ↔ w.Offers s' name := by
  by_cases hs : s' = s
  · subst hs
    exact iff_of_false hmisses.not_offers hnot
  · exact (hmisses.bypasses s' hs).offers_iff (fun name d hd => (h.name s' name d hd).housed) name

theorem Searches.of_offers (hoffers : w.Offers first name) (hends : Task.Ends id w ⟨[], .call (.createOnce first name isText compilation)⟩ w' r)
    (hyields : Yields id first name isText compilation w w' r) (hothers : ∀ s' ≠ first, w'.source s' = w.source s') :
    Searches id name isText compilation (first :: rest) w w' r := by
  have hsome : ¬ ∀ s ∈ first :: rest, ¬ w.Offers s name := fun hnone => hnone first (List.mem_cons_self ..) hoffers
  refine ⟨fun before s after hsources hbefore _ => ?_, iff_of_false (fun hr => ?_) hsome, fun hnone => absurd hnone hsome⟩
  · cases before with
    | nil =>
        obtain ⟨rfl, -⟩ := List.cons.inj hsources
        refine ⟨⟨w, fun s' _ => .refl s' w, hends, hyields⟩, fun s' hs d hd => ?_⟩
        rwa [Stores, hothers s' hs] at hd
    | cons s' before =>
        obtain ⟨rfl, -⟩ := List.cons.inj hsources
        exact absurd hoffers (hbefore _ (List.mem_cons_self ..))
  · exact hyields.not_missing hr name rfl

theorem Searches.nil (id : TaskId) (name : String) (isText : Bool) (compilation : Compilation) (w : World) :
    Searches id name isText compilation [] w w (.error (Files.Naming.missing name)) :=
  ⟨fun before s after hnil => by simp at hnil, iff_of_true rfl (fun _ hs => absurd hs List.not_mem_nil), fun _ _ _ hd => hd⟩

/-- The first source has nothing, and the search goes on. -/
theorem Searches.cons (h : w.Homegrown) (hnot : ¬ w.Offers first name) (hmisses : Misses first name w w₁)
    (hrest : Searches id name isText compilation rest w₁ w' r) : Searches id name isText compilation (first :: rest) w w' r := by
  have hoffers := h.offers_iff_of_misses hmisses hnot
  have hnone : (∀ s ∈ first :: rest, ¬ w.Offers s name) ↔ ∀ s ∈ rest, ¬ w₁.Offers s name := by
    simp only [List.forall_mem_cons, hnot, not_false_eq_true, true_and, hoffers]
  refine ⟨?_, hrest.missing_iff.trans hnone.symm, fun hall s d hd => ?_⟩
  · intro before s after hsources hbefore hs
    cases before with
    | nil =>
        obtain ⟨rfl, -⟩ := List.cons.inj hsources
        exact absurd hs hnot
    | cons b before =>
        obtain ⟨rfl, hrests⟩ := List.cons.inj hsources
        have hdecided := hrest.decided before s after hrests
          (fun s' hmem => mt (hoffers s').1 (hbefore s' (List.mem_cons_of_mem _ hmem))) ((hoffers s).2 hs)
        obtain ⟨w₂, hbypasses, hends, hyields⟩ := hdecided.alone
        have hboth (s' : SourceId) (hs' : s' ∉ first :: before) : w.Bypasses s' w₂ :=
          (hmisses.bypasses s' (List.ne_of_not_mem_cons hs')).trans (hbypasses s' (List.not_mem_of_not_mem_cons hs'))
        exact ⟨⟨w₂, hboth, hends, hyields⟩,
          fun s' hs' d hd => hmisses.stores s' d (hdecided.others s' hs' d hd)⟩
  · exact hmisses.stores s d (hrest.others (hnone.1 hall) s d hd)

theorem Homegrown.ends_searchIn_of_offers (h : w.Homegrown) (hsound : w.tree.Sound) (hoffers : w.Offers first name)
    (rest : List SourceId) (isText : Bool) (compilation : Compilation) (id : TaskId) :
    ∃ w' r, (Move.searchIn w first rest name isText compilation).Ends id w' r ∧
      Searches id name isText compilation (first :: rest) w w' r := by
  obtain ⟨w', r, hends, hyields, hothers⟩ := h.ends_createOnce_of_offers hsound hoffers isText compilation id
  refine ⟨w', r, (Move.ends_call_of_ends hends).2 ?_, .of_offers hoffers hends hyields hothers⟩
  change (Move.afterSearching w' rest name isText compilation r).Ends id w' r
  rw [afterSearching_of_final fun f hf => hyields.not_missing hf]
  exact Move.ends_settle.2 ⟨rfl, rfl⟩

/-- By induction on the libraries that are left. -/
theorem Homegrown.ends_searchIn (h : w.Homegrown) (hsound : w.tree.Sound) (first : SourceId) (rest : List SourceId)
    (name : String) (isText : Bool) (compilation : Compilation) (id : TaskId) :
    ∃ w' r, (Move.searchIn w first rest name isText compilation).Ends id w' r ∧
      Searches id name isText compilation (first :: rest) w w' r := by
  induction rest generalizing w first with
  | nil =>
      by_cases hoffers : w.Offers first name
      · exact h.ends_searchIn_of_offers hsound hoffers [] isText compilation id
      · obtain ⟨w₁, hlookup, hmisses⟩ := h.ends_of_not_offers hoffers id
        have hends := ends_createOnce_of_missing isText compilation hlookup
        exact ⟨w₁, _, (Move.ends_call_of_ends hends).2 (Move.ends_settle.2 ⟨rfl, rfl⟩), .cons h hoffers hmisses (.nil ..)⟩
  | cons second rest ih =>
      by_cases hoffers : w.Offers first name
      · exact h.ends_searchIn_of_offers hsound hoffers (second :: rest) isText compilation id
      · obtain ⟨w₁, hlookup, hmisses⟩ := h.ends_of_not_offers hoffers id
        have hends := ends_createOnce_of_missing isText compilation hlookup
        obtain ⟨w', r, hsearch, hsearches⟩ := ih hmisses.homegrown (hmisses.tree.symm ▸ hsound) second
        exact ⟨w', r, (Move.ends_call_of_ends hends).2 hsearch, .cons h hoffers hmisses hsearches⟩

end World

/-- No executable is registered with a document. -/
def Errand.Unsupplied : Errand → Prop
  | .set _ _ _ _ e | .setIfAbsent _ _ _ _ e => e = none
  | _ => True

namespace Course

open World

/-- The executable that was served. -/
def served? : Outcome → Option ExecutableId
  | .ok (.executable e) => some e
  | _ => none

theorem eq_of_served? {o : Outcome} {e : ExecutableId} (h : served? o = some e) : o = .ok (.executable e) := by
  unfold served? at h
  split at h
  · cases h
    rfl
  · cases h

/-- A main source and a library, both in memory. -/
def shelvesWorld : World :=
  { tree := { origin := "" }, registry := .ofAdapters [quotingAdapter "a", quotingAdapter "b"], contexts := [{}]
    sources := [{ storage := .memory "main" }, { storage := .memory "library" }]
    host := some ⟨⟨0⟩, [⟨1⟩], { tag := "a" }⟩ }

theorem empty_shelvesWorld (s : SourceId) : shelvesWorld.Empty s := by
  have hsource : (shelvesWorld.source s).byName = ∅ ∧ (shelvesWorld.source s).byFile = ∅ := by
    obtain ⟨_ | _ | i⟩ := s <;> exact ⟨rfl, rfl⟩
  refine ⟨fun name => ?_, fun file => ?_⟩
  · unfold cached?
    rw [hsource.1]
    rfl
  · rw [hsource.2]
    rfl

/-- The library has a document with a body in another language. -/
def shelvedWorld : World := shelvesWorld.serve (.set ⟨1⟩ "n" "<%: b x %>" "" none)

/-- The source has the document, but the executable that is served belongs to another one. -/
def Strays (w : World) (s : SourceId) (name : String) : Prop :=
  w.Offers s name ∧ ∃ w' e, Task.Ends ⟨0⟩ w ⟨[], .call (.getExecutable name true)⟩ w' (.ok (.executable e)) ∧
    (w'.executable e).partition ≠ w'.identifier s

theorem strays_of_drive {w : World} {s : SourceId} {name : String} {n : Nat} (hoffers : w.Offers s name)
    (h : (Task.drive ⟨0⟩ n w ⟨[], .call (.getExecutable name true)⟩).any (fun x =>
      (served? x.2).any fun e => (x.1.executable e).partition ≠ x.1.identifier s) = true) : Strays w s name := by
  obtain ⟨⟨w', o⟩, hdrive, hran⟩ := (Option.any_eq_true _ _).1 h
  obtain ⟨e, he, hforeign⟩ := (Option.any_eq_true _ _).1 hran
  cases eq_of_served? he
  exact ⟨hoffers, w', e, Task.ends_of_drive hdrive, of_decide_eq_true hforeign⟩

/-- The host compiles a text for the main source, as part of no source, and its body is registered there. -/
def partlessWorld : World :=
  shelvesWorld.serve
    (.compile { tag := "a", document := "doc", registered := "doc", text := "<%: b x %>", source := some ⟨0⟩ })

/-- The host compiles a text, and puts the executable on a document with another text. -/
def attachedWorld : World :=
  ((shelvesWorld.serve (.set ⟨0⟩ "n" "x" "" none)).serve
    (.compile { tag := "a", document := "other", registered := "other", text := "y" })).serve (.attach ⟨0⟩ ⟨0⟩)

end Course

end ScriptedText
