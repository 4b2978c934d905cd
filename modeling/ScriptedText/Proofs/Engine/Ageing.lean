import ScriptedText.Proofs.Engine.Evolution

/-!
What the steps of a task do to documents, checks apart: a document keeps its text, only gains dependencies, keeps its
executable, and stays invalid once it is.
-/

namespace ScriptedText

namespace Document

structure Ages (x y : Document) : Prop where
  same : y = { x with
    dependencies := y.dependencies, executable := y.executable, validity := y.validity, lastCheck := y.lastCheck }
  dependencies : x.dependencies <+: y.dependencies
  executable : ∀ e, x.executable = some e → y.executable = some e
  invalid : x.validity = .invalid → y.validity = .invalid

variable {x y z : Document}

theorem Ages.refl (x : Document) : x.Ages x := ⟨rfl, List.prefix_refl _, fun _ => id, id⟩

theorem Ages.trans (h : x.Ages y) (h' : y.Ages z) : x.Ages z where
  same := h'.same.trans (by rw [h.same])
  dependencies := h.dependencies.trans h'.dependencies
  executable e he := h'.executable e (h.executable e he)
  invalid hx := h'.invalid (h.invalid hx)

theorem ages_invalidate (x : Document) : x.Ages x.invalidate := ⟨rfl, List.prefix_refl _, fun _ => id, fun _ => rfl⟩

theorem ages_validate (h : x.validity ≠ .invalid) : x.Ages { x with validity := .valid } :=
  ⟨rfl, List.prefix_refl _, fun _ => id, fun hx => absurd hx h⟩

theorem ages_lastCheck (x : Document) (now : Int) : x.Ages { x with lastCheck := now } :=
  ⟨rfl, List.prefix_refl _, fun _ => id, id⟩

theorem ages_addDependency (x : Document) (name : String) : x.Ages (x.addDependency name) := by
  unfold addDependency
  split
  · exact .refl x
  · exact ⟨rfl, List.prefix_append _ _, fun _ => id, id⟩

theorem ages_addDependencies (x : Document) (names : List String) : x.Ages (x.addDependencies names) := by
  unfold addDependencies
  induction names generalizing x with
  | nil => exact .refl x
  | cons name names ih => exact (ages_addDependency x name).trans (ih _)

theorem Ages.setExecutable (h : x.Ages y) (hx : x.executable = none) (e : ExecutableId) :
    x.Ages { y with executable := some e } where
  same := by rw [h.same]
  dependencies := h.dependencies
  executable e' he := nomatch hx.symm.trans he
  invalid := h.invalid

end Document

namespace World

/-- Documents are only added, each old one ages, and every source finds its files where it did. -/
structure Ages (w w' : World) : Prop where
  storage : ∀ s, (w'.source s).storage = (w.source s).storage
  documents : w.documents.length ≤ w'.documents.length
  document : ∀ d, d.index < w.documents.length → (w.document d).Ages (w'.document d)

variable {w w' w₁ w₂ : World} {d : DocumentId}

theorem document_of_le (h : w.documents.length ≤ d.index) : w.document d = default := by
  unfold document
  rw [List.getElem?_eq_none h]
  rfl

theorem lt_of_invalid (h : (w.document d).validity = .invalid) : d.index < w.documents.length := by
  refine Nat.lt_of_not_le fun hle => ?_
  rw [document_of_le hle] at h
  cases h

theorem lt_of_file (h : (w.document d).file.isSome = true) : d.index < w.documents.length := by
  refine Nat.lt_of_not_le fun hle => ?_
  rw [document_of_le hle] at h
  cases h

theorem lt_of_executable {e : ExecutableId} (h : (w.document d).executable = some e) : d.index < w.documents.length := by
  refine Nat.lt_of_not_le fun hle => ?_
  rw [document_of_le hle] at h
  cases h

theorem lt_of_dependency {name : String} (h : name ∈ (w.document d).dependencies) : d.index < w.documents.length := by
  refine Nat.lt_of_not_le fun hle => ?_
  rw [document_of_le hle] at h
  cases h

theorem document_modifyDocument (w : World) (f : Document → Document) (d' : DocumentId)
    (hd : d.index < w.documents.length) :
    (w.modifyDocument d' f).document d = if d' = d then f (w.document d) else w.document d := by
  unfold modifyDocument document
  simp only [List.getElem?_modify, List.getElem?_eq_getElem hd]
  by_cases hindex : d'.index = d.index
  · have heq : d' = d := by cases d; cases d'; cases hindex; rfl
    simp [heq]
  · have hne : d' ≠ d := fun heq => hindex (congrArg DocumentId.index heq)
    simp [hindex, hne]

namespace Ages

theorem of_eq (hs : w'.sources = w.sources) (hd : w'.documents = w.documents) : w.Ages w' where
  storage s := by simp [source, hs]
  documents := Nat.le_of_eq (by rw [hd])
  document d _ := by
    unfold World.document
    rw [hd]
    exact .refl _

theorem refl (w : World) : w.Ages w := .of_eq rfl rfl

theorem trans (h : w.Ages w₁) (h' : w₁.Ages w₂) : w.Ages w₂ where
  storage s := (h'.storage s).trans (h.storage s)
  documents := Nat.le_trans h.documents h'.documents
  document d hd := (h.document d hd).trans (h'.document d (Nat.lt_of_lt_of_le hd h.documents))

theorem invalid (h : w.Ages w') (hd : (w.document d).validity = .invalid) : (w'.document d).validity = .invalid :=
  (h.document d (lt_of_invalid hd)).invalid hd

theorem executable (h : w.Ages w') {e : ExecutableId} (hd : (w.document d).executable = some e) :
    (w'.document d).executable = some e := (h.document d (lt_of_executable hd)).executable e hd

theorem modifyDocument (d : DocumentId) {f : Document → Document} (hf : (w.document d).Ages (f (w.document d))) :
    w.Ages (w.modifyDocument d f) where
  storage _ := rfl
  documents := Nat.le_of_eq (List.length_modify ..).symm
  document d' hd' := by
    rw [document_modifyDocument w f d hd']
    split
    · next heq => exact heq ▸ hf
    · exact .refl _

theorem modifySource (s : SourceId) {f : Source → Source} (hf : ∀ x, (f x).storage = x.storage) :
    w.Ages (w.modifySource s f) where
  storage s' := read_modify hf s'.index _
  documents := Nat.le_refl _
  document _ _ := .refl _

theorem addDocument (w : World) (x : Document) : w.Ages (w.addDocument x).1 where
  storage _ := rfl
  documents := by simp [World.addDocument]
  document d hd := by
    unfold World.addDocument World.document
    rw [List.getElem?_append_left hd]
    exact .refl _

end Ages

variable (w : World) (s : SourceId) (name text tag : String) (d : DocumentId) (e : Option ExecutableId)

theorem ages_emit (e : Event) : w.Ages (w.emit e) := .of_eq rfl rfl

theorem ages_modifyContext (c : ContextId) (f : Context → Context) : w.Ages (w.modifyContext c f) := .of_eq rfl rfl

theorem ages_attachExecutable (x : ExecutableId) : w.Ages (w.attachExecutable d x).1 := by
  unfold attachExecutable
  split
  · exact .refl w
  · next hnone => exact .modifyDocument d ((Document.ages_addDependencies _ _).setExecutable hnone x)

theorem ages_createDocument : w.Ages (w.createDocument s name text tag e).1 := by
  have hadd := Ages.addDocument w { name, text, tag, timestamp := w.clock, source := s, lastCheck := w.clock }
  cases e with
  | none => exact hadd
  | some x => exact hadd.trans (ages_attachExecutable _ _ x)

theorem ages_dropInFlow : w.Ages (w.dropInFlow s d) := .modifySource s fun _ => rfl

theorem ages_invalidateAll (ds : List DocumentId) : w.Ages (ds.foldl (fun w d =>
    if (w.document d).dependencies.contains name then w.modifyDocument d Document.invalidate else w) w) := by
  induction ds generalizing w with
  | nil => exact .refl w
  | cons d ds ih =>
      refine Ages.trans ?_ (ih _)
      dsimp only
      split
      · exact .modifyDocument d (Document.ages_invalidate _)
      · exact .refl w

theorem ages_invalidateDependents : w.Ages (w.invalidateDependents s name) := ages_invalidateAll w name _

/-- Where a document is registered, it is created first; and where it replaces another one, the last thing that happens is that
those that depend on it become invalid. -/
theorem ages_setDocument_cases :
    (w.cached? s name = none ∧ (w.createDocument s name text tag e).1.Ages (w.setDocument s name text tag e).1) ∨
      ∃ w₁, (w.createDocument s name text tag e).1.Ages w₁ ∧
        (w.setDocument s name text tag e).1 = w₁.invalidateDependents s name := by
  unfold setDocument
  generalize w.createDocument s name text tag e = created
  obtain ⟨w₁, d⟩ := created
  have hinsert : w₁.Ages (w₁.modifySource s fun source => { source with byName := source.byName.insert name d }) :=
    .modifySource s fun _ => rfl
  cases w.cached? s name with
  | none => exact .inl ⟨rfl, hinsert⟩
  | some old =>
      have hold := (hinsert.trans (.modifyDocument old (Document.ages_invalidate _))).trans
        (.modifySource s (f := fun source => { source with byFile := (source.byFile.eraseValue old).1 }) fun _ => rfl)
      exact .inr ⟨_, (hold.trans (ages_dropInFlow _ s old)).trans (ages_emit _ (.evicted name .replaced)), rfl⟩

theorem ages_registered : (w.createDocument s name text tag e).1.Ages (w.setDocument s name text tag e).1 := by
  rcases ages_setDocument_cases w s name text tag e with ⟨-, hages⟩ | ⟨w₁, hages, heq⟩
  · exact hages
  · exact heq ▸ hages.trans (ages_invalidateDependents w₁ s name)

theorem ages_setDocument : w.Ages (w.setDocument s name text tag e).1 :=
  (ages_createDocument w s name text tag e).trans (ages_registered w s name text tag e)

theorem ages_keepByName : w.Ages (w.keepByName s name d).1 := .modifySource s fun _ => rfl

theorem ages_keepByFile (file : Files.Path) : w.Ages (w.keepByFile s file d).1 := .modifySource s fun _ => rfl

theorem ages_setDocumentIfAbsent : w.Ages (w.setDocumentIfAbsent s name text tag e).1 :=
  (ages_createDocument w s name text tag e).trans (ages_keepByName _ s name _)

theorem ages_evict : w.Ages (w.evict s d) :=
  ((Ages.modifySource s (f := fun source => source.forget d) fun _ => rfl).trans (ages_dropInFlow _ s d)).trans
    (ages_emit _ _)

theorem ages_renew : w.Ages (w.renew s name d).1 := by
  have hcreate := ((ages_emit w (.evicted name .invalid)).trans (ages_dropInFlow _ s d)).trans
    (ages_createDocument _ s name (((w.emit (.evicted name .invalid)).dropInFlow s d).document d).text
      (((w.emit (.evicted name .invalid)).dropInFlow s d).document d).tag none)
  unfold renew
  dsimp only
  split
  · exact hcreate.trans (.modifySource s fun _ => rfl)
  · exact hcreate

theorem ages_recordDependency (host : Host) (c : ContextId) : w.Ages (w.recordDependency host name c) := by
  unfold recordDependency
  split
  · exact .refl w
  · dsimp only
    split
    · split
      · exact .modifyDocument _ (Document.ages_addDependency _ name)
      · exact .refl w
    · exact .refl w

end World

open World Act

section compilation

theorem ages_trans (w₁ w₂ w₃ : World) (h : w₁.Ages w₂) (h' : w₂.Ages w₃) : w₁.Ages w₃ := h.trans h'

theorem ages_compile (w : World) (o : Draft) : w.Ages (w.compile o).1 :=
  relates_compile Ages.refl ages_trans (fun w e _ => ages_emit w e) (fun _ => .of_eq rfl rfl)
    (fun w _ _ _ _ _ => ages_setDocument w _ _ _ _ _) (fun _ _ _ => .of_eq rfl rfl) w

end compilation

/-- The document whose check waits at the frame. -/
def Frame.checked? : Frame → Option DocumentId
  | .dependency d _ | .fileTime d _ => some d
  | _ => none

/-- The documents whose checks are under way. -/
def Task.checks (t : Task) : List DocumentId := t.stack.filterMap Frame.checked?

namespace Move

/-- Documents age, and no check of another document begins. -/
structure Ages (w : World) (m : Move) : Prop where
  world : w.Ages m.world
  push : m.push.filterMap Frame.checked? = []

variable {w w₁ : World} {m : Move}

theorem Ages.behind (h : Ages w₁ m) (hw : w.Ages w₁) : Ages w m := ⟨hw.trans h.world, h.push⟩

theorem Ages.under (h : Ages w m) {push : List Frame} (hpush : push.filterMap Frame.checked? = []) :
    Ages w (m.under push) := by
  refine ⟨h.world, ?_⟩
  unfold Move.under
  rw [List.filterMap_append, h.push, hpush]
  rfl

theorem Ages.of_eq (hs : m.world.sources = w.sources) (hd : m.world.documents = w.documents)
    (hpush : m.push.filterMap Frame.checked? = []) : Ages w m := ⟨.of_eq hs hd, hpush⟩

variable (w : World) (t : TaskId)

section retrieval

variable (s : SourceId) (name : String) (d : DocumentId) (isText : Bool) (compilation : Compilation)

theorem ages_settle (o : Outcome) : Ages w (settle w o) := .of_eq rfl rfl rfl

theorem ages_keptByName : Ages w (keptByName w s name d) := ⟨World.ages_keepByName w s name d, rfl⟩

theorem ages_getDocument : Ages w (getDocument w s name) := by
  unfold getDocument
  split <;> exact .of_eq rfl rfl rfl

theorem ages_afterNamed (valid : Bool) : Ages w (afterNamed w s name d valid) := by
  unfold afterNamed
  split
  · exact ages_settle w _
  · split
    · exact ⟨World.ages_renew w s name d, rfl⟩
    · have hevict := World.ages_evict w s d
      dsimp only
      split
      · exact (ages_keptByName _ s name _).behind (hevict.trans (World.ages_createDocument _ s name _ _ none))
      · exact ⟨hevict, rfl⟩

theorem ages_afterResolving : Ages w (afterResolving w s name) := by
  unfold afterResolving
  split
  · exact ages_settle w _
  · split
    · exact ages_settle w _
    · split <;> exact .of_eq rfl rfl rfl

theorem ages_afterFiled (file : Files.Path) (valid : Bool) : Ages w (afterFiled w s name file d valid) := by
  unfold afterFiled
  split
  · exact ages_keptByName w s name d
  · exact ⟨World.ages_evict w s d, rfl⟩

theorem ages_afterReading (file : Files.Path) : Ages w (afterReading w s name file) := by
  unfold afterReading
  split
  · exact ages_settle w _
  · exact (ages_keptByName _ s name _).behind ((World.Ages.addDocument w _).trans (World.ages_keepByFile _ s _ file))

theorem ages_collect (names : List String) (found : List DocumentId) : Ages w (collect w s names found) := by
  unfold collect
  split <;> exact .of_eq rfl rfl rfl

theorem ages_afterListing : Ages w (afterListing w s) := by
  unfold afterListing
  split
  · exact ages_settle w _
  · split
    · exact ages_settle w _
    · exact ages_collect w s _ []

theorem ages_afterCreating : Ages w (afterCreating w s name d isText compilation) := by
  unfold afterCreating
  split
  · exact ages_settle w _
  · have hcompile := ages_compile w (draftOf w s name d isText compilation)
    split
    · next h =>
        rw [h] at hcompile
        exact ⟨hcompile, rfl⟩
    · next h =>
        rw [h] at hcompile
        exact ⟨hcompile.trans (World.ages_attachExecutable _ d _), rfl⟩

theorem ages_afterSearching (libraries : List SourceId) (o : Outcome) :
    Ages w (afterSearching w libraries name isText compilation o) := by
  unfold afterSearching
  split
  · split <;> exact .of_eq rfl rfl rfl
  · exact ages_settle w _

theorem ages_afterFetched (c : ContextId) (e : ExecutableId) : Ages w (afterFetched w name isText c e) := by
  unfold afterFetched
  dsimp only
  split
  · split
    · exact ⟨World.ages_recordDependency w name _ c, rfl⟩
    · exact .of_eq rfl rfl rfl
  · exact .of_eq rfl rfl rfl

end retrieval

section execution

variable (run : Run)

theorem ages_runHook (hook : Hook) (event : Event) {push : List Frame} (hpush : push.filterMap Frame.checked? = []) :
    Ages w (runHook w hook event push) := by
  unfold runHook
  split <;> exact .of_eq rfl rfl hpush

theorem ages_execute (options : RunOptions) : Ages w (execute w run options) := by
  unfold execute
  dsimp only
  split
  · exact ages_settle w _
  · exact (ages_runHook _ _ _ rfl).behind (World.ages_emit w _)

theorem ages_close (outcome : Except Failure Unit) : Ages w (close w run outcome) := by
  cases outcome with
  | ok _ => exact .of_eq rfl rfl rfl
  | error f =>
      exact ⟨Act.relates_reportFailure World.Ages.refl (fun w e _ => World.ages_emit w e) (w.executable run.executable).name f w, rfl⟩

theorem ages_finish (outcome : Except Failure Unit) : Ages w (finish w run outcome) := ages_runHook w _ _ rfl

theorem ages_afterFinalized (outcome : Except Failure Unit) (o : Outcome) :
    Ages w (afterFinalized w run outcome o) := by
  cases o with
  | error f => exact ages_close w run (.error f)
  | ok _ => exact ages_close w run outcome

theorem ages_startProgram (s : PlacedSegment) (a : AdapterId) : Ages w (startProgram w run s a) := by
  unfold startProgram
  dsimp only
  split
  · refine .of_eq ?_ ?_ rfl <;> (split <;> split <;> rfl)
  · exact ages_settle w _

theorem ages_goInside (inside : Inside) : Ages w (goInside w inside) := by
  cases inside with
  | program run s a => exact ages_startProgram w run s a
  | entry e =>
      unfold goInside startEntry
      dsimp only
      split <;> exact .of_eq rfl rfl rfl

theorem ages_lockAndGo (r : RegistrationId) (inside : Inside) : Ages w (lockAndGo w t r inside) := by
  unfold lockAndGo
  split
  · exact ages_goInside w inside
  · exact .of_eq rfl rfl rfl

theorem ages_runSegment (s : PlacedSegment) : Ages w (runSegment w t run s) := by
  unfold runSegment
  split
  · split
    · dsimp only
      split
      · exact (ages_startProgram _ run s _).behind (World.ages_modifyContext w _ _)
      · exact (ages_lockAndGo _ t _ _).behind (World.ages_modifyContext w _ _)
    · exact ages_settle w _
  · exact .of_eq rfl rfl rfl

theorem ages_runSegments (segments : List PlacedSegment) : Ages w (runSegments w t run segments) := by
  cases segments with
  | nil => exact ages_finish w run _
  | cons s rest => exact (ages_runSegment w t run s).under rfl

theorem ages_afterInitialized (o : Outcome) : Ages w (afterInitialized w t run o) := by
  cases o with
  | error f => exact ages_close w run (.error f)
  | ok _ => exact ages_runSegments w t run _

theorem ages_afterSegment (rest : List PlacedSegment) (o : Outcome) : Ages w (afterSegment w t run rest o) := by
  cases o with
  | error f => exact ages_finish w run (.error f)
  | ok _ => exact ages_runSegments w t run rest

theorem ages_enter (e : ExecutableId) (name : String) (args : List Value) : Ages w (enter w t e name args) := by
  have hstart (entry : Entry) : Ages w (startEntry w entry) := ages_goInside w (.entry entry)
  unfold enter
  dsimp only
  split
  · exact ages_settle w _
  · split
    · exact ages_settle w _
    · split
      · exact ages_settle w _
      · refine Ages.under ?_ rfl
        split
        · split
          · exact hstart _
          · exact ages_lockAndGo w t _ _
        · exact hstart _

theorem ages_afterProgram (site : Site) (swap : Option Swap) (o : Outcome) :
    Ages w (afterProgram w run site swap o) := by
  cases swap <;> cases o <;> exact .of_eq rfl rfl rfl

theorem ages_afterClaiming (o : Outcome) : Ages w (afterClaiming w run o) := by
  unfold afterClaiming
  split
  · exact ages_settle w _
  · split <;> exact .of_eq rfl rfl rfl

end execution

theorem ages_answer (s : Speaker) (q : Ask) (k : q.Answer → Dialogue Reply) : Ages w (answer w t s q k) := by
  cases q with
  | call h mode name =>
      unfold answer callOther
      dsimp only
      split <;> exact .of_eq rfl rfl rfl
  | callOnce h name =>
      unfold answer callOnce
      dsimp only
      split <;> exact .of_eq rfl rfl rfl
  | gate name =>
      unfold answer waitForGate
      dsimp only
      split <;> exact .of_eq rfl rfl rfl
  | _ => exact .of_eq rfl rfl rfl

theorem ages_converse (s : Speaker) (d : Dialogue Reply) : Ages w (converse w t s d) := by
  cases d with
  | ask q k => exact ages_answer w t s q k
  | _ => exact ages_settle w _

theorem ages_afterGranted (r : RegistrationId) (inside : Inside) : Ages w (afterGranted w r inside) := by
  have hset : w.Ages (w.setLock r ((w.lock r).claim inside.context)) := .of_eq rfl rfl
  exact ((ages_goInside _ inside).under rfl).behind hset

theorem ages_afterEntering (name : String) (o : Outcome) : Ages w (afterEntering w name o) := by
  unfold afterEntering
  split <;> exact .of_eq rfl rfl rfl

/-- A step of anything but a check. -/
theorem ages_resume {f : Frame} (hf : f.checked? = none) (o : Outcome) : Ages w (resume w t f o) := by
  unfold resume
  split
  · exact ages_afterInitialized w t _ _
  · exact ages_afterSegment w t _ _ _
  · exact ages_afterFinalized w _ _ _
  · exact ages_afterProgram w _ _ _ _
  · exact ages_afterGranted w _ _
  · exact .of_eq rfl rfl rfl
  · exact ages_afterClaiming w _ _
  · exact ages_afterEntering w _ _
  · exact .of_eq rfl rfl rfl
  · exact ages_afterSearching w _ _ _ _ _
  · cases hf
  · cases hf
  · exact ages_afterNamed w _ _ _ _
  · exact ages_afterResolving w _ _
  · exact ages_afterFiled w _ _ _ _ _
  · exact ages_afterReading w _ _ _
  · exact ages_afterListing w _
  · exact ages_collect w _ _ _
  · exact ages_afterCreating w _ _ _ _ _
  · exact ages_afterFetched w _ _ _ _
  · exact ages_settle w _
  · exact ages_settle w _
  · exact ages_settle w _

theorem ages_begin {c : Call} (hc : ∀ d visited, c ≠ .isValid d visited) : Ages w (begin w t c) := by
  cases c with
  | execute run options => exact ages_execute w run options
  | enter e name args => exact ages_enter w t e name args
  | getDocument s name => exact ages_getDocument w s name
  | isValid d visited => exact absurd rfl (hc d visited)
  | makeEnterable run =>
      unfold begin makeEnterable
      dsimp only
      split <;> exact .of_eq rfl rfl rfl
  | getDocuments s =>
      unfold begin getDocuments
      dsimp only
      split <;> exact .of_eq rfl rfl rfl
  | getExecutable name isText =>
      unfold begin getExecutable
      dsimp only
      split <;> exact .of_eq rfl rfl rfl
  | runOnce name c =>
      unfold begin runOnce markExecuted
      dsimp only
      split <;> next heq =>
        obtain ⟨hw, -⟩ := Prod.mk.inj heq
        subst hw
        exact .of_eq rfl rfl rfl
  | _ => exact .of_eq rfl rfl rfl

end Move

end ScriptedText
